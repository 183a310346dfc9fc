import MipsAsm.Files.Access

/-! # Directories in memory

A directory as a value: the files in it, by the components of their paths. Paths are relative to
it; nothing outside can be read or written.
-/

namespace MipsAsm

structure Directory where
  files : List (List String × Array UInt8)
  deriving DecidableEq, Repr

namespace Directory

/-- What a path leads to. -/
inductive Place where
  | nowhere
  | directory
  | file (path : List String)
  deriving DecidableEq, Repr

/-- The root, and every directory that holds a file. -/
def isDirectory (d : Directory) (path : List String) : Bool :=
  path.isEmpty || d.files.any fun entry => path.isPrefixOf entry.1 && path.length < entry.1.length

def walk (d : Directory) (here : List String) : List String → Place
  | [] => .directory
  | component :: rest =>
    if component == "" || component == "." then walk d here rest
    else if component == ".." then
      if !here.isEmpty then walk d here.dropLast rest
      else if rest.isEmpty then .directory
      else .nowhere
    else if d.isDirectory (here ++ [component]) then walk d (here ++ [component]) rest
    else if rest.isEmpty then .file (here ++ [component])
    else .nowhere

/-- Names are at most 255 octets long and paths less than 4096, and neither holds an octet 0. -/
def isPath (path : String) : Bool :=
  !path.isEmpty && path.utf8ByteSize < 4096 && !path.toList.contains '\x00' &&
    (path.splitOn "/").all (·.utf8ByteSize ≤ 255)

def locate (d : Directory) (path : String) : Place :=
  if !isPath path || path.toList.head? == some '/' then .nowhere
  else d.walk [] (path.splitOn "/")

def get? (d : Directory) (path : List String) : Option (Array UInt8) :=
  (d.files.find? fun entry => entry.1 == path).map Prod.snd

def insert (d : Directory) (path : List String) (content : Array UInt8) : Directory :=
  ⟨(path, content) :: d.files.filter fun entry => entry.1 != path⟩

def read (d : Directory) (path : String) : Contents :=
  match d.locate path with
  | .nowhere => .missing
  | .directory => .unreadable
  | .file path =>
    match d.get? path with
    | some content => .bytes content
    | none => .missing

def write (d : Directory) (path : String) (content : Array UInt8) : Bool × Directory :=
  match d.locate path with
  | .file path => (true, d.insert path content)
  | _ => (false, d)

def ofFiles (files : List (String × Array UInt8)) : Directory :=
  files.foldl (fun d (name, content) => (d.insert (name.splitOn "/") content)) ⟨[]⟩

/-- Files of a directory that is the state of a computation. -/
def access : Files (StateM Directory) where
  read path := return (← get).read path
  write path content := modifyGet fun d => d.write path content

end Directory

end MipsAsm
