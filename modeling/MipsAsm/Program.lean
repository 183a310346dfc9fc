import MipsAsm.Assembly.Statement

/-! # Programs

A run takes named sources one after the other; each is assembled as it is added, and labels of
any of them are visible in all once the run is finished. A source that fails contributes no items
but keeps its place among the sources.
-/

namespace MipsAsm

open Memory (Image Endian)

/-- The lines of each source in the order of addition. -/
abbrev SourceTable : Type :=
  List (String × List String)

namespace SourceTable

def contains (t : SourceTable) (name : String) : Bool :=
  t.any fun entry => entry.1 == name

/-- A name that is already there keeps its place and gets new lines. -/
def insert (t : SourceTable) (name : String) (lines : List String) : SourceTable :=
  if contains t name then t.map fun entry => if entry.1 == name then (name, lines) else entry
  else t ++ [(name, lines)]

end SourceTable

structure Options where
  endian : Endian
  capacity : Nat
  textBase : UInt32
  dataBase : UInt32
  /-- Refuse overlapping segments instead of warning about them. -/
  strict : Bool
  deriving DecidableEq, Repr

def Options.default : Options :=
  ⟨.little, Memory.defaultCapacity, Memory.defaultTextBase, Memory.defaultDataBase, false⟩

structure Program where
  memory : Image
  labels : LabelTable
  sources : SourceTable
  items : Array Item
  warnings : List Memory.Overlap
  deriving DecidableEq, Repr

structure Run where
  options : Options
  assembly : Assembly
  items : Array Item
  sources : SourceTable
  deriving DecidableEq, Repr

def entryLabel : String := "main"

namespace Run

def start (options : Options) : Run :=
  ⟨options, .ofBases options.textBase options.dataBase (.ofCapacity options.capacity options.endian),
    #[], []⟩

/-- Records the source, then assembles it. -/
def parseSource (r : Run) (name : String) (text : String) : Except Error Unit × Run :=
  let sources := SourceTable.insert r.sources name (Text.shownLines text)
  match r.assembly.parse r.sources.length (Token.linesOfText text) with
  | (.ok items, assembly) => (.ok (), { r with assembly, sources, items := r.items ++ items })
  | (.error e, assembly) => (.error e, { r with assembly, sources })

/-- Adds a source; `none` stands for bytes that are no text. Names are unique within a run. -/
def addSource (r : Run) (name : String) (text : Option String) : Except Error Unit × Run :=
  if SourceTable.contains r.sources name then
    (.error (.assembly none (.duplicateSource name)), r)
  else
    match text with
    | none => (.error .fileRead, r)
    | some text => r.parseSource name text

/-- An overlap is an error of a strict run and a warning of any other. -/
def checkLayout (options : Options) (memory : Image) : Except Error (List Memory.Overlap) :=
  match memory.overlap? with
  | none => .ok []
  | some overlap =>
    if options.strict then .error (.assembly none (.segmentOverlap overlap)) else .ok [overlap]

def finish (r : Run) : Except Error Program :=
  match Store.items r.assembly.labels r.items.toList r.assembly.memory with
  | .error e _ => .error e
  | .ok _ memory =>
    match r.assembly.labels.address? entryLabel with
    | none => .error (.assembly none .noEntryPoint)
    | some entry => do
      let memory := { memory with entry }
      let warnings ← checkLayout r.options memory
      return ⟨memory, r.assembly.labels, r.sources, r.items, warnings⟩

def addTexts (r : Run) : List (String × String) → Except Error Run
  | [] => .ok r
  | (name, text) :: rest =>
    match r.addSource name (some text) with
    | (.ok _, r) => r.addTexts rest
    | (.error e, _) => .error e

end Run

def assemble (options : Options) (sources : List (String × String)) : Except Error Program := do
  (← (Run.start options).addTexts sources).finish

end MipsAsm
