import MipsAsm.RunConfig.Reader
import MipsAsm.Settings.Reader

/-! # Files

The operations on files that the program needs, over any monad that can read and write by name.
-/

namespace MipsAsm

/-- What reading a path gives. -/
inductive Contents where
  | missing
  /-- The path can be opened but not read, as a directory can. -/
  | unreadable
  | bytes (content : Array UInt8)
  deriving DecidableEq, Repr

def textOfBytes (content : Array UInt8) : Option String :=
  String.fromUTF8? ⟨content⟩

def bytesOfText (s : String) : Array UInt8 :=
  s.toUTF8.data

structure Files (m : Type → Type) where
  read : String → m Contents
  /-- Whether the file could be written. -/
  write : String → Array UInt8 → m Bool

namespace Files

variable {m : Type → Type} [Monad m]

def loadBytes (fs : Files m) (path : String) : ExceptT Error m (Array UInt8) := do
  match ← fs.read path with
  | .bytes content => return content
  | _ => throw (.fileOpen path)

def loadText (fs : Files m) (path : String) : ExceptT Error m String := do
  match textOfBytes (← fs.loadBytes path) with
  | some s => return s
  | none => throw (.fileOpen path)

def loadSettings (fs : Files m) (path : String) : ExceptT Error m Settings := do
  match Settings.ofYaml? (← fs.loadText path) with
  | some settings => return settings
  | none => throw .settings

def loadConfig (fs : Files m) (path : String) : ExceptT Error m RunConfig := do
  RunConfig.parse (← fs.loadText path)

/-- Writes the whole buffer, without a header. -/
def writeBinary (fs : Files m) (path : String) (image : Memory.Image) : ExceptT Error m Unit := do
  unless ← fs.write path image.bytes do throw (.fileCreate path)

def writeConfig (fs : Files m) (path : String) (config : RunConfig) : ExceptT Error m Unit := do
  unless ← fs.write path (bytesOfText config.render) do throw (.fileWrite path)

end Files

end MipsAsm
