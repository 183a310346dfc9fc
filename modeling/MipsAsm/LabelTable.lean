import MipsAsm.Cause
import MipsAsm.Token.Position

/-! # Label tables

Labels in the order of their definition. Names are case-sensitive and defined at most once.
-/

namespace MipsAsm

structure Label where
  name : String
  pos : Position
  address : UInt32
  deriving DecidableEq, Repr

structure LabelTable where
  labels : List Label
  deriving DecidableEq, Repr

namespace LabelTable

def empty : LabelTable :=
  ⟨[]⟩

def find? (t : LabelTable) (name : String) : Option Label :=
  t.labels.find? fun l => l.name == name

def define (t : LabelTable) (label : Label) : Except Cause LabelTable :=
  match t.find? label.name with
  | some _ => .error (.redefinedLabel label.name)
  | none => .ok ⟨t.labels ++ [label]⟩

def address? (t : LabelTable) (name : String) : Option UInt32 :=
  (t.find? name).map Label.address

def position? (t : LabelTable) (name : String) : Option Position :=
  (t.find? name).map Label.pos

/-- The first label defined at an address. -/
def nameOf? (t : LabelTable) (address : UInt32) : Option String :=
  (t.labels.find? fun l => l.address == address).map Label.name

def size (t : LabelTable) : Nat :=
  t.labels.length

end LabelTable

end MipsAsm
