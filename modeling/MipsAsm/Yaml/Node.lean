import MipsAsm.Yaml.Tag

/-! # Nodes of YAML

A document is a tree of scalars, sequences, mappings and aliases. Anchors have slots: a name gets
the slot whose number is the number of names known before it, also if it is known already, so that
two names can share a slot. An alias stands for the last node of the whole document that has the
slot of its name.
-/

namespace MipsAsm.Yaml

inductive Node where
  | scalar (style : Style) (tag : Option Tag) (text : String)
  | sequence (tag : Option Tag) (items : List Node)
  | mapping (tag : Option Tag) (entries : List (Node × Node))
  | alias (slot : Nat)
  deriving Inhabited, Repr

/-- Nodes with anchors are numbered in the order in which they begin. -/
structure Anchors where
  slots : List (String × Nat)
  /-- The number of the node in each slot, the latest first. -/
  owners : List (Nat × Nat)
  nodes : List (Nat × Node)

namespace Anchors

def empty : Anchors :=
  ⟨[], [], []⟩

def slot? (a : Anchors) (name : String) : Option Nat :=
  a.slots.lookup name

/-- The number of the node that begins next. -/
def next (a : Anchors) : Nat :=
  a.owners.length

def start (a : Anchors) (name : String) : Anchors :=
  let slot := a.slots.length
  { a with
    slots := (name, slot) :: a.slots.filter fun known => known.1 != name
    owners := (slot, a.next) :: a.owners }

def finish (a : Anchors) (number : Nat) (node : Node) : Anchors :=
  { a with nodes := (number, node) :: a.nodes }

def get? (a : Anchors) (slot : Nat) : Option Node := do
  a.nodes.lookup (← a.owners.lookup slot)

end Anchors

structure Document where
  root : Node
  anchors : Anchors

/-- The node itself, or what an alias stands for. -/
def Document.resolve? (d : Document) : Node → Option Node
  | .alias slot => d.anchors.get? slot
  | node => some node

end MipsAsm.Yaml
