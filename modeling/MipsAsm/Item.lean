import MipsAsm.Error
import MipsAsm.Instruction.Encode
import MipsAsm.Memory.Image

/-! # Staged items

An item is content that has its address but may still wait for labels. Storing it writes its bytes
into an image; values in front of one that cannot be written stay written.
-/

namespace MipsAsm

open Memory (Image)

/-- Sizes of the values of a data directive. -/
inductive Width where
  | byte
  | half
  | word
  deriving DecidableEq, Repr

def Width.bytes : Width → Nat
  | byte => 1
  | half => 2
  | word => 4

/-- How many numbers a width can tell apart. -/
def Width.range : Width → Int
  | byte => 0x100
  | half => 0x10000
  | word => 0x100000000

/-- A value fits if it does so as a signed or as an unsigned number. -/
def Width.fit (w : Width) (v : Int) : Except Cause Nat :=
  if -w.range / 2 ≤ v ∧ v < w.range then .ok (v % w.range).toNat
  else .error (.immediateOutOfRange v (8 * w.bytes))

inductive Payload where
  | code (instruction : Instruction)
  | data (width : Width) (values : List Immediate)
  | bytes (content : List UInt8)
  | space (count : Nat)
  deriving DecidableEq, Repr

def Payload.size : Payload → Nat
  | code instruction => instruction.size
  | data width values => width.bytes * values.length
  | bytes content => content.length
  | space count => count

structure Item where
  address : UInt32
  pos : Position
  payload : Payload
  deriving DecidableEq, Repr

def Item.size (item : Item) : Nat :=
  item.payload.size

/-- Writing into an image, which keeps what was written before an error. -/
abbrev Store : Type → Type :=
  EStateM Error Image

namespace Store

def words (address : UInt32) : List Isa.Fields → Store Unit
  | [] => pure ()
  | w :: ws => do
    modify fun m => m.writeWord address w.toWord
    words (address + 4) ws

def value (labels : LabelTable) (pos : Position) (width : Width) (address : UInt32)
    (v : Immediate) : Store Unit := fun m =>
  match v.resolve labels >>= width.fit with
  | .ok n => .ok () (m.writeNumber address width.bytes n)
  | .error cause => .error (cause.located pos) m

def values (labels : LabelTable) (pos : Position) (width : Width) (address : UInt32) :
    List Immediate → Store Unit
  | [] => pure ()
  | v :: vs => do
    value labels pos width address v
    values labels pos width (address + UInt32.ofNat width.bytes) vs

def instruction (labels : LabelTable) (pos : Position) (address : UInt32) (i : Instruction) :
    Store Unit := fun m =>
  match i.encode address labels with
  | .ok ws => words address ws m
  | .error cause => .error (cause.located pos) m

def item (labels : LabelTable) (it : Item) : Store Unit :=
  match it.payload with
  | .code i => instruction labels it.pos it.address i
  | .data width vs => values labels it.pos width it.address vs
  | .bytes content => modify fun m => m.writeBytes it.address content
  | .space count => modify fun m => m.writeBytes it.address (List.replicate count 0)

def items (labels : LabelTable) : List Item → Store Unit
  | [] => pure ()
  | it :: its => do
    item labels it
    items labels its

end Store

end MipsAsm
