import MipsAsm.Isa.Mnemonic
import MipsAsm.Isa.Register
import MipsAsm.LabelTable

/-! # Instructions

An instruction as written: a mnemonic with its operands, where an immediate may still be the name
of a label. Its size is fixed before any label is known.
-/

namespace MipsAsm

open Isa (Mnemonic Register)

inductive Immediate where
  | literal (value : Int)
  | symbol (name : String)
  deriving DecidableEq, Repr

def Immediate.resolve (labels : LabelTable) : Immediate → Except Cause Int
  | literal value => .ok value
  | symbol name =>
    match labels.address? name with
    | some address => .ok address.toNat
    | none => .error (.undefinedLabel name)

/-- One constructor per operand layout; operands stand in source order. -/
inductive Instruction where
  | reg3 (m : Mnemonic) (rd rs rt : Register)
  | shiftVar (m : Mnemonic) (rd rt rs : Register)
  | shift (m : Mnemonic) (rd rt : Register) (amount : Immediate)
  | mulDiv (m : Mnemonic) (rs rt : Register)
  | moveFrom (m : Mnemonic) (rd : Register)
  | jumpReg (m : Mnemonic) (rs : Register)
  | imm (m : Mnemonic) (rt rs : Register) (value : Immediate)
  | upper (rt : Register) (value : Immediate)
  | mem (m : Mnemonic) (rt : Register) (offset : Immediate) (base : Register)
  | branch (m : Mnemonic) (rs rt : Register) (target : Immediate)
  | branchZero (m : Mnemonic) (rs : Register) (target : Immediate)
  | jump (m : Mnemonic) (target : Immediate)
  | bare (m : Mnemonic)
  | move (rd rs : Register)
  | loadImm (rt : Register) (value : Immediate)
  | loadAddr (rt : Register) (target : Immediate)
  | branchAlways (target : Immediate)
  deriving DecidableEq, Repr

/-- The range of a sign-extended half-word. -/
def fitsSigned16 (v : Int) : Bool :=
  decide (-0x8000 ≤ v ∧ v < 0x8000)

namespace Instruction

def mnemonic : Instruction → Mnemonic
  | reg3 m .. | shiftVar m .. | shift m .. | mulDiv m .. | moveFrom m _ | jumpReg m _ | imm m ..
  | mem m .. | branch m .. | branchZero m .. | jump m _ | bare m => m
  | upper .. => .lui
  | move .. => .move
  | loadImm .. => .li
  | loadAddr .. => .la
  | branchAlways _ => .b

/-- Bytes taken in the text segment: a load of an address or of a constant that is not known to be
short takes two words. -/
def size : Instruction → Nat
  | loadAddr .. => 8
  | loadImm _ (.literal v) => if fitsSigned16 v then 4 else 8
  | loadImm _ (.symbol _) => 8
  | _ => 4

end Instruction

end MipsAsm
