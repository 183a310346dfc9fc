/-! # Registers

The general registers are numbered 0 to 31. Each has an ABI name, which is how it is printed, and
also answers to `$` followed by its number.
-/

namespace MipsAsm.Isa

/-- The name of the instruction set, as run configurations carry it. -/
def isaName : String := "MIPS32"

structure Register where
  number : Fin 32
  deriving DecidableEq, Repr

namespace Register

def zero : Register := ⟨0⟩

def ra : Register := ⟨31⟩

instance : Inhabited Register := ⟨zero⟩

def all : List Register :=
  (List.finRange 32).map Register.mk

def names : Vector String 32 :=
  #v["$zero", "$at", "$v0", "$v1", "$a0", "$a1", "$a2", "$a3",
    "$t0", "$t1", "$t2", "$t3", "$t4", "$t5", "$t6", "$t7",
    "$s0", "$s1", "$s2", "$s3", "$s4", "$s5", "$s6", "$s7",
    "$t8", "$t9", "$k0", "$k1", "$gp", "$sp", "$fp", "$ra"]

def name (r : Register) : String :=
  names.get r.number

def numberName (r : Register) : String :=
  "$" ++ toString r.number.val

/-- Names are case-sensitive. -/
def ofName? (s : String) : Option Register :=
  all.find? fun r => s == r.name || s == r.numberName

def ofNumber? (n : Nat) : Option Register :=
  if h : n < 32 then some ⟨⟨n, h⟩⟩ else none

end Register

end MipsAsm.Isa
