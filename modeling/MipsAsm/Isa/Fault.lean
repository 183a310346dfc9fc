import MipsAsm.Text.Numeral

/-! # Faults of the pipeline engine

A fault has a kind, a severity and possibly the address at fault. The severity starts from the
kind and may be overridden by whoever raises the fault.
-/

namespace MipsAsm.Isa

inductive FaultKind where
  | uninitializedRegister
  | unreservedMemory
  | misalignedAccess
  | invalidInstruction
  | overflow
  | divisionByZero
  | cycleBudget
  deriving DecidableEq, Repr

namespace FaultKind

def message : FaultKind → String
  | uninitializedRegister => "read of uninitialized register"
  | unreservedMemory => "access to unreserved memory"
  | misalignedAccess => "misaligned memory access"
  | invalidInstruction => "invalid instruction"
  | overflow => "arithmetic overflow"
  | divisionByZero => "division by zero"
  | cycleBudget => "cycle budget exhausted"

/-- Only reads of unset registers and stray accesses let the pipeline go on. -/
def defaultFatal : FaultKind → Bool
  | uninitializedRegister | unreservedMemory => false
  | _ => true

end FaultKind

structure Fault where
  kind : FaultKind
  fatal : Bool
  address : Option UInt32
  deriving DecidableEq, Repr

namespace Fault

def ofKind (kind : FaultKind) : Fault :=
  ⟨kind, kind.defaultFatal, none⟩

def atAddress (fault : Fault) (address : UInt32) : Fault :=
  { fault with address := some address }

def withFatal (fault : Fault) (fatal : Bool) : Fault :=
  { fault with fatal }

def message (fault : Fault) : String :=
  let severity := if fault.fatal then "fatal" else "warning"
  let place := match fault.address with
    | some address => " at " ++ Text.addressText address
    | none => ""
  severity ++ ": " ++ fault.kind.message ++ place

end Fault

end MipsAsm.Isa
