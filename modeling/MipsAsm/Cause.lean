import MipsAsm.Isa.Word
import MipsAsm.Memory.Segment

/-! # Causes of assembly errors -/

namespace MipsAsm

/-- What an operand was expected to be. -/
inductive OperandKind where
  | register
  | immediate
  | string
  deriving DecidableEq, Repr

def OperandKind.name : OperandKind → String
  | register => "register"
  | immediate => "immediate"
  | string => "string"

/-- What is wrong with the argument of a directive. -/
inductive DirectiveFlaw where
  | expectedAddress
  | expectedSize
  | negativeSize
  | expectedAlignment
  deriving DecidableEq, Repr

def DirectiveFlaw.message : DirectiveFlaw → String
  | expectedAddress => "expected an address"
  | expectedSize => "expected a size"
  | negativeSize => "size must not be negative"
  | expectedAlignment => "expected a power of two between 0 and 16"

inductive Cause where
  | unknownOperation (name : String)
  | unknownDirective (name : String)
  | missingArgument
  | unexpectedToken (text : String)
  | badOperand (text : String) (expected : OperandKind)
  | badDirective (name : String) (flaw : DirectiveFlaw)
  | instructionOutsideText
  | undefinedLabel (name : String)
  | redefinedLabel (name : String)
  | noEntryPoint
  | immediateOutOfRange (value : Int) (bits : Nat)
  | branchOutOfRange (target : UInt32)
  | jumpOutOfRegion (target : UInt32)
  | misalignedTarget (target : UInt32)
  | addressOverflow (address : Int)
  | segmentOverlap (overlap : Memory.Overlap)
  | duplicateSource (name : String)
  | encoding (error : Isa.EncodeError)
  deriving DecidableEq, Repr

namespace Cause

/-- A number outside the address space is written as 64 bits of two's complement. -/
def overflowText (address : Int) : String :=
  "0x" ++ Text.upperHex (address % 0x10000000000000000).toNat

def message : Cause → String
  | unknownOperation name => "Unknown operation: `" ++ name ++ "`"
  | unknownDirective name => "Unknown directive: `" ++ name ++ "`"
  | missingArgument => "More argument required"
  | unexpectedToken text => "Unexpected token: `" ++ text ++ "`"
  | badOperand text expected => "Cannot parse `" ++ text ++ "` as " ++ expected.name
  | badDirective name flaw => "Invalid argument for `" ++ name ++ "`: " ++ flaw.message
  | instructionOutsideText => "Instruction outside of a text segment"
  | undefinedLabel name => "Undefined label: `" ++ name ++ "`"
  | redefinedLabel name => "Re-defined label: `" ++ name ++ "`"
  | noEntryPoint => "No entry point found: label `main` is not defined"
  | immediateOutOfRange value bits =>
    "Value " ++ toString value ++ " does not fit in " ++ toString bits ++ " bits"
  | branchOutOfRange target => "Branch target " ++ Text.addressText target ++ " is out of range"
  | jumpOutOfRegion target =>
    "Jump target " ++ Text.addressText target ++ " is outside the current 256MiB region"
  | misalignedTarget target => "Target " ++ Text.addressText target ++ " is not word aligned"
  | addressOverflow address =>
    "Address " ++ overflowText address ++ " is outside the 32-bit address space"
  | segmentOverlap overlap => "Segments overlap: " ++ overlap.message
  | duplicateSource name => "Source `" ++ name ++ "` was already added"
  | encoding error => "Encoding failed: " ++ error.message

end Cause

end MipsAsm
