import MipsAsm.Isa.Mnemonic
import MipsAsm.Isa.Register
import MipsAsm.Text.Numeral

/-! # Machine words

One 32-bit word, split into its fields. Building a word from a mnemonic checks that the mnemonic
has the shape asked for and that the numeric field fits; `toWord` puts the fields side by side.
-/

namespace MipsAsm.Isa

/-- The three shapes of a machine word. -/
inductive WordShape where
  | register
  | immediate
  | jump
  deriving DecidableEq, Repr

def WordShape.name : WordShape → String
  | register => "register"
  | immediate => "immediate"
  | jump => "jump"

inductive EncodeError where
  | wrongFormat (m : Mnemonic) (shape : WordShape)
  | shiftAmount (amount : UInt32)
  | jumpIndex (index : UInt32)
  deriving DecidableEq, Repr

def EncodeError.message : EncodeError → String
  | wrongFormat m shape => "`" ++ m.name ++ "` is not a " ++ shape.name ++ " instruction"
  | shiftAmount amount => "shift amount " ++ toString amount.toNat ++ " does not fit in 5 bits"
  | jumpIndex index =>
    "jump target index 0x" ++ Text.upperHex index.toNat ++ " does not fit in 26 bits"

inductive Fields where
  | register (rs rt rd : Register) (shamt funct : UInt8)
  | immediate (op : UInt8) (rs : Register) (rt : UInt8) (imm : UInt16)
  | jump (op : UInt8) (index : UInt32)
  deriving DecidableEq, Repr

namespace Fields

def nop : Fields := .register .zero .zero .zero 0 0

def ofRegister (m : Mnemonic) (rd rs rt : Register) (shamt : UInt32) : Except EncodeError Fields :=
  match m.encoding with
  | .register funct =>
    if shamt > 0x1F then .error (.shiftAmount shamt)
    else .ok (.register rs rt rd shamt.toUInt8 funct)
  | _ => .error (.wrongFormat m .register)

/-- A condition code takes the place of the `rt` register. -/
def ofImmediate (m : Mnemonic) (rt rs : Register) (imm : UInt16) : Except EncodeError Fields :=
  match m.encoding with
  | .immediate op => .ok (.immediate op rs (UInt8.ofNat rt.number) imm)
  | .condition cond => .ok (.immediate 0x01 rs cond imm)
  | _ => .error (.wrongFormat m .immediate)

def ofJump (m : Mnemonic) (index : UInt32) : Except EncodeError Fields :=
  match m.encoding with
  | .jump op => if index > 0x03FFFFFF then .error (.jumpIndex index) else .ok (.jump op index)
  | _ => .error (.wrongFormat m .jump)

def registerBits (r : Register) : UInt32 :=
  UInt32.ofNat r.number

/-- Every field is cut to its width before it is shifted into place. -/
def toWord : Fields → UInt32
  | register rs rt rd shamt funct =>
    (registerBits rs <<< 21) ||| (registerBits rt <<< 16) ||| (registerBits rd <<< 11) |||
      ((shamt.toUInt32 &&& 0x1F) <<< 6) ||| (funct.toUInt32 &&& 0x3F)
  | immediate op rs rt imm =>
    ((op.toUInt32 &&& 0x3F) <<< 26) ||| (registerBits rs <<< 21) |||
      ((rt.toUInt32 &&& 0x1F) <<< 16) ||| imm.toUInt32
  | jump op index => ((op.toUInt32 &&& 0x3F) <<< 26) ||| (index &&& 0x03FFFFFF)

end Fields

end MipsAsm.Isa
