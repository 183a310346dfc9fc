import MipsAsm.Instruction.Basic
import MipsAsm.Isa.Word

/-! # Machine words of an instruction

Encoding places an instruction at an address and looks up its labels. It fails on an undefined
label, on a value that does not fit its field, and on a mnemonic that does not belong to the
operand layout.
-/

namespace MipsAsm

open Isa (Mnemonic Register Fields EncodeError)

def signed16 (v : Int) : Except Cause UInt16 :=
  if fitsSigned16 v then .ok (UInt16.ofInt v) else .error (.immediateOutOfRange v 16)

def unsigned16 (v : Int) : Except Cause UInt16 :=
  if 0 ≤ v ∧ v < 0x10000 then .ok (UInt16.ofInt v) else .error (.immediateOutOfRange v 16)

/-- Signed or unsigned, whichever reading fits. -/
def either16 (v : Int) : Except Cause UInt16 :=
  if -0x8000 ≤ v ∧ v < 0x10000 then .ok (UInt16.ofInt v) else .error (.immediateOutOfRange v 16)

def either32 (v : Int) : Except Cause UInt32 :=
  if -0x80000000 ≤ v ∧ v < 0x100000000 then .ok (UInt32.ofInt v) else .error (.immediateOutOfRange v 32)

def address32 (v : Int) : Except Cause UInt32 :=
  if 0 ≤ v ∧ v < 0x100000000 then .ok (UInt32.ofInt v) else .error (.addressOverflow v)

/-- A target of a branch or jump is an address of a word. -/
def targetAddress (v : Int) : Except Cause UInt32 := do
  let address ← address32 v
  if address % 4 = 0 then .ok address else .error (.misalignedTarget address)

/-- The distance in words from the instruction behind `pc`. -/
def branchOffset (pc target : UInt32) : Int :=
  ((target.toNat : Int) - (pc.toNat + 4)).fdiv 4

def branchField (pc target : UInt32) : Except Cause UInt16 :=
  let offset := branchOffset pc target
  if fitsSigned16 offset then .ok (UInt16.ofInt offset) else .error (.branchOutOfRange target)

/-- The 256 MiB region that an address lies in. -/
def region (address : UInt32) : UInt32 :=
  address &&& 0xF0000000

def jumpField (pc target : UInt32) : Except Cause UInt32 :=
  if region target = region (pc + 4) then .ok ((target >>> 2) &&& 0x03FFFFFF)
  else .error (.jumpOutOfRegion target)

def shiftField (v : Int) : Except Cause UInt32 :=
  if 0 ≤ v ∧ v < 32 then .ok (UInt32.ofInt v) else .error (.immediateOutOfRange v 5)

def registerWord (m : Mnemonic) (rd rs rt : Register) (shamt : UInt32) : Except Cause Fields :=
  (Fields.ofRegister m rd rs rt shamt).mapError Cause.encoding

def immediateWord (m : Mnemonic) (rt rs : Register) (value : UInt16) : Except Cause Fields :=
  (Fields.ofImmediate m rt rs value).mapError Cause.encoding

def jumpWord (m : Mnemonic) (index : UInt32) : Except Cause Fields :=
  (Fields.ofJump m index).mapError Cause.encoding

/-- Loads the two halves of a word one after the other. -/
def loadWord (rt : Register) (value : UInt32) : Except Cause (List Fields) := do
  let high ← immediateWord .lui rt .zero (value >>> 16).toUInt16
  let low ← immediateWord .ori rt rt value.toUInt16
  return [high, low]

/-- The link register is written by `jalr` only. -/
def linkRegister (m : Mnemonic) : Register :=
  if m = .jalr then .ra else .zero

/-- The constant field of a two-register instruction, as its mnemonic extends it. -/
def constantField (m : Mnemonic) (v : Int) : Except Cause UInt16 :=
  match m.format with
  | .immUnsigned => unsigned16 v
  | _ => signed16 v

def branchTarget (pc : UInt32) (labels : LabelTable) (target : Immediate) : Except Cause UInt16 := do
  branchField pc (← targetAddress (← target.resolve labels))

namespace Instruction

def encode (pc : UInt32) (labels : LabelTable) : Instruction → Except Cause (List Fields)
  | reg3 m rd rs rt => return [← registerWord m rd rs rt 0]
  | shiftVar m rd rt rs => return [← registerWord m rd rs rt 0]
  | shift m rd rt amount => do
    let shamt ← shiftField (← amount.resolve labels)
    return [← registerWord m rd .zero rt shamt]
  | mulDiv m rs rt => return [← registerWord m .zero rs rt 0]
  | moveFrom m rd => return [← registerWord m rd .zero .zero 0]
  | jumpReg m rs => return [← registerWord m (linkRegister m) rs .zero 0]
  | imm m rt rs value => do
    let field ← constantField m (← value.resolve labels)
    return [← immediateWord m rt rs field]
  | upper rt value => do
    let field ← either16 (← value.resolve labels)
    return [← immediateWord .lui rt .zero field]
  | mem m rt offset base => do
    let field ← signed16 (← offset.resolve labels)
    return [← immediateWord m rt base field]
  | branch m rs rt target => do
    let field ← branchTarget pc labels target
    return [← immediateWord m rt rs field]
  | branchZero m rs target => do
    let field ← branchTarget pc labels target
    return [← immediateWord m .zero rs field]
  | jump m target => do
    let index ← jumpField pc (← targetAddress (← target.resolve labels))
    return [← jumpWord m index]
  | bare m => if m = .nop then return [.nop] else return [← registerWord m .zero .zero .zero 0]
  | move rd rs => return [← registerWord .addu rd rs .zero 0]
  | loadImm rt value => do
    let v ← value.resolve labels
    if (loadImm rt value).size = 4 then
      return [← immediateWord .addiu rt .zero (← signed16 v)]
    else loadWord rt (← either32 v)
  | loadAddr rt target => do
    loadWord rt (← address32 (← target.resolve labels))
  | branchAlways target => do
    let field ← branchTarget pc labels target
    return [← immediateWord .beq .zero .zero field]

end Instruction

end MipsAsm
