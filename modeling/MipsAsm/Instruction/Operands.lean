import MipsAsm.Error
import MipsAsm.Instruction.Basic

/-! # Reading operands

The operand layout of a format is a list of operand shapes. Reading goes through the shapes from
left to right, expects a comma in front of every operand but the first, and wants nothing to be
left over. Each reader takes the tokens still unread and returns those behind what it read; a
token that is missing is blamed on the head of the statement.
-/

namespace MipsAsm.Operands

open Isa (Mnemonic Register Format)

inductive Shape where
  | register
  | immediate
  /-- `off(base)` or `(base)`. -/
  | memory
  deriving DecidableEq, Repr

/-- The value that an operand of a shape denotes. -/
abbrev Shape.Value : Shape → Type
  | register => Register
  | immediate => Immediate
  | memory => Immediate × Register

/-- One value per shape. -/
abbrev Values : List Shape → Type
  | [] => Unit
  | shape :: shapes => shape.Value × Values shapes

def next (head : Position) : List Token → Except Error (Token × List Token)
  | [] => .error (Cause.missingArgument.located head)
  | t :: ts => .ok (t, ts)

def unexpected {α : Type} (t : Token) : Except Error α :=
  .error ((Cause.unexpectedToken t.text).located t.pos)

def badOperand {α : Type} (t : Token) (expected : OperandKind) : Except Error α :=
  .error ((Cause.badOperand t.text expected).located t.pos)

def expect (head : Position) (separator : String) (ts : List Token) : Except Error (List Token) := do
  let (t, ts) ← next head ts
  if t.is .separator separator then return ts else unexpected t

/-- The first token of an operand, behind the comma in front of it. -/
def operand (head : Position) (first : Bool) (ts : List Token) : Except Error (Token × List Token) := do
  let ts ← if first then pure ts else expect head "," ts
  next head ts

def registerOf (t : Token) : Except Error Register :=
  match t.kind, Register.ofName? t.text with
  | .register, some r => .ok r
  | _, _ => badOperand t .register

/-- A label may share its name with a mnemonic. -/
def immediate? (t : Token) : Option Immediate :=
  match t.kind with
  | .integerConstant | .characterLiteral => t.intValue?.map .literal
  | .identifier | .mnemonic => some (.symbol t.text)
  | _ => none

def immediateOf (t : Token) : Except Error Immediate :=
  match immediate? t with
  | some v => .ok v
  | none => badOperand t .immediate

def stringOf (t : Token) : Except Error String :=
  if t.kind = .stringLiteral then .ok t.text else badOperand t .string

def readImmediate (head : Position) (first : Bool) (ts : List Token) :
    Except Error (Immediate × List Token) := do
  let (t, ts) ← operand head first ts
  return (← immediateOf t, ts)

/-- An omitted offset is 0. -/
def readMemory (head : Position) (first : Bool) (ts : List Token) :
    Except Error ((Immediate × Register) × List Token) := do
  let (t, ts) ← operand head first ts
  let (offset, ts) ←
    if t.is .separator "(" then pure (Immediate.literal 0, ts)
    else do
      let offset ← immediateOf t
      pure (offset, ← expect head "(" ts)
  let (t, ts) ← next head ts
  let base ← registerOf t
  let ts ← expect head ")" ts
  return ((offset, base), ts)

def readShape (head : Position) (first : Bool) (ts : List Token) :
    (shape : Shape) → Except Error (shape.Value × List Token)
  | .register => do
    let (t, ts) ← operand head first ts
    return (← registerOf t, ts)
  | .immediate => readImmediate head first ts
  | .memory => readMemory head first ts

def readShapes (head : Position) (first : Bool) (ts : List Token) :
    (shapes : List Shape) → Except Error (Values shapes × List Token)
  | [] => .ok ((), ts)
  | shape :: shapes => do
    let (value, ts) ← readShape head first ts shape
    let (values, ts) ← readShapes head false ts shapes
    return ((value, values), ts)

def finish : List Token → Except Error Unit
  | [] => .ok ()
  | t :: _ => unexpected t

/-- Immediates up to the end of the statement, each behind a comma. -/
def moreImmediates (head : Position) : List Token → Except Error (List Immediate)
  | [] => .ok []
  | [comma] => if comma.is .separator "," then .error (Cause.missingArgument.located head)
    else unexpected comma
  | comma :: t :: ts =>
    if comma.is .separator "," then do
      let value ← immediateOf t
      return value :: (← moreImmediates head ts)
    else unexpected comma

/-- One immediate or more, up to the end of the statement. -/
def immediates (head : Position) (ts : List Token) : Except Error (List Immediate) := do
  let (value, ts) ← readImmediate head true ts
  return value :: (← moreImmediates head ts)

def shapes : Format → List Shape
  | .reg3 | .shiftVar => [.register, .register, .register]
  | .shift | .immSigned | .immUnsigned | .branch => [.register, .register, .immediate]
  | .mulDiv | .move => [.register, .register]
  | .moveFrom | .jumpReg => [.register]
  | .upper | .branchZero | .loadImm | .loadAddr => [.register, .immediate]
  | .mem => [.register, .memory]
  | .jump | .branchAlways => [.immediate]
  | .bare => []

def build (m : Mnemonic) : (format : Format) → Values (shapes format) → Instruction
  | .reg3, (rd, rs, rt, ()) => .reg3 m rd rs rt
  | .shiftVar, (rd, rt, rs, ()) => .shiftVar m rd rt rs
  | .shift, (rd, rt, amount, ()) => .shift m rd rt amount
  | .mulDiv, (rs, rt, ()) => .mulDiv m rs rt
  | .moveFrom, (rd, ()) => .moveFrom m rd
  | .jumpReg, (rs, ()) => .jumpReg m rs
  | .immSigned, (rt, rs, value, ()) => .imm m rt rs value
  | .immUnsigned, (rt, rs, value, ()) => .imm m rt rs value
  | .upper, (rt, value, ()) => .upper rt value
  | .mem, (rt, (offset, base), ()) => .mem m rt offset base
  | .branch, (rs, rt, target, ()) => .branch m rs rt target
  | .branchZero, (rs, target, ()) => .branchZero m rs target
  | .jump, (target, ()) => .jump m target
  | .bare, () => .bare m
  | .move, (rd, rs, ()) => .move rd rs
  | .loadImm, (rt, value, ()) => .loadImm rt value
  | .loadAddr, (rt, target, ()) => .loadAddr rt target
  | .branchAlways, (target, ()) => .branchAlways target

end MipsAsm.Operands

namespace MipsAsm

/-- The instruction that a mnemonic makes of all the tokens behind it. -/
def Instruction.parse (m : Isa.Mnemonic) (head : Position) (ts : List Token) :
    Except Error Instruction := do
  let (values, ts) ← Operands.readShapes head true ts (Operands.shapes m.format)
  Operands.finish ts
  return Operands.build m m.format values

end MipsAsm
