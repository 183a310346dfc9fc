import MipsAsm.Instruction.Operands
import MipsAsm.Item

/-! # Directives -/

namespace MipsAsm

inductive Section where
  | text
  | data
  deriving DecidableEq, Repr

inductive Directive where
  /-- Go on in a section, at its cursor or at a given address. -/
  | switch (target : Section) (address : Option Int)
  | data (width : Width) (values : List Immediate)
  | bytes (content : List UInt8)
  | space (count : Nat)
  /-- Move to a multiple of a power of two. -/
  | align (exponent : Nat)
  deriving DecidableEq, Repr

namespace Directive

open Operands

def flawed {α : Type} (head : Token) (flaw : DirectiveFlaw) : Except Error α :=
  .error ((Cause.badDirective head.text flaw).located head.pos)

def parseSwitch (head : Token) (ts : List Token) (target : Section) : Except Error Directive := do
  if ts.isEmpty then return .switch target none
  match ← readImmediate head.pos true ts with
  | (.literal v, ts) => do
    finish ts
    return .switch target (some v)
  | (.symbol _, _) => flawed head .expectedAddress

def parseString (head : Token) (ts : List Token) (terminator : List UInt8) :
    Except Error Directive := do
  let (t, ts) ← operand head.pos true ts
  let s ← stringOf t
  finish ts
  return .bytes (s.toUTF8.data.toList ++ terminator)

def parseSpace (head : Token) (ts : List Token) : Except Error Directive := do
  match ← readImmediate head.pos true ts with
  | (.literal v, ts) =>
    if v < 0 then flawed head .negativeSize
    else do
      finish ts
      return .space v.toNat
  | (.symbol _, _) => flawed head .expectedSize

def parseAlign (head : Token) (ts : List Token) : Except Error Directive := do
  match ← readImmediate head.pos true ts with
  | (.literal v, ts) =>
    if 0 ≤ v ∧ v ≤ 16 then do
      finish ts
      return .align v.toNat
    else flawed head .expectedAlignment
  | (.symbol _, _) => flawed head .expectedAlignment

/-- The directive named by `head` with the tokens behind it as arguments. -/
def parse (head : Token) (ts : List Token) : Except Error Directive :=
  match head.text with
  | ".text" => parseSwitch head ts .text
  | ".data" => parseSwitch head ts .data
  | ".word" => (immediates head.pos ts).map (.data .word)
  | ".half" => (immediates head.pos ts).map (.data .half)
  | ".byte" => (immediates head.pos ts).map (.data .byte)
  | ".ascii" => parseString head ts []
  | ".asciiz" => parseString head ts [0]
  | ".space" => parseSpace head ts
  | ".align" => parseAlign head ts
  | name => .error ((Cause.unknownDirective name).located head.pos)

end Directive

end MipsAsm
