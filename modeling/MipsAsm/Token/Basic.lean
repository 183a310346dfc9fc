import MipsAsm.Automaton.Basic
import MipsAsm.Token.Constant
import MipsAsm.Token.Position

/-! # Tokens

A token has a kind, a text and the position of its first character. While the automaton runs, the
token is a draft: it becomes a token once it was begun and given a kind.
-/

namespace MipsAsm

inductive Token.Kind where
  | identifier
  | label
  | directive
  | separator
  | operator
  | integerConstant
  | stringLiteral
  | characterLiteral
  | register
  | mnemonic
  deriving DecidableEq, Repr

structure Token where
  kind : Token.Kind
  text : String
  pos : Position
  deriving DecidableEq, Repr

namespace Token

def is (t : Token) (kind : Kind) (text : String) : Bool :=
  t.kind == kind && t.text == text

/-- The name in front of a label's colon. -/
def labelName? (t : Token) : Option String :=
  match t.kind, t.text.toList.getLast? with
  | .label, some ':' => some (String.ofList t.text.toList.dropLast)
  | _, _ => none

def charValue? (t : Token) : Option UInt8 :=
  match t.kind with
  | .characterLiteral => characterValue? t.text
  | _ => none

def intValue? (t : Token) : Option Int :=
  match t.kind with
  | .integerConstant => integerValue? t.text
  | .characterLiteral => (characterValue? t.text).map fun b => Int.ofNat b.toNat
  | _ => none

/-- A token under construction. Its text is kept in reverse. -/
structure Draft where
  source : Nat
  line : Nat
  col : Option Nat
  kind : Option Kind
  reversed : List Char
  marked : Option Nat
  deriving DecidableEq, Repr

namespace Draft

def fresh (source line : Nat) : Draft :=
  ⟨source, line, none, none, [], none⟩

def text (d : Draft) : String :=
  String.ofList d.reversed.reverse

def pos? (d : Draft) : Option Position :=
  d.col.map fun col => ⟨d.source, d.line, col⟩

/-- Beginning forgets all that was there before. -/
def react (d : Draft) : Automaton.Event Kind → Draft
  | .start col => { fresh d.source d.line with col := some col }
  | .push c => { d with reversed := c :: d.reversed }
  | .setKind kind => { d with kind := some kind }
  | .mark col => { d with marked := some col }

def build? (d : Draft) : Option Token := do
  let pos ← d.pos?
  let kind ← d.kind
  return ⟨kind, d.text, pos⟩

end Draft

end Token

end MipsAsm
