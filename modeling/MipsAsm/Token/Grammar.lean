import MipsAsm.Token.Basic

/-! # The token automaton

String literals have a small escape grammar: `\"` stands for a quote, and a backslash before
anything else is kept together with what follows. Character literals accept only the escapes
`\n \t \r \0 \\ \' \"` and `\x` with one or two hexadecimal digits. A run of digits that meets a
character of another class is malformed, and the first such character is blamed.
-/

namespace MipsAsm.Token

open Automaton

structure Options where
  /-- A lone sign is an operator instead of an error. -/
  operators : Bool
  /-- Everything from `#` to the end of the line is dropped. -/
  comments : Bool
  deriving DecidableEq, Repr

inductive State where
  | start
  | identifier
  | label
  | dot
  | directive
  | separator
  | sign
  | zero
  | octal
  | hexMark
  | hex
  | decimal
  | malformed
  | stringBody
  | stringEscape
  | stringEnd
  | charOpen
  | charEscape
  | charHexFirst
  | charHexSecond
  | charBody
  | charEnd
  | comment
  deriving DecidableEq, Repr

namespace State

/-- The names that error messages use. -/
def name : State → String
  | start => "start"
  | identifier => "identifier"
  | label => "label"
  | dot | directive => "directive"
  | separator => "separator"
  | sign => "sign"
  | zero => "integer constant"
  | octal => "octal constant"
  | hexMark | hex => "hexadecimal constant"
  | decimal => "decimal constant"
  | malformed => "malformed integer constant"
  | stringBody | stringEscape | stringEnd => "string literal"
  | charEscape | charHexFirst => "character escape"
  | charOpen | charHexSecond | charBody | charEnd => "character literal"
  | comment => "comment"

def accepting (options : Options) : State → Bool
  | identifier | label | directive | separator | zero | octal | hex | decimal | stringEnd | charEnd
  | comment => true
  | sign => options.operators
  | _ => false

end State

def letters : CharSet :=
  (CharSet.range 'a' 'z').join (.range 'A' 'Z')

def digits : CharSet :=
  .range '0' '9'

def octalDigits : CharSet :=
  .range '0' '7'

def hexDigits : CharSet :=
  (digits.join (.range 'a' 'f')).join (.range 'A' 'F')

def identStart : CharSet :=
  letters.join (.of "_$")

def identCont : CharSet :=
  (letters.join digits).join (.of "_$.")

def directiveStart : CharSet :=
  letters.join (.of "_")

def directiveCont : CharSet :=
  (letters.join digits).join (.of "_")

/-- The edge that begins a token whose first character belongs to its text. -/
def opening (target : State) (on : CharSet) (kind : Kind) : Edge State Kind :=
  ⟨target, on, [.start, .append, .setKind kind]⟩

/-- The edge out of a run of digits that spoils it. -/
def spoiling : Edge State Kind :=
  ⟨.malformed, identCont, [.mark, .append]⟩

def commentEdges (options : Options) : List (Edge State Kind) :=
  if options.comments then [⟨.comment, .of "#", []⟩] else []

def edges (options : Options) : State → List (Edge State Kind)
  | .start =>
    [⟨.start, .blank, []⟩,
      opening .identifier identStart .identifier,
      opening .dot (.of ".") .directive,
      opening .separator (.of ",()") .separator,
      opening .sign (.of "+-") .operator,
      opening .zero (.of "0") .integerConstant,
      opening .decimal (.range '1' '9') .integerConstant,
      ⟨.stringBody, .of "\"", [.start, .setKind .stringLiteral]⟩,
      ⟨.charOpen, .of "'", [.start, .setKind .characterLiteral]⟩] ++ commentEdges options
  | .identifier =>
    [⟨.identifier, identCont, [.append]⟩,
      ⟨.label, .of ":", [.append, .setKind .label]⟩]
  | .dot => [⟨.directive, directiveStart, [.append]⟩]
  | .directive =>
    [⟨.directive, directiveCont, [.append]⟩,
      ⟨.label, .of ":", [.append, .setKind .label]⟩]
  | .sign =>
    [⟨.zero, .of "0", [.append, .setKind .integerConstant]⟩,
      ⟨.decimal, .range '1' '9', [.append, .setKind .integerConstant]⟩]
  | .zero =>
    [⟨.octal, octalDigits, [.append]⟩,
      ⟨.hexMark, .of "xX", [.append]⟩,
      spoiling]
  | .octal => [⟨.octal, octalDigits, [.append]⟩, spoiling]
  | .hexMark => [⟨.hex, hexDigits, [.append]⟩, spoiling]
  | .hex => [⟨.hex, hexDigits, [.append]⟩, spoiling]
  | .decimal => [⟨.decimal, digits, [.append]⟩, spoiling]
  | .malformed => [⟨.malformed, identCont, [.append]⟩]
  | .stringBody =>
    [⟨.stringEnd, .of "\"", []⟩,
      ⟨.stringEscape, .of "\\", []⟩,
      ⟨.stringBody, .any, [.append]⟩]
  | .stringEscape =>
    [⟨.stringBody, .of "\"", [.appendLit '"']⟩,
      ⟨.stringBody, .any, [.appendLit '\\', .append]⟩]
  | .charOpen =>
    [⟨.charEscape, .of "\\", [.append]⟩,
      ⟨.charBody, .except "'\\", [.append]⟩]
  | .charEscape =>
    [⟨.charBody, .of "ntr0\\'\"", [.append]⟩,
      ⟨.charHexFirst, .of "xX", [.append]⟩]
  | .charHexFirst => [⟨.charHexSecond, hexDigits, [.append]⟩]
  | .charHexSecond =>
    [⟨.charBody, hexDigits, [.append]⟩,
      ⟨.charEnd, .of "'", []⟩]
  | .charBody => [⟨.charEnd, .of "'", []⟩]
  | .comment => [⟨.comment, .any, []⟩]
  | .label | .separator | .stringEnd | .charEnd => []

def machine (options : Options) : Machine State Kind where
  start := .start
  name := State.name
  accepting := State.accepting options
  edges := edges options

end MipsAsm.Token
