/-! # Terminal colours

A painted text stands between two escape sequences: one that sets an attribute and one that
returns to the default. Nested attributes are closed in the order in which they were opened.
-/

namespace MipsAsm.Text

inductive Attribute where
  | red
  | green
  | yellow
  | blue
  | cyan
  | bold
  | underline
  deriving DecidableEq, Repr

namespace Attribute

def code : Attribute → Nat
  | red => 31
  | green => 32
  | yellow => 33
  | blue => 34
  | cyan => 36
  | bold => 1
  | underline => 4

/-- The code that undoes the attribute: the default colour, weight or line. -/
def resetCode : Attribute → Nat
  | bold => 22
  | underline => 24
  | _ => 39

end Attribute

def escape (code : Nat) : String :=
  "\x1b[" ++ toString code ++ "m"

def paint (attributes : List Attribute) (s : String) : String :=
  String.join (attributes.map fun a => escape a.code) ++ s ++
    String.join (attributes.map fun a => escape a.resetCode)

end MipsAsm.Text
