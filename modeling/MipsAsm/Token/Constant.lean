import MipsAsm.Text.Numeral

/-! # Constants

The value of an integer constant and of the body of a character literal.
-/

namespace MipsAsm.Token

/-- Hexadecimal after `0x`, octal after a leading `0`, else decimal. -/
def magnitude? (cs : List Char) : Option Int :=
  match cs with
  | '0' :: 'x' :: digits => Text.signed? 16 digits
  | '0' :: 'X' :: digits => Text.signed? 16 digits
  | '0' :: d :: digits => Text.signed? 8 (d :: digits)
  | _ => Text.signed? 10 cs

/-- An integer constant with an optional sign. -/
def integer? (cs : List Char) : Option Int :=
  match cs with
  | '-' :: rest => (magnitude? rest).map (- ·)
  | '+' :: rest => magnitude? rest
  | _ => magnitude? cs

def integerValue? (s : String) : Option Int :=
  integer? s.toList

def escapeValue? (c : Char) : Option UInt8 :=
  match c with
  | 'n' => some 0x0A
  | 't' => some 0x09
  | 'r' => some 0x0D
  | '0' => some 0x00
  | '\\' => some 0x5C
  | '\'' => some 0x27
  | '"' => some 0x22
  | _ => none

/-- The byte that the body of a character literal stands for: an ASCII character, an escape, or a
hexadecimal number of one byte. -/
def character? (cs : List Char) : Option UInt8 :=
  match cs with
  | ['\\'] => none
  | '\\' :: 'x' :: digits => (Text.unsigned? 16 8 digits).map UInt8.ofNat
  | '\\' :: 'X' :: digits => (Text.unsigned? 16 8 digits).map UInt8.ofNat
  | ['\\', c] => escapeValue? c
  | [c] => if c.toNat < 0x80 then some (UInt8.ofNat c.toNat) else none
  | _ => none

def characterValue? (s : String) : Option UInt8 :=
  character? s.toList

end MipsAsm.Token
