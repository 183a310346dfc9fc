import MipsAsm.Text.Numeral
import MipsAsm.Text.Shapeless

/-! # Quoted characters

A character inside a message stands between single quotes. The quote itself, the backslash and
four controls have short escapes; a character without a shape is written by its code point.
-/

namespace MipsAsm.Text

def escaped (c : Char) : String :=
  if c = '\x00' then "\\0"
  else if c = '\t' then "\\t"
  else if c = '\r' then "\\r"
  else if c = '\n' then "\\n"
  else if c = '\'' then "\\'"
  else if c = '\\' then "\\\\"
  else if isShapeless c then "\\u\x7b" ++ lowerHex c.toNat ++ "\x7d"
  else c.toString

def quoted (c : Char) : String :=
  "'" ++ escaped c ++ "'"

end MipsAsm.Text
