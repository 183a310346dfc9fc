import MipsAsm.Error
import MipsAsm.Text.Paint

/-! # Diagnostics

An error as the terminal shows it: the message and, if it has a position in a known source, the
line with a caret below the column.
-/

namespace MipsAsm

def headline (tag : List Text.Attribute) (word message : String) : String :=
  Text.paint tag word ++ ": " ++ message ++ "\n"

def errorLine (message : String) : String :=
  headline [.red, .bold] "error" message

def warningLine (message : String) : String :=
  headline [.yellow, .bold] "warn" message

def noteLine (message : String) : String :=
  headline [.green, .bold] "note" message

namespace Error

def excerpt (pos : Position) (file : String) (lines : List String) : String :=
  let bar := "      " ++ Text.paint [.blue] "|"
  let place := file ++ ":" ++ toString (pos.line + 1) ++ ":" ++ toString (pos.col + 1)
  let number := Text.padLeft 4 ' ' (toString (pos.line + 1))
  "     " ++ Text.paint [.blue] "-->" ++ " " ++ Text.paint [.underline] place ++ "\n" ++
    bar ++ "\n" ++
    " " ++ Text.paint [.blue] (number ++ " |") ++ " " ++ (lines[pos.line]?.getD "") ++ "\n" ++
    bar ++ " " ++ Text.repeated pos.col ' ' ++ Text.paint [.red, .bold] "^" ++ "\n"

def diagnostic (e : Error) (sources : List (String × List String)) : String :=
  let detail := match e.pos? with
    | none => ""
    | some pos =>
      match sources[pos.source]? with
      | none => ""
      | some (file, lines) => excerpt pos file lines
  errorLine e.message ++ detail

end Error

end MipsAsm
