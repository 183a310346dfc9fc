/-! # Lines

A sequence of characters or bytes is cut after every newline; what follows the last newline is a
line only if it is not empty. A line remembers whether a newline ended it, because the text kept
for diagnostics drops a carriage return only in front of a newline, while scanning drops all of
them.
-/

namespace MipsAsm.Text

structure Line (α : Type) where
  content : List α
  terminated : Bool
  deriving DecidableEq, Repr

/-- Cuts at every newline, given in reverse what was already read of the current line. -/
def cutLines {α : Type} [BEq α] (newline : α) (current : List α) : List α → List (Line α)
  | [] => if current.isEmpty then [] else [⟨current.reverse, false⟩]
  | x :: xs =>
    if x == newline then ⟨current.reverse, true⟩ :: cutLines newline [] xs
    else cutLines newline (x :: current) xs

def lines (cs : List Char) : List (Line Char) :=
  cutLines '\n' [] cs

/-- The line as diagnostics and listings show it. -/
def Line.shown (line : Line Char) : List Char :=
  match line.terminated, line.content.getLast? with
  | true, some '\r' => line.content.dropLast
  | _, _ => line.content

def shownLines (s : String) : List String :=
  (lines s.toList).map fun line => String.ofList line.shown

end MipsAsm.Text
