/-! # Positions

A place in the sources of one run: the index of the source in the order of addition, the line and
the column, all counted from 0.
-/

namespace MipsAsm

structure Position where
  source : Nat
  line : Nat
  col : Nat
  deriving DecidableEq, Repr

/-- Line and column as people count them. -/
def Position.text (p : Position) : String :=
  toString (p.line + 1) ++ ":" ++ toString (p.col + 1)

end MipsAsm
