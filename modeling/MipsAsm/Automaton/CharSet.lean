import MipsAsm.Text.Blank

/-! # Sets of characters

Sets are built from listed characters, ranges, blanks, unions and complements. Joining to a union
appends to it and complementing a complement removes it, so that a set built step by step stays
flat.
-/

namespace MipsAsm.Automaton

inductive CharSet where
  | chars (cs : List Char)
  | range (lo hi : Char)
  | blank
  | union (sets : List CharSet)
  | compl (set : CharSet)
  deriving Inhabited

namespace CharSet

def of (s : String) : CharSet :=
  .chars s.toList

def any : CharSet :=
  .compl (.chars [])

def join : CharSet → CharSet → CharSet
  | .union sets, other => .union (sets ++ [other])
  | set, other => .union [set, other]

def complement : CharSet → CharSet
  | .compl set => set
  | set => .compl set

/-- Every character but the listed ones. -/
def except (s : String) : CharSet :=
  (of s).complement

mutual

def contains : CharSet → Char → Bool
  | .chars cs, c => cs.contains c
  | .range lo hi, c => decide (lo ≤ c) && decide (c ≤ hi)
  | .blank, c => Text.isBlank c
  | .union sets, c => anyContains sets c
  | .compl set, c => !contains set c

def anyContains : List CharSet → Char → Bool
  | [], _ => false
  | set :: sets, c => contains set c || anyContains sets c

end

theorem anyContains_eq_any (sets : List CharSet) (c : Char) :
    anyContains sets c = sets.any fun set => set.contains c := by
  induction sets with
  | nil => simp [anyContains]
  | cons set sets ih => simp [anyContains, ih]

@[simp] theorem contains_union (sets : List CharSet) (c : Char) :
    (union sets).contains c = sets.any fun set => set.contains c := by
  rw [contains, anyContains_eq_any]

@[simp] theorem contains_join (a b : CharSet) (c : Char) :
    (a.join b).contains c = (a.contains c || b.contains c) := by
  cases a <;> simp [join, contains, anyContains_eq_any]

@[simp] theorem contains_complement (set : CharSet) (c : Char) :
    set.complement.contains c = !set.contains c := by
  cases set <;> simp [complement, contains, anyContains_eq_any]

end CharSet

end MipsAsm.Automaton
