import Mathlib.Logic.Function.Iterate
import Mathlib.Order.Monotone.Basic
import MipsAsm.Proofs.Token.Continuation

/-! # Progress of a scanner

A scanner can be called again and again, also after an error. Whatever the calls give, it goes
forward and stays in its line. A token costs a character, since the start does not accept, and once
there is no token the scanner stands at the end of the line, since a comment reads all that is left.
So the tokens of a line are found in at most as many calls as it has characters, and one more.
-/

namespace MipsAsm.Token.Scanner

variable {s : Scanner} {cs : List Char}

/-- The scanner stands at a column of the line or at its end. -/
structure StandsIn (s : Scanner) (cs : List Char) : Prop where
  col_le : s.col ≤ cs.length
  rest_eq : s.rest = cs.drop s.col

/-- The scanner after so many calls, whatever they gave. -/
def after (s : Scanner) (n : Nat) : Scanner :=
  Nat.iterate (fun s => s.next.2) n s

theorem after_succ (s : Scanner) (n : Nat) : s.after (n + 1) = s.next.2.after n :=
  rfl

theorem after_succ_eq_next (s : Scanner) (n : Nat) : s.after (n + 1) = (s.after n).next.2 :=
  Function.iterate_succ_apply' _ n s

theorem after_add (s : Scanner) (m n : Nat) : s.after (m + n) = (s.after m).after n := by
  rw [Nat.add_comm]
  exact Function.iterate_add_apply _ n m s

/-! ## One call -/

theorem col_le_next (s : Scanner) : s.col ≤ s.next.2.col := by
  obtain ⟨read, _, hCol⟩ := s.next_split
  rw [hCol]
  exact Nat.le_add_right _ _

theorem StandsIn.next (hStands : s.StandsIn cs) : s.next.2.StandsIn cs := by
  obtain ⟨read, hRest, hCol⟩ := s.next_split
  have hDrop : cs.drop s.col = read ++ s.next.2.rest := hStands.rest_eq.symm.trans hRest
  have hLength := congrArg List.length hDrop
  rw [List.length_drop, List.length_append] at hLength
  have hInside := hStands.col_le
  constructor
  · omega
  · rw [hCol, ← List.drop_drop, hDrop, List.drop_left]

theorem col_lt_of_token {t : Token} (hToken : s.next.1 = .ok (some t)) : s.col < s.next.2.col := by
  obtain ⟨read, hRest, hCol⟩ := s.next_split
  have hShorter := s.length_next_rest_lt t hToken
  have hLength := congrArg List.length hRest
  rw [List.length_append] at hLength
  omega

/-- Without a token, nothing of the line is left: it ended in blanks or in a comment. -/
theorem rest_of_next_none (hNone : s.next.1 = .ok none) : s.next.2.rest = [] := by
  obtain ⟨read, rest, state, d, hWalks⟩ := s.exists_walks
  rw [hWalks.next_eq]
  rcases hWalks.next_cases with ⟨hAccepting, hNext⟩ | ⟨_, hEnd, _⟩ | ⟨_, _, hNext⟩
  · obtain ⟨_, _, _, _, _, _, hDrafted, _⟩ := reading_of_walk hWalks.walk
    have hKind := hDrafted.kind?_of_accept (hNext.symm.trans hNone)
    obtain rfl := eq_comment_of_accepting hAccepting hKind
    exact eq_nil_of_stuck_comment hWalks.stuck
  · exact hEnd
  · cases hNext.symm.trans hNone

theorem next_of_rest_nil (hRest : s.rest = []) : s.next = (.ok none, s) := by
  rw [next, hRest]
  rfl

/-! ## Many calls -/

theorem StandsIn.after (hStands : s.StandsIn cs) (n : Nat) : (s.after n).StandsIn cs := by
  induction n with
  | zero => exact hStands
  | succ n ih =>
    rw [after_succ_eq_next]
    exact ih.next

theorem col_after_mono (s : Scanner) : Monotone fun n => (s.after n).col := by
  apply monotone_nat_of_le_succ
  intro n
  rw [after_succ_eq_next]
  exact col_le_next _

theorem after_of_rest_nil (hRest : s.rest = []) (n : Nat) : s.after n = s := by
  apply Function.iterate_fixed
  rw [next_of_rest_nil hRest]

/-- Once a call finds no token, no later call finds one. -/
theorem next_after_none {m n : Nat} (hNone : (s.after m).next.1 = .ok none) (hLe : m ≤ n) :
    (s.after n).next.1 = .ok none := by
  obtain ⟨k, rfl⟩ := Nat.exists_eq_add_of_le hLe
  cases k with
  | zero => exact hNone
  | succ k =>
    have hRest := rest_of_next_none hNone
    rw [after_add, after_succ, after_of_rest_nil hRest, next_of_rest_nil hRest]

/-! ## All calls for a line -/

/-- The first calls give these tokens, one each. -/
def Yields (s : Scanner) (ts : List Token) : Prop :=
  ∀ i t, ts[i]? = some t → (s.after i).next.1 = .ok (some t)

theorem yields_nil (s : Scanner) : s.Yields [] := by
  intro i t hToken
  cases hToken

theorem Yields.cons {t : Token} {ts : List Token} (hToken : s.next.1 = .ok (some t))
    (hRest : s.next.2.Yields ts) : s.Yields (t :: ts) := by
  intro i u hGet
  cases i with
  | zero =>
    cases hGet
    exact hToken
  | succ i => exact hRest i u hGet

/-- The loop that collects tokens calls until there is none or an error, and gives back what it
found. -/
inductive Collects (s : Scanner) (ts : List Token) : Prop where
  | done (hEnd : (s.after ts.length).next.1 = .ok none) (hTokens : s.tokens = .ok ts)
  | failed (e : LexicalError) (hEnd : (s.after ts.length).next.1 = .error e)
      (hTokens : s.tokens = .error e)

theorem Collects.cons {t : Token} {ts : List Token} (hToken : s.next.1 = .ok (some t))
    (hRest : s.next.2.Collects ts) : s.Collects (t :: ts) := by
  cases hRest with
  | done hEnd hTokens =>
    refine .done hEnd ?_
    rw [tokens_of_some hToken, hTokens]
    rfl
  | failed e hEnd hTokens =>
    refine .failed e hEnd ?_
    rw [tokens_of_some hToken, hTokens]
    rfl

theorem exists_collects (s : Scanner) :
    ∃ ts, ts.length ≤ s.rest.length ∧ s.Yields ts ∧ s.Collects ts := by
  induction hLength : s.rest.length using Nat.strong_induction_on generalizing s with
  | _ length ih =>
    subst hLength
    cases hNext : s.next.1 with
    | error e =>
      exact ⟨[], Nat.zero_le _, s.yields_nil, .failed e hNext (tokens_of_error hNext)⟩
    | ok found =>
      cases found with
      | none => exact ⟨[], Nat.zero_le _, s.yields_nil, .done hNext (tokens_of_none hNext)⟩
      | some t =>
        have hShorter := s.length_next_rest_lt t hNext
        obtain ⟨ts, hCount, hYields, hCollects⟩ := ih _ hShorter s.next.2 rfl
        refine ⟨t :: ts, ?_, hYields.cons hNext, hCollects.cons hNext⟩
        rw [List.length_cons]
        omega

/-- What calls of a scanner do in its line, however many and whatever they give. -/
structure Progresses (s : Scanner) (cs : List Char) : Prop where
  inside : ∀ n, (s.after n).StandsIn cs
  forward : ∀ m n, m ≤ n → (s.after m).col ≤ (s.after n).col
  advances : ∀ n t, (s.after n).next.1 = .ok (some t) → (s.after n).col < (s.after (n + 1)).col
  ends : ∀ m n, (s.after m).next.1 = .ok none → m ≤ n → (s.after n).next.1 = .ok none
  collects : ∃ ts, ts.length ≤ cs.length - s.col ∧ s.Yields ts ∧ s.Collects ts

/-- **The scanner makes progress** from every column of a line, under all options. -/
theorem progresses_from_column (options : Options) (source line : Nat) {cs : List Char} {col : Nat}
    (hCol : col ≤ cs.length) : Progresses ⟨options, source, line, col, cs.drop col⟩ cs where
  inside := StandsIn.after ⟨hCol, rfl⟩
  forward m n hLe := col_after_mono _ hLe
  advances n t hToken := by
    rw [after_succ_eq_next]
    exact col_lt_of_token hToken
  ends m n hNone hLe := next_after_none hNone hLe
  collects := by
    obtain ⟨ts, hCount, hYields, hCollects⟩ :=
      exists_collects ⟨options, source, line, col, cs.drop col⟩
    rw [List.length_drop] at hCount
    exact ⟨ts, hCount, hYields, hCollects⟩

/-- A spoiled number is passed over with an error, and the calls behind it find a token and the
end. -/
theorem progresses_after_error : 2 ≤ "a 0z1 b # c".toList.length ∧
    Progresses ⟨⟨false, true⟩, 0, 4, 2, "a 0z1 b # c".toList.drop 2⟩ "a 0z1 b # c".toList ∧
    (after ⟨⟨false, true⟩, 0, 4, 2, "0z1 b # c".toList⟩ 0).next.1 =
      .error ⟨⟨0, 4, 3⟩, .unexpectedChar 'z' (some "malformed integer constant")⟩ ∧
    (after ⟨⟨false, true⟩, 0, 4, 2, "0z1 b # c".toList⟩ 1).next.1 =
      .ok (some ⟨.mnemonic, "b", ⟨0, 4, 6⟩⟩) ∧
    (after ⟨⟨false, true⟩, 0, 4, 2, "0z1 b # c".toList⟩ 2).next.1 = .ok none :=
  ⟨by decide, progresses_from_column ⟨false, true⟩ 0 4 (by decide), by decide +kernel,
    by decide +kernel, by decide +kernel⟩

end MipsAsm.Token.Scanner
