import Mathlib.Algebra.Group.Nat.Even
import MipsAsm.Proofs.Token.Acceptance

/-! # What string literals denote

No text has two bodies. It has one exactly if every run of backslashes in front of a quote or at the
end has even length: in a body, a backslash takes the character behind it along, so that an odd run
would take the quote. The literal is read in any place, and nothing behind its closing quote is.
-/

namespace MipsAsm.Token

open Automaton Computability

/-! ## Bodies of a text -/

theorem Unescapes.body_unique {body body' text : List Char} (hBody : Unescapes body text)
    (hOther : Unescapes body' text) : body = body' := by
  induction hBody generalizing body' with
  | nil =>
    cases hOther
    rfl
  | plain hQuote hBackslash _ ih =>
    cases hOther with
    | plain _ _ hRest => rw [ih hRest]
    | quote => contradiction
    | pair => contradiction
  | quote _ ih =>
    cases hOther with
    | plain hQuote => contradiction
    | quote hRest => rw [ih hRest]
  | pair _ _ ih =>
    cases hOther with
    | plain _ hBackslash => contradiction
    | pair _ hRest => rw [ih hRest]

theorem Unescapes.not_mem_body {body text : List Char} (hBody : Unescapes body text) {c : Char}
    (hBackslash : c ≠ '\\') (hText : c ∉ text) : c ∉ body := by
  induction hBody with
  | nil => exact hText
  | plain _ _ _ ih =>
    obtain ⟨hHead, hRest⟩ := not_or.mp (mt List.mem_cons.mpr hText)
    simp [hHead, ih hRest]
  | quote _ ih =>
    obtain ⟨hHead, hRest⟩ := not_or.mp (mt List.mem_cons.mpr hText)
    simp [hBackslash, hHead, ih hRest]
  | pair _ _ ih =>
    simp only [List.mem_cons, not_or] at hText
    simp [hBackslash, hText.2.1, ih hText.2.2]

/-- Every maximal run of backslashes in front of a quote or of the end has even length. -/
def Paired (text : List Char) : Prop :=
  ∀ front count back, text = front ++ (List.replicate count '\\' ++ back) →
    front.getLast? ≠ some '\\' → (∀ c ∈ back.head?, c = '"') → Even count

namespace Paired

variable {c : Char} {text : List Char}

theorem nil : Paired [] := by
  intro front count back hSplit _ _
  obtain ⟨_, hRun, _⟩ : front = [] ∧ count = 0 ∧ back = [] := by simpa using hSplit
  rw [hRun]
  exact Even.zero

theorem cons_iff (hBackslash : c ≠ '\\') : Paired (c :: text) ↔ Paired text := by
  constructor
  · rintro hPaired front count back rfl hFront hBack
    refine hPaired (c :: front) count back rfl ?_ hBack
    cases hLast : front.getLast? with
    | none => simpa [List.getLast?_cons, hLast] using hBackslash
    | some d => simpa [List.getLast?_cons, hLast] using hFront
  · intro hPaired front count back hSplit hFront hBack
    cases front with
    | nil =>
      cases count with
      | zero => exact Even.zero
      | succ count => exact absurd (List.cons.inj hSplit).1 hBackslash
    | cons d front =>
      refine hPaired front count back (List.cons.inj hSplit).2 ?_ hBack
      intro hLast
      exact hFront (by simp [List.getLast?_cons, hLast])

/-- A pair in front leaves the parity of every run as it is, even if it makes one longer. -/
theorem pair_iff (hQuote : c ≠ '"') : Paired ('\\' :: c :: text) ↔ Paired text := by
  constructor
  · rintro hPaired front count back rfl hFront hBack
    by_cases hLonger : c = '\\' ∧ front = []
    · obtain ⟨rfl, rfl⟩ := hLonger
      have hEven : Even (count + 2) := hPaired [] (count + 2) back rfl (by simp) hBack
      exact (Nat.even_add.mp hEven).mpr even_two
    · refine hPaired ('\\' :: c :: front) count back rfl ?_ hBack
      cases hLast : front.getLast? with
      | none =>
        have hNil : front = [] := List.getLast?_eq_none_iff.mp hLast
        simpa [List.getLast?_cons, hLast] using fun hSame => hLonger ⟨hSame, hNil⟩
      | some d => simpa [List.getLast?_cons, hLast] using hFront
  · intro hPaired front count back hSplit hFront hBack
    match front, count with
    | [], 0 => exact Even.zero
    | [], 1 =>
      obtain rfl : c :: text = back := (List.cons.inj hSplit).2
      exact absurd (hBack c rfl) hQuote
    | [], count + 2 =>
      have hRest : text = [] ++ (List.replicate count '\\' ++ back) :=
        (List.cons.inj (List.cons.inj hSplit).2).2
      exact Nat.even_add.mpr (iff_of_true (hPaired [] count back hRest (by simp) hBack) even_two)
    | [d], _ =>
      obtain rfl := (List.cons.inj hSplit).1
      exact absurd rfl hFront
    | d :: e :: front, count =>
      refine hPaired front count back (List.cons.inj (List.cons.inj hSplit).2).2 ?_ hBack
      intro hLast
      exact hFront (by simp [List.getLast?_cons, hLast])

theorem not_odd {back : List Char} (hBack : ∀ c ∈ back.head?, c = '"') : ¬Paired ('\\' :: back) := by
  intro hPaired
  exact Nat.not_even_one (hPaired [] 1 back rfl (by simp) hBack)

theorem exists_unescapes (hPaired : Paired text) : ∃ body, Unescapes body text := by
  induction hLength : text.length using Nat.strong_induction_on generalizing text with
  | _ length ih =>
    subst hLength
    cases text with
    | nil => exact ⟨[], .nil⟩
    | cons c text =>
      by_cases hBackslash : c = '\\'
      · subst hBackslash
        cases text with
        | nil => exact absurd hPaired (not_odd (by simp))
        | cons d text =>
          have hQuote : d ≠ '"' := by
            rintro rfl
            exact not_odd (by simp) hPaired
          obtain ⟨body, hBody⟩ :=
            ih text.length (by simp only [List.length_cons]; omega) ((pair_iff hQuote).mp hPaired) rfl
          exact ⟨_, .pair hQuote hBody⟩
      · obtain ⟨body, hBody⟩ :=
          ih text.length (Nat.lt_succ_self _) ((cons_iff hBackslash).mp hPaired) rfl
        by_cases hQuote : c = '"'
        · subst hQuote
          exact ⟨_, .quote hBody⟩
        · exact ⟨_, .plain hQuote hBackslash hBody⟩

end Paired

theorem Unescapes.paired {body text : List Char} (hBody : Unescapes body text) : Paired text := by
  induction hBody with
  | nil => exact Paired.nil
  | plain _ hBackslash _ ih => exact (Paired.cons_iff hBackslash).mpr ih
  | quote _ ih => exact (Paired.cons_iff (by decide)).mpr ih
  | pair hQuote _ ih => exact (Paired.pair_iff hQuote).mpr ih

/-! ## Literals in a line -/

theorem eq_of_behind_blanks {blanks blanks' xs ys : List Char} {c : Char}
    (hBlank : ∀ b ∈ blanks, Text.isBlank b = true) (hBlank' : ∀ b ∈ blanks', Text.isBlank b = true)
    (hBare : Text.isBlank c = false) (hSame : blanks ++ c :: xs = blanks' ++ c :: ys) : xs = ys := by
  have hNot : ¬Text.isBlank c = true := by simp [hBare]
  have hDropped := congrArg (List.dropWhile Text.isBlank) hSame
  rw [List.dropWhile_append_of_pos hBlank, List.dropWhile_append_of_pos hBlank',
    List.dropWhile_cons_of_neg hNot, List.dropWhile_cons_of_neg hNot] at hDropped
  exact (List.cons.inj hDropped).2

theorem leads_blanks_string {options : Options} : (machine options).Leads .start
    ((one Text.isBlank)∗ * (one (· == '"') * (stringBody * one (· == '"')))) .stringEnd :=
  Machine.Leads.mul (leads_loop rfl fun _ hBlank => hBlank) leads_string

namespace Scanner

variable {s : Scanner} {body rest : List Char} {text : String}

/-- The literal with this body comes next, perhaps behind blanks, and then `rest`. -/
def Faces (s : Scanner) (body rest : List Char) : Prop :=
  ∃ blanks, (∀ c ∈ blanks, Text.isBlank c = true) ∧
    s.rest = blanks ++ '"' :: (body ++ '"' :: rest)

/-- A call reads the literal with this body and no more, and gives a string of this text. -/
def ReadsString (s : Scanner) (body : List Char) (text : String) : Prop :=
  s.Faces body s.next.2.rest ∧ ∃ pos, s.next.1 = .ok (some ⟨.stringLiteral, text, pos⟩)

theorem ReadsString.unescapes (hReads : s.ReadsString body text) :
    Unescapes body text.toList := by
  obtain ⟨⟨blanks, hBlank, hLine⟩, pos, hNext⟩ := hReads
  obtain ⟨blanks', spelling, rest, hSplit, hBlank', ⟨body', hBody, rfl⟩, _, hState⟩ :=
    exists_of_next_token hNext
  rw [hState, hSplit, List.cons_append, List.append_assoc] at hLine
  have hSame := eq_of_behind_blanks hBlank' hBlank rfl hLine
  rwa [← List.append_cancel_right hSame]

/-- Every string is the text of a literal that stands there. -/
theorem exists_readsString {t : Token} (hNext : s.next.1 = .ok (some t))
    (hKind : t.kind = .stringLiteral) : ∃ body, s.ReadsString body t.text := by
  obtain ⟨blanks, spelling, rest, hSplit, hBlank, hLexeme, _, hState⟩ := exists_of_next_token hNext
  obtain ⟨kind, text, pos⟩ := t
  cases hKind
  obtain ⟨body, _, rfl⟩ := hLexeme
  refine ⟨body, ⟨blanks, hBlank, ?_⟩, pos, hNext⟩
  rw [hState, hSplit, List.cons_append, List.append_assoc]
  rfl

theorem Faces.readsString (hFaces : s.Faces body rest) (hBody : Unescapes body text.toList) :
    s.ReadsString body text := by
  obtain ⟨blanks, hBlank, hLine⟩ := hFaces
  obtain ⟨read, hRead⟩ : ∃ read, read = blanks ++ '"' :: (body ++ ['"']) := ⟨_, rfl⟩
  have hMem : read ∈ (one Text.isBlank)∗ * (one (· == '"') * (stringBody * one (· == '"'))) := by
    rw [hRead]
    exact Language.append_mem_mul (mem_kstar_one (List.all_eq_true.mpr hBlank))
      (Language.append_mem_mul (singleton_mem_one rfl) (snoc_mem_mul hBody.mem_stringBody rfl))
  obtain ⟨d, hWalk⟩ := Machine.exists_walk_of_after? (leads_blanks_string read hMem) Draft.react
    s.col (.fresh s.source s.line)
  have hWalks : s.Walks read rest .stringEnd d := by
    refine ⟨?_, hWalk, fun _ _ => rfl⟩
    simp [hLine, hRead]
  refine ⟨⟨blanks, hBlank, ?_⟩, ?_⟩
  · rw [hWalks.next_eq, hLine]
  · obtain ⟨blanks', spelling, text', hBlank', _, ⟨body', hBody', rfl⟩, hDrafted, _⟩ :=
      reading_of_walk hWalk
    have hSame := List.append_cancel_right (eq_of_behind_blanks hBlank' hBlank rfl hRead)
    rw [hSame] at hBody'
    refine ⟨⟨s.source, s.line, s.col + blanks'.length⟩, ?_⟩
    rw [hWalks.next_of_accepting rfl, hDrafted.accept, hBody'.unique hBody]
    simp [State.kind?, settled]

end Scanner

theorem Unescapes.exists_scanner {body : List Char} {text : String}
    (hBody : Unescapes body text.toList) : ∃ s : Scanner, s.ReadsString body text := by
  have hFaces : Scanner.Faces ⟨⟨false, false⟩, 0, 0, 0, '"' :: (body ++ ['"'])⟩ body [] :=
    ⟨[], by simp, rfl⟩
  exact ⟨_, hFaces.readsString hBody⟩

end MipsAsm.Token
