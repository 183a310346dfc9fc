import MipsAsm.Proofs.Token.Reading

/-! # Nothing of a line is lost

A line that scans is its tokens' spellings with blanks between them, up to a comment that nothing
follows. So every token has a span of columns from which its text can be read back, and every
column in front of the comment is in a span or blank.
-/

namespace MipsAsm.Token

open Automaton Computability

variable {options : Options} {source line col : Nat} {cs : List Char} {ts : List Token}

/-! ## Tilings -/

/-- The characters from `col` on, taken up by tokens, by blanks and by a comment. -/
inductive Tiles (options : Options) (source line : Nat) : Nat → List Char → List Token → Prop where
  | done {col : Nat} (blanks tail : List Char) (hBlank : ∀ c ∈ blanks, Text.isBlank c = true)
      (hTail : tail = [] ∨ options.comments = true ∧ tail.head? = some '#') :
      Tiles options source line col (blanks ++ tail) []
  | token {col : Nat} (blanks spelling rest : List Char) {t : Token} {ts : List Token}
      (hBlank : ∀ c ∈ blanks, Text.isBlank c = true)
      (hLexeme : Lexeme options.operators t.kind spelling t.text.toList)
      (hPos : t.pos = ⟨source, line, col + blanks.length⟩)
      (hRest : Tiles options source line (col + blanks.length + spelling.length) rest ts) :
      Tiles options source line col (blanks ++ (spelling ++ rest)) (t :: ts)

theorem Scanner.tiles_of_tokens {s : Scanner} (hTokens : s.tokens = .ok ts) :
    Tiles s.options s.source s.line s.col s.rest ts := by
  fun_induction tokens s generalizing ts with
  | case1 => cases hTokens
  | case2 s hNext =>
    cases hTokens
    obtain ⟨blanks, tail, hSplit, hBlank, hTail⟩ := exists_of_next_none hNext
    rw [hSplit]
    exact .done blanks tail hBlank hTail
  | case3 => cases hTokens
  | case4 s t hNext rest hRest ih =>
    cases hTokens
    have hTiles := ih hRest
    obtain ⟨blanks, spelling, tail, hSplit, hBlank, hLexeme, hPos, hState⟩ :=
      exists_of_next_token hNext
    rw [hState] at hTiles
    rw [hSplit]
    exact .token blanks spelling tail hBlank hLexeme hPos hTiles

/-! ## Spans -/

/-- Columns from `start` to just before `stop`. -/
structure Span where
  start : Nat
  stop : Nat
  deriving DecidableEq, Repr

/-- The token begins with its span and its text is what the span spells. -/
structure Spans (options : Options) (source line : Nat) (cs : List Char) (t : Token)
    (span : Span) : Prop where
  pos : t.pos = ⟨source, line, span.start⟩
  nonempty : span.start < span.stop
  lexeme : Lexeme options.operators t.kind (cs.extract span.start span.stop) t.text.toList

/-- The spans of tokens hold all that stands from `col` on, but for blanks and a comment. -/
structure Spanned (options : Options) (source line : Nat) (cs : List Char) (col : Nat)
    (ts : List Token) (spans : List Span) : Prop where
  each : List.Forall₂ (Spans options source line cs) ts spans
  ordered : spans.Pairwise fun a b => a.stop ≤ b.start
  covers : ∃ tail, col ≤ tail ∧ tail ≤ cs.length ∧
    (tail = cs.length ∨ options.comments = true ∧ cs[tail]? = some '#') ∧
      (∀ span ∈ spans, col ≤ span.start ∧ span.stop ≤ tail) ∧
      ∀ i, col ≤ i → i < tail →
        (∃ span ∈ spans, span.start ≤ i ∧ i < span.stop) ∨ ∃ c ∈ cs[i]?, Text.isBlank c = true

theorem extract_append (front spelling rest : List Char) :
    (front ++ (spelling ++ rest)).extract front.length (front.length + spelling.length) =
      spelling := by
  simp [List.extract_eq_take_drop]

theorem isBlank_getElem? {front blanks rest : List Char}
    (hBlank : ∀ c ∈ blanks, Text.isBlank c = true) {i : Nat} (hFrom : front.length ≤ i)
    (hTo : i < front.length + blanks.length) :
    ∃ c ∈ (front ++ (blanks ++ rest))[i]?, Text.isBlank c = true := by
  have hInside : i - front.length < blanks.length := by omega
  rw [List.getElem?_append_right hFrom, List.getElem?_append_left hInside]
  exact ⟨blanks[i - front.length], by simp, hBlank _ (List.getElem_mem _)⟩

theorem Tiles.exists_spanned (hTiles : Tiles options source line col cs ts) :
    ∀ front : List Char, front.length = col →
      ∃ spans, Spanned options source line (front ++ cs) col ts spans := by
  -- columns count from the start of the line, so that what was taken up before is kept in front
  induction hTiles with
  | done blanks tail hBlank hTail =>
    rintro front rfl
    refine ⟨[], .nil, .nil, front.length + blanks.length, Nat.le_add_right _ _, ?_, ?_, ?_, ?_⟩
    · simp only [List.length_append]
      omega
    · rcases hTail with rfl | ⟨hComments, hHead⟩
      · left
        simp
      · right
        refine ⟨hComments, ?_⟩
        rw [← List.append_assoc, List.getElem?_append_right (by simp)]
        simpa [List.head?_eq_getElem?] using hHead
    · intro span hMem
      cases hMem
    · intro i hFrom hTo
      exact Or.inr (isBlank_getElem? hBlank hFrom hTo)
  | @token _ blanks spelling rest t ts hBlank hLexeme hPos _ ih =>
    rintro front rfl
    have hLine : front ++ (blanks ++ (spelling ++ rest)) = front ++ blanks ++ spelling ++ rest := by
      simp only [List.append_assoc]
    have hLength : (front ++ blanks ++ spelling).length =
        front.length + blanks.length + spelling.length := by
      simp only [List.length_append]
    obtain ⟨spans, hEach, hOrdered, tail, hFrom, hTo, hTail, hBounds, hCovered⟩ := ih _ hLength
    obtain ⟨c, inner, hSpelling, _⟩ := hLexeme.exists_cons
    have hPositive : 0 < spelling.length := by simp [hSpelling]
    rw [← hLine] at hEach hTo hTail hCovered
    refine ⟨⟨front.length + blanks.length, front.length + blanks.length + spelling.length⟩ :: spans,
      .cons ⟨hPos, by simp only; omega, ?_⟩ hEach, List.pairwise_cons.mpr ⟨?_, hOrdered⟩,
      tail, by omega, hTo, hTail, ?_, ?_⟩
    · rw [← List.append_assoc, ← List.length_append, extract_append]
      exact hLexeme
    · intro span hMem
      exact (hBounds span hMem).1
    · intro span hMem
      rcases List.mem_cons.mp hMem with rfl | hLater
      · exact ⟨Nat.le_add_right _ _, hFrom⟩
      · have hSpan := hBounds span hLater
        exact ⟨by omega, hSpan.2⟩
    · intro i hLow hHigh
      by_cases hBlanks : i < front.length + blanks.length
      · exact Or.inr (isBlank_getElem? hBlank hLow hBlanks)
      by_cases hInside : i < front.length + blanks.length + spelling.length
      · exact Or.inl ⟨_, List.mem_cons_self, by simp only; omega, hInside⟩
      rcases hCovered i (by omega) hHigh with ⟨span, hMem, hIn⟩ | hBlank
      · exact Or.inl ⟨span, List.mem_cons_of_mem _ hMem, hIn⟩
      · exact Or.inr hBlank

theorem spanned_of_scan (hScan : scanLine options source line cs = .ok ts) :
    ∃ spans, Spanned options source line cs 0 ts spans :=
  (Scanner.tiles_of_tokens hScan).exists_spanned [] rfl

theorem spanned_escape : ∃ ts,
    scanLine ⟨false, true⟩ 0 2 "s: .ascii \"a\\\"\\n\" # \"".toList = .ok ts ∧ ts.length = 3 ∧
      ∃ spans, Spanned ⟨false, true⟩ 0 2 "s: .ascii \"a\\\"\\n\" # \"".toList 0 ts spans := by
  have hScan : scanLine ⟨false, true⟩ 0 2 "s: .ascii \"a\\\"\\n\" # \"".toList =
      .ok [⟨.label, "s:", ⟨0, 2, 0⟩⟩, ⟨.directive, ".ascii", ⟨0, 2, 3⟩⟩,
        ⟨.stringLiteral, "a\"\\n", ⟨0, 2, 10⟩⟩] := by
    decide +kernel
  exact ⟨_, hScan, rfl, spanned_of_scan hScan⟩

end MipsAsm.Token
