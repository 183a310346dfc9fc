import Mathlib.Data.List.TakeWhile
import MipsAsm.Proofs.Outcome
import MipsAsm.Proofs.Token.Blame

/-! # Lines that go on

A line that scans keeps its tokens when text is added behind it, provided the added text begins
with a blank, a separator or a comment: no token but a comment goes on with such a character. The
tokens of the added text follow, unless the line ends in a comment.
-/

namespace MipsAsm.Token

open Automaton

variable {options : Options} {state : State} {c : Char}

/-! ## Delimiters -/

def isDelimiter (c : Char) : Bool :=
  Text.isBlank c || c == '#' || isSeparator c

/-- Every character that a token other than a literal goes on with lies in these ranges. -/
def Inner (c : Char) : Prop :=
  c.toNat = 36 ∨ c.toNat = 46 ∨ 48 ≤ c.toNat ∧ c.toNat ≤ 122

instance decidableInner (c : Char) : Decidable (Inner c) :=
  inferInstanceAs (Decidable (c.toNat = 36 ∨ c.toNat = 46 ∨ 48 ≤ c.toNat ∧ c.toNat ≤ 122))

theorem Inner.isDelimiter_eq_false (hInner : Inner c) : isDelimiter c = false := by
  have hBlank : Text.isBlank c = false := by
    rcases hInner with hDollar | hDot | ⟨hLow, hHigh⟩ <;>
      exact Text.isBlank_eq_false (by omega) (by omega)
  have hOther : ∀ d : Char, d.toNat < 48 → d.toNat ≠ 36 → d.toNat ≠ 46 → c ≠ d := by
    rintro d hLow hDollar hDot rfl
    rcases hInner with hSame | hSame | ⟨hFrom, _⟩
    · exact hDollar hSame
    · exact hDot hSame
    · omega
  simp [isDelimiter, isSeparator, hBlank, hOther '#' (by decide) (by decide) (by decide),
    hOther ',' (by decide) (by decide) (by decide), hOther '(' (by decide) (by decide) (by decide),
    hOther ')' (by decide) (by decide) (by decide)]

theorem inner_of_range {lo hi : Char} (hLow : 48 ≤ lo.toNat) (hHigh : hi.toNat ≤ 122)
    (hRange : lo ≤ c ∧ c ≤ hi) : Inner c := by
  have hFrom : lo.toNat ≤ c.toNat := hRange.1
  have hTo : c.toNat ≤ hi.toNat := hRange.2
  exact Or.inr (Or.inr ⟨by omega, by omega⟩)

theorem inner_of_isDigit (hClass : c.isDigit = true) : Inner c := by
  rw [← contains_digits, digits, contains_range, decide_eq_true_eq] at hClass
  exact inner_of_range (by decide) (by decide) hClass

theorem inner_of_isAlphanum (hClass : c.isAlphanum = true) : Inner c := by
  rw [Char.isAlphanum, Bool.or_eq_true, isAlpha_iff] at hClass
  rcases hClass with hAlpha | hDigit
  · exact Or.inr (Or.inr ⟨by omega, by omega⟩)
  · exact inner_of_isDigit hDigit

theorem inner_of_isWordChar (hClass : isWordChar c = true) : Inner c := by
  simp only [isWordChar, Bool.or_eq_true, beq_iff_eq] at hClass
  rcases hClass with ((hAlphanum | rfl) | rfl) | rfl
  · exact inner_of_isAlphanum hAlphanum
  · exact Or.inr (Or.inr ⟨by decide, by decide⟩)
  · exact Or.inl rfl
  · exact Or.inr (Or.inl rfl)

theorem inner_of_isHexDigit (hClass : isHexDigit c = true) : Inner c := by
  simp only [isHexDigit, Bool.or_eq_true, Bool.and_eq_true, decide_eq_true_eq] at hClass
  rcases hClass with (hDigit | hLower) | hUpper
  · exact inner_of_isDigit hDigit
  · exact inner_of_range (by decide) (by decide) hLower
  · exact inner_of_range (by decide) (by decide) hUpper

theorem inner_of_isOctalDigit (hClass : isOctalDigit c = true) : Inner c := by
  simp only [isOctalDigit, Bool.and_eq_true, decide_eq_true_eq] at hClass
  exact inner_of_range (by decide) (by decide) hClass

theorem inner_of_edge (hAccepting : state.accepting options = true) (hState : state ≠ .comment) :
    ∀ e ∈ edges options state, e.on.contains c = true → Inner c := by
  have hOne : ∀ {d : Char}, 48 ≤ d.toNat ∧ d.toNat ≤ 122 → c = d → Inner c := by
    rintro d hBounds rfl
    exact Or.inr (Or.inr hBounds)
  have hWord : identCont.contains c = true → Inner c := by
    rw [contains_identCont]
    exact inner_of_isWordChar
  have hDirective : isDirectiveChar c = true → Inner c := by
    intro hClass
    apply inner_of_isWordChar
    simp_all [isDirectiveChar, isWordChar]
  have hDigit : digits.contains c = true → Inner c := inner_of_isDigit
  have hLeading : '1' ≤ c ∧ c ≤ '9' → Inner c := inner_of_range (by decide) (by decide)
  have hMark : c = 'x' ∨ c = 'X' → Inner c :=
    fun hMark => hMark.elim (hOne (by decide)) (hOne (by decide))
  cases state with
  | comment => exact absurd rfl hState
  | identifier => simpa [edges] using ⟨inner_of_isWordChar, hOne (by decide)⟩
  | directive => simpa [edges] using ⟨hDirective, hOne (by decide)⟩
  | sign => simpa [edges] using ⟨hOne (by decide), fun hLow hHigh => hLeading ⟨hLow, hHigh⟩⟩
  | zero => simpa [edges] using ⟨inner_of_isOctalDigit, hMark, hWord⟩
  | octal => simpa [edges] using ⟨inner_of_isOctalDigit, hWord⟩
  | hex => simpa [edges] using ⟨inner_of_isHexDigit, hWord⟩
  | decimal => simpa [edges] using ⟨hDigit, hWord⟩
  | label | separator | stringEnd | charEnd => simp [edges]
  | _ => cases hAccepting

/-- No token goes on with a delimiter. -/
theorem stuck_of_delimiter {tail : List Char} (hAccepting : state.accepting options = true)
    (hState : state ≠ .comment) (hDelimiter : ∀ c ∈ tail.head?, isDelimiter c = true) :
    (machine options).Stuck state tail := by
  intro c hHead
  by_contra hEdge
  obtain ⟨e, hEdge⟩ := Option.ne_none_iff_exists'.mp hEdge
  have hOn : e.on.contains c = true := by simpa using List.find?_some hEdge
  have hInner := inner_of_edge hAccepting hState e (List.mem_of_find?_eq_some hEdge) hOn
  have hInside := hInner.isDelimiter_eq_false
  rw [hDelimiter c hHead] at hInside
  cases hInside

/-! ## Comments and blanks -/

theorem edge?_comment (c : Char) :
    (machine options).edge? .comment c = some ⟨.comment, .any, []⟩ := by
  simp [Machine.edge?, machine, edges]

theorem walk_comment (cs : List Char) :
    ∀ (col : Nat) (d : Draft),
      (machine options).walk Draft.react .comment col d cs = some (.comment, d) := by
  induction cs with
  | nil =>
    intro col d
    rfl
  | cons c cs ih =>
    intro col d
    rw [Machine.walk, edge?_comment]
    exact ih (col + 1) d

theorem eq_nil_of_stuck_comment {rest : List Char}
    (hStuck : (machine options).Stuck .comment rest) : rest = [] := by
  cases rest with
  | nil => rfl
  | cons c rest =>
    have hNone := hStuck c rfl
    rw [edge?_comment] at hNone
    cases hNone

theorem edge?_blank (hBlank : Text.isBlank c = true) :
    (machine options).edge? .start c = some ⟨.start, .blank, []⟩ := by
  have hOn : CharSet.blank.contains c = true := hBlank
  simp [Machine.edge?, machine, edges, hOn]

/-! ## Scanners -/

namespace Scanner

variable {s s' : Scanner} {ts us : List Token} {tail : List Char}

/-- The scanner of a line with text added behind it. -/
def extended (s : Scanner) (tail : List Char) : Scanner :=
  { s with rest := s.rest ++ tail }

/-- The scanner at the end of the line, with text added there. -/
def behind (s : Scanner) (tail : List Char) : Scanner :=
  { s with col := s.col + s.rest.length, rest := tail }

/-- The end of the line stays where it is while the line is read. -/
theorem behind_of_split {read rest : List Char} (hSplit : s.rest = read ++ rest)
    (tail : List Char) :
    behind { s with col := s.col + read.length, rest := rest } tail = s.behind tail := by
  rw [behind, behind, hSplit, List.length_append, Nat.add_assoc]

theorem tokens_congr (hNext : s.next = s'.next) : s.tokens = s'.tokens := by
  cases hFirst : s.next.1 with
  | error e => rw [tokens_of_error hFirst, tokens_of_error (hNext ▸ hFirst)]
  | ok t =>
    cases t with
    | none => rw [tokens_of_none hFirst, tokens_of_none (hNext ▸ hFirst)]
    | some t =>
      have hFirst' : s'.next.1 = .ok (some t) := hNext ▸ hFirst
      rw [tokens_of_some hFirst, tokens_of_some hFirst', hNext]

theorem exists_next_of_tokens (hTokens : s.tokens = .ok ts) : ∃ t, s.next.1 = .ok t := by
  cases hFirst : s.next.1 with
  | error e => cases (tokens_of_error hFirst).symm.trans hTokens
  | ok t => exact ⟨t, rfl⟩

/-- A scanner blames the same character if it stands one column further to the left. -/
theorem reject_cons {options : Options} {source line col : Nat} (b : Char) (cs : List Char)
    (state : State) {column : Nat} (hColumn : col + 1 ≤ column) :
    reject ⟨options, source, line, col, b :: cs⟩ state column =
      reject ⟨options, source, line, col + 1, cs⟩ state column := by
  have hIndex : column - col = column - (col + 1) + 1 := by omega
  simp only [reject, hIndex, List.getElem?_cons_succ]

/-- Where there is a mark, it is not in front of the scanner. -/
theorem Walks.le_marked {read rest : List Char} {d : Draft} (hWalks : s.Walks read rest state d) :
    s.col ≤ d.marked.getD (s.col + read.length) := by
  obtain ⟨_, ⟨_, hNone⟩ | ⟨_, good, _, _, _, _, _, _, _, _, hMarked⟩⟩ := marked_of_walk hWalks.walk
  · rw [hNone]
    exact Nat.le_add_right _ _
  · rw [hMarked]
    exact Nat.le_add_right _ _

theorem tokens_cons_blank {options : Options} {source line col : Nat} {b : Char}
    (hBlank : Text.isBlank b = true) (cs : List Char) :
    tokens ⟨options, source, line, col, b :: cs⟩ = tokens ⟨options, source, line, col + 1, cs⟩ := by
  obtain ⟨read, rest, state, d, hWalks⟩ := exists_walks ⟨options, source, line, col + 1, cs⟩
  have hBehind : Walks ⟨options, source, line, col, b :: cs⟩ (b :: read) rest state d := by
    refine ⟨congrArg (b :: ·) hWalks.split, ?_, hWalks.stuck⟩
    change (machine options).walk _ _ _ _ _ = _
    rw [Machine.walk, edge?_blank hBlank]
    exact hWalks.walk
  have hCol : col + (b :: read).length = col + 1 + read.length := by
    rw [List.length_cons]
    omega
  apply tokens_congr
  rw [hBehind.next_eq, hWalks.next_eq]
  dsimp only
  rw [hCol, conclude, conclude, reject_cons b cs state hWalks.le_marked]

theorem tokens_append_blanks {options : Options} {source line : Nat} {blanks : List Char}
    (hBlank : ∀ b ∈ blanks, Text.isBlank b = true) (cs : List Char) :
    ∀ {col : Nat}, tokens ⟨options, source, line, col, blanks ++ cs⟩ =
      tokens ⟨options, source, line, col + blanks.length, cs⟩ := by
  induction blanks with
  | nil =>
    intro col
    rfl
  | cons b blanks ih =>
    intro col
    rw [List.cons_append, tokens_cons_blank (hBlank b List.mem_cons_self),
      ih fun c hMem => hBlank c (List.mem_cons_of_mem b hMem), List.length_cons, Nat.add_assoc,
      Nat.add_comm 1]

/-- A walk that ends in front of more characters, or in front of a delimiter, ends there also when
text is added. -/
theorem Walks.extended {read rest : List Char} {d : Draft} (hWalks : s.Walks read rest state d)
    (hAccepting : state.accepting s.options = true) (hState : state ≠ .comment)
    (hDelimiter : ∀ c ∈ tail.head?, isDelimiter c = true) :
    (s.extended tail).Walks read (rest ++ tail) state d := by
  refine ⟨?_, hWalks.walk, ?_⟩
  · change s.rest ++ tail = _
    rw [hWalks.split, List.append_assoc]
  · cases rest with
    | nil => exact stuck_of_delimiter hAccepting hState hDelimiter
    | cons c rest => exact hWalks.stuck

/-- In a comment, everything that is added is part of it. -/
theorem Walks.extended_comment {read : List Char} {d : Draft} (hWalks : s.Walks read [] .comment d)
    (tail : List Char) : (s.extended tail).Walks (read ++ tail) [] .comment d := by
  refine ⟨?_, ?_, Machine.stuck_nil _ _⟩
  · change s.rest ++ tail = _
    rw [hWalks.split, List.append_nil, List.append_nil]
  · change (machine s.options).walk Draft.react .start s.col (.fresh s.source s.line) _ = _
    rw [Machine.walk_append, hWalks.walk]
    exact walk_comment tail _ d

/-- A comment begins no token. -/
theorem Walks.ne_comment {read rest : List Char} {d : Draft} {t : Token}
    (hWalks : s.Walks read rest state d) (hAccept : accept d = .ok (some t)) :
    state ≠ .comment := by
  rintro rfl
  obtain ⟨_, _, _, _, _, _, hDrafted, _⟩ := reading_of_walk hWalks.walk
  obtain ⟨kind, hKind, _⟩ := hDrafted.eq_of_accept hAccept
  cases hKind

/-- Text added behind a line that scans adds its tokens, unless a comment swallows it. -/
theorem tokens_extended (hTokens : s.tokens = .ok ts) (hTail : (s.behind tail).tokens = .ok us)
    (hDelimiter : ∀ c ∈ tail.head?, isDelimiter c = true) (hComment : '#' ∈ s.rest → us = []) :
    (s.extended tail).tokens = .ok (ts ++ us) := by
  induction hLength : s.rest.length using Nat.strong_induction_on generalizing s ts with
  | _ length ih =>
    subst hLength
    obtain ⟨read, rest, state, d, hWalks⟩ := s.exists_walks
    have hSplit := hWalks.split
    obtain ⟨blanks, spelling, text, hBlank, _, hFrames, hDrafted, _⟩ := reading_of_walk hWalks.walk
    rcases hWalks.next_cases with ⟨hAccepting, hNext⟩ | ⟨rfl, rfl, hNext⟩ | ⟨_, _, hNext⟩
    · obtain ⟨t, hFirst⟩ := exists_next_of_tokens hTokens
      have hAccept := hNext.symm.trans hFirst
      cases t with
      | none =>
        obtain rfl := eq_comment_of_accepting hAccepting (hDrafted.kind?_of_accept hAccept)
        obtain rfl := eq_nil_of_stuck_comment hWalks.stuck
        cases (tokens_of_none hFirst).symm.trans hTokens
        have hMark : '#' ∈ s.rest := by
          rw [hSplit]
          simp [List.mem_of_mem_head? hFrames.1]
        rw [hComment hMark]
        apply tokens_of_none
        rw [(hWalks.extended_comment tail).next_of_accepting hAccepting, hAccept]
      | some t =>
        have hState := hWalks.ne_comment hAccept
        have hExtended := hWalks.extended hAccepting hState hDelimiter
        rw [tokens_of_some hFirst] at hTokens
        obtain ⟨ts', hRest, rfl⟩ := Outcome.map_eq_ok.mp hTokens
        have hShorter := s.length_next_rest_lt t hFirst
        rw [hWalks.next_eq] at hRest hShorter
        have hEnd := behind_of_split hSplit tail
        have hLater := ih _ hShorter hRest (hEnd ▸ hTail)
          (fun hMem => hComment (hSplit ▸ List.mem_append_right _ hMem)) rfl
        rw [tokens_of_some ((hExtended.next_of_accepting hAccepting).trans hAccept),
          hExtended.next_eq]
        exact Outcome.map_eq_ok.mpr ⟨_, hLater, rfl⟩
    · -- nothing but blanks was left
      obtain ⟨rfl, _⟩ := hFrames
      cases (tokens_of_none hNext).symm.trans hTokens
      rw [extended, hSplit, List.append_nil, List.append_nil, tokens_append_blanks hBlank]
      rw [behind, hSplit, List.append_nil, List.append_nil] at hTail
      exact hTail
    · cases (tokens_of_error hNext).symm.trans hTokens

/-- A line can be cut behind any of its tokens and go on otherwise, from a delimiter on. -/
theorem tokens_resumed (before : List Token) {after : List Token} :
    ∀ {s : Scanner}, s.tokens = .ok (before ++ after) →
      ∃ read, read <+: s.rest ∧ ∀ tail us, (∀ c ∈ tail.head?, isDelimiter c = true) →
        tokens { s with col := s.col + read.length, rest := tail } = .ok us →
          tokens { s with rest := read ++ tail } = .ok (before ++ us) := by
  induction before with
  | nil =>
    intro s _
    exact ⟨[], List.nil_prefix, fun _ _ _ hTail => hTail⟩
  | cons t before ih =>
    intro s hTokens
    obtain ⟨read, rest, state, d, hWalks⟩ := s.exists_walks
    obtain ⟨first, hFirst⟩ := exists_next_of_tokens hTokens
    cases first with
    | none => cases (tokens_of_none hFirst).symm.trans hTokens
    | some u =>
      rw [tokens_of_some hFirst] at hTokens
      obtain ⟨ts, hRest, hList⟩ := Outcome.map_eq_ok.mp hTokens
      cases hList
      rcases hWalks.next_cases with ⟨hAccepting, hNext⟩ | ⟨_, _, hNext⟩ | ⟨_, _, hNext⟩
      · have hAccept := hNext.symm.trans hFirst
        have hState := hWalks.ne_comment hAccept
        rw [hWalks.next_eq] at hRest
        obtain ⟨more, hPrefix, hResumes⟩ := ih hRest
        refine ⟨read ++ more, ?_, ?_⟩
        · rw [hWalks.split]
          exact (List.prefix_append_right_inj read).mpr hPrefix
        · intro tail us hDelimiter hTail
          -- what follows the token begins as before, or with the delimiter
          have hStuck : (machine s.options).Stuck state (more ++ tail) := by
            cases more with
            | nil => exact stuck_of_delimiter hAccepting hState hDelimiter
            | cons c more =>
              obtain ⟨tail', rfl⟩ := hPrefix
              exact hWalks.stuck
          have hBehind :
              Walks { s with rest := read ++ more ++ tail } read (more ++ tail) state d :=
            ⟨List.append_assoc _ _ _, hWalks.walk, hStuck⟩
          rw [tokens_of_some ((hBehind.next_of_accepting hAccepting).trans hAccept),
            hBehind.next_eq]
          refine Outcome.map_eq_ok.mpr ⟨_, hResumes tail us hDelimiter ?_, rfl⟩
          rw [List.length_append, ← Nat.add_assoc] at hTail
          exact hTail
      · cases hNext.symm.trans hFirst
      · cases hNext.symm.trans hFirst

end Scanner

/-! ## Idle text -/

/-- Nothing but blanks, or blanks and a comment behind them. -/
def Idle (cs : List Char) : Prop :=
  ∀ c ∈ (cs.dropWhile Text.isBlank).head?, c = '#'

instance decidableIdle (cs : List Char) : Decidable (Idle cs) :=
  Option.decidableForallMem (cs.dropWhile Text.isBlank).head?

namespace Idle

variable {cs ds : List Char}

theorem of_blanks (hBlank : ∀ c ∈ cs, Text.isBlank c = true) : Idle cs := by
  rw [Idle, List.dropWhile_eq_nil_iff.mpr hBlank]
  simp

theorem blanks_append (hBlank : ∀ c ∈ cs, Text.isBlank c = true) (hIdle : Idle ds) :
    Idle (cs ++ ds) := by
  rw [Idle, List.dropWhile_append_of_pos hBlank]
  exact hIdle

theorem append_blanks (hIdle : Idle cs) (hBlank : ∀ c ∈ ds, Text.isBlank c = true) :
    Idle (cs ++ ds) := by
  rw [Idle, List.dropWhile_append]
  split
  · exact of_blanks hBlank
  · rename_i hSome
    intro c hHead
    rw [List.head?_append_of_ne_nil _ (by simpa using hSome)] at hHead
    exact hIdle c hHead

theorem of_append (hIdle : Idle (cs ++ ds)) : Idle cs := by
  intro c hHead
  apply hIdle
  rw [List.dropWhile_append]
  split
  · rename_i hEmpty
    rw [List.isEmpty_iff.mp hEmpty] at hHead
    cases hHead
  · rw [List.head?_append, hHead]
    rfl

theorem head_isDelimiter (hIdle : Idle cs) : ∀ c ∈ cs.head?, isDelimiter c = true := by
  intro c hHead
  cases cs with
  | nil => cases hHead
  | cons d cs =>
    cases hHead
    cases hBlank : Text.isBlank c with
    | true => simp [isDelimiter, hBlank]
    | false =>
      obtain rfl := hIdle c (by simp [hBlank])
      rfl

end Idle

variable {source line col : Nat} {cs tail : List Char} {ts : List Token}

theorem Scanner.tokens_comment (hComments : options.comments = true) :
    tokens ⟨options, source, line, col, '#' :: cs⟩ = .ok [] := by
  have hEdge : (machine options).edge? .start '#' = some ⟨.comment, .of "#", []⟩ := by
    obtain ⟨operators, comments⟩ := options
    cases hComments
    rfl
  have hWalks : Walks ⟨options, source, line, col, '#' :: cs⟩ ('#' :: cs) [] .comment
      (.fresh source line) := by
    refine ⟨(List.append_nil _).symm, ?_, Machine.stuck_nil _ _⟩
    change (machine options).walk Draft.react .start col (.fresh source line) _ = _
    rw [Machine.walk, hEdge]
    exact walk_comment cs _ _
  apply tokens_of_none
  rw [hWalks.next_of_accepting rfl]
  rfl

theorem Scanner.tokens_of_idle (hComments : options.comments = true) (hIdle : Idle cs) :
    tokens ⟨options, source, line, col, cs⟩ = .ok [] := by
  rw [← List.takeWhile_append_dropWhile (p := Text.isBlank) (l := cs),
    tokens_append_blanks fun c hMem => List.mem_takeWhile_imp hMem]
  cases hRest : cs.dropWhile Text.isBlank with
  | nil => exact tokens_of_none rfl
  | cons c rest =>
    obtain rfl := hIdle c (by rw [hRest]; rfl)
    exact tokens_comment hComments

/-- Idle text behind a line changes nothing. -/
theorem scanLine_append_idle (hComments : options.comments = true)
    (hScan : scanLine options source line cs = .ok ts) (hIdle : Idle tail) :
    scanLine options source line (cs ++ tail) = .ok ts := by
  have hTokens := Scanner.tokens_extended hScan (Scanner.tokens_of_idle hComments hIdle)
    hIdle.head_isDelimiter fun _ => rfl
  rw [List.append_nil] at hTokens
  exact hTokens

end MipsAsm.Token
