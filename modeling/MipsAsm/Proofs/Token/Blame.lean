import MipsAsm.Proofs.Text.Quoted
import MipsAsm.Proofs.Token.Acceptance

/-! # The blamed column

A line is dead from the first character behind which no continuation scans. Such a character has no
edge, or its edge leads to the trap of malformed numbers, which goes on reading but has marked the
column. Either way an error blames that column, and the characters in front of it can be completed.
-/

namespace MipsAsm.Token

open Automaton

variable {options : Options} {source line col : Nat} {state : State} {d : Draft}

/-! ## Completions -/

/-- Short of the trap, every state is a few characters away from one where a line may end. -/
theorem exists_completion (options : Options) (hTrap : state ≠ .malformed)
    (hLabel : state ≠ .label) : ∃ tail target,
      (machine options).after? state tail = some target ∧
        (target.accepting options = true ∨ target = .start) ∧ target ≠ .label ∧
        (state = .start → tail = []) := by
  cases state with
  | malformed => contradiction
  | label => contradiction
  | start => exact ⟨[], .start, rfl, .inr rfl, by simp, by simp⟩
  | dot => exact ⟨['a'], .directive, rfl, .inl rfl, by simp, by simp⟩
  | sign => exact ⟨['0'], .zero, rfl, .inl rfl, by simp, by simp⟩
  | hexMark => exact ⟨['0'], .hex, rfl, .inl rfl, by simp, by simp⟩
  | stringBody => exact ⟨['"'], .stringEnd, rfl, .inl rfl, by simp, by simp⟩
  | stringEscape => exact ⟨['a', '"'], .stringEnd, rfl, .inl rfl, by simp, by simp⟩
  | charOpen => exact ⟨['a', '\''], .charEnd, rfl, .inl rfl, by simp, by simp⟩
  | charEscape => exact ⟨['n', '\''], .charEnd, rfl, .inl rfl, by simp, by simp⟩
  | charHexFirst => exact ⟨['0', '\''], .charEnd, rfl, .inl rfl, by simp, by simp⟩
  | charHexSecond => exact ⟨['\''], .charEnd, rfl, .inl rfl, by simp, by simp⟩
  | charBody => exact ⟨['\''], .charEnd, rfl, .inl rfl, by simp, by simp⟩
  | identifier | directive | separator | zero | octal | hex | decimal | stringEnd | charEnd
  | comment => exact ⟨[], _, rfl, .inl rfl, by simp, by simp⟩

theorem Drafted.exists_accept {text : List Char} (hDrafted : Drafted source line col state text d)
    (hLabel : state ≠ .label) : ∃ result, Scanner.accept d = .ok result := by
  have hKind : state.kind? ≠ some .label := by
    cases state <;> simp_all [State.kind?]
  rw [hDrafted.accept]
  split
  · exact ⟨_, rfl⟩
  · rename_i kind hSome
    rw [if_neg (by rintro ⟨rfl, _⟩; exact hKind hSome)]
    exact ⟨_, rfl⟩

theorem exists_drafted_of_walk {read : List Char} (hWalk : (machine options).walk Draft.react .start
    col (.fresh source line) read = some (state, d)) :
    ∃ column text, Drafted source line column state text d := by
  obtain ⟨blanks, spelling, text, _, _, _, hDrafted, _⟩ := reading_of_walk hWalk
  exact ⟨_, text, hDrafted⟩

/-! ## The trap -/

theorem eq_malformed_of_after? {w : List Char} {target : State}
    (hAfter : (machine options).after? .malformed w = some target) : target = .malformed := by
  induction w with
  | nil =>
    cases hAfter
    rfl
  | cons c w ih =>
    obtain ⟨e, hEdge, hRest⟩ := Option.bind_eq_some_iff.mp hAfter
    obtain rfl := List.mem_singleton.mp (List.mem_of_find?_eq_some hEdge)
    exact ih hRest

/-- No continuation of a walk to the state scans once it reads the character. -/
def Dead (options : Options) (state : State) (c : Char) : Prop :=
  ((machine options).edge? state c = none ∧ state.accepting options = false) ∨
    ((machine options).edge? state c).map Edge.target = some .malformed

/-- The trap was entered where the draft is marked. -/
def Trapped (options : Options) (col : Nat) (read : List Char) (d : Draft) : Prop :=
  ∃ good c more state, read = good ++ c :: more ∧
    (machine options).after? .start good = some state ∧ state ≠ .malformed ∧ state ≠ .label ∧
    ((machine options).edge? state c).map Edge.target = some .malformed ∧
    d.marked = some (col + good.length)

theorem spoils_of_target_malformed : ∀ e ∈ edges options state, e.target = .malformed →
    state ≠ .malformed → state ≠ .label ∧ e = spoiling := by
  cases state <;> simp [edges, commentEdges, opening, spoiling]

theorem marked_eq_none (c : Char) (column : Nat) (hMarked : d.marked = none) :
    ∀ e ∈ edges options state, e.target ≠ .malformed →
      ((e.events c column).foldl Draft.react d).marked = none := by
  cases state <;>
    simp [edges, commentEdges, opening, spoiling, Edge.events, Action.event, Draft.react,
      Draft.fresh, hMarked]

theorem marked_of_walk {read : List Char} (hWalk : (machine options).walk Draft.react .start
    col (.fresh source line) read = some (state, d)) :
    (machine options).after? .start read = some state ∧
      (state ≠ .malformed ∧ d.marked = none ∨ state = .malformed ∧ Trapped options col read d) := by
  refine Machine.walk_induction (fun t cs result => (machine options).after? .start cs = some t ∧
    (t ≠ .malformed ∧ result.marked = none ∨ t = .malformed ∧ Trapped options col cs result))
    ?_ ?_ read hWalk
  · exact ⟨rfl, Or.inl ⟨by simp, rfl⟩⟩
  · rintro t cs result c e ⟨hAfter, hMarked⟩ hEdge
    have hMem : e ∈ edges options t := List.mem_of_find?_eq_some hEdge
    have hTarget : ((machine options).edge? t c).map Edge.target = some e.target := by rw [hEdge]; rfl
    refine ⟨?_, ?_⟩
    · rw [Machine.after?_append, hAfter, Option.bind_some, Machine.after?_singleton, hTarget]
    -- the trap is entered by this edge, or was before and keeps its mark
    rcases hMarked with ⟨hFree, hNone⟩ | ⟨rfl, good, c', more, t, rfl, hGood⟩
    · by_cases hTrap : e.target = .malformed
      · obtain ⟨hLabel, rfl⟩ := spoils_of_target_malformed e hMem hTrap hFree
        exact Or.inr ⟨rfl, cs, c, [], t, rfl, hAfter, hFree, hLabel, hTarget, rfl⟩
      · exact Or.inl ⟨hTrap, marked_eq_none c _ hNone e hMem hTrap⟩
    · obtain rfl := List.mem_singleton.mp hMem
      exact Or.inr ⟨rfl, good, c', more ++ [c], t, by simp, hGood⟩

namespace Scanner

variable {s : Scanner} {read rest : List Char}

theorem exists_tokens_of_next {result : Option Token} (hNext : s.next.1 = .ok result)
    (hRest : s.next.2.rest = []) : ∃ ts, s.tokens = .ok ts := by
  cases result with
  | none => exact ⟨[], tokens_of_none hNext⟩
  | some t =>
    rw [tokens_of_some hNext, tokens_of_rest_nil hRest]
    exact ⟨[t], rfl⟩

theorem exists_tokens_of_after? (hAfter : (machine s.options).after? .start s.rest = some state)
    (hEnd : state.accepting s.options = true ∨ state = .start) (hLabel : state ≠ .label) :
    ∃ ts, s.tokens = .ok ts := by
  obtain ⟨d, hWalk⟩ :=
    Machine.exists_walk_of_after? hAfter Draft.react s.col (.fresh s.source s.line)
  have hWalks : s.Walks s.rest [] state d :=
    ⟨(List.append_nil s.rest).symm, hWalk, Machine.stuck_nil _ _⟩
  have hRest := congrArg (fun p => p.2.rest) hWalks.next_eq
  rcases hEnd with hAccepting | rfl
  · obtain ⟨column, text, hDrafted⟩ := exists_drafted_of_walk hWalk
    obtain ⟨result, hAccept⟩ := hDrafted.exists_accept hLabel
    exact exists_tokens_of_next ((hWalks.next_of_accepting hAccepting).trans hAccept) hRest
  · exact exists_tokens_of_next hWalks.next_of_end hRest

/-! ## Dead ends -/

theorem exists_walks_of_after? {front more : List Char} (hSplit : s.rest = front ++ more)
    (hAfter : (machine s.options).after? .start front = some state) :
    ∃ read rest target d, s.Walks (front ++ read) rest target d ∧
      (machine s.options).after? state read = some target := by
  obtain ⟨middle, hFront⟩ :=
    Machine.exists_walk_of_after? hAfter Draft.react s.col (.fresh s.source s.line)
  obtain ⟨read, rest, target, d, rfl, hRead, hStuck⟩ :=
    (machine s.options).exists_walk_stuck Draft.react more state (s.col + front.length) middle
  refine ⟨read, rest, target, d, ⟨?_, ?_, hStuck⟩, Machine.after?_of_walk hRead⟩
  · rw [hSplit, List.append_assoc]
  · rw [Machine.walk_append, hFront]
    exact hRead

theorem exists_error_of_dead {good more : List Char} {c : Char}
    (hSplit : s.rest = good ++ c :: more)
    (hAfter : (machine s.options).after? .start good = some state)
    (hDead : Dead s.options state c) : ∃ e, s.tokens = .error e := by
  rcases hDead with ⟨hNone, hAccepting⟩ | hTrap
  · obtain ⟨d, hWalk⟩ :=
      Machine.exists_walk_of_after? hAfter Draft.react s.col (.fresh s.source s.line)
    have hWalks : s.Walks good (c :: more) state d := by
      refine ⟨hSplit, hWalk, ?_⟩
      simp [Machine.Stuck, hNone]
    exact ⟨_, tokens_of_error (hWalks.next_of_rejecting hAccepting (by simp))⟩
  · have hMalformed : (machine s.options).after? .start (good ++ [c]) = some .malformed := by
      rw [Machine.after?_append, hAfter, Option.bind_some, Machine.after?_singleton, hTrap]
    obtain ⟨read, rest, target, d, hWalks, hRead⟩ :=
      exists_walks_of_after? (by rw [hSplit, List.append_cons]) hMalformed
    obtain rfl := eq_malformed_of_after? hRead
    exact ⟨_, tokens_of_error (hWalks.next_of_rejecting rfl (by simp))⟩

/-! ## Errors -/

/-- The characters in front of the blamed column and those from it on. -/
structure Blames (s : Scanner) (good more : List Char) (e : LexicalError) : Prop where
  split : s.rest = good ++ more
  pos : e.pos = ⟨s.source, s.line, s.col + good.length⟩
  live : ∃ tail, (good = [] → tail = []) ∧ ∃ ts, { s with rest := good ++ tail }.tokens = .ok ts
  fatal : ∀ c ∈ more.head?, ∀ tail, ∃ e', { s with rest := good ++ c :: tail }.tokens = .error e'
  named : ∀ c ∈ more.head?, ∃ within, e.cause = .unexpectedChar c within
  ended : more = [] → ∃ done inner state, good = done ++ inner ∧
    (∃ ts, { s with rest := done }.tokens = .ok ts) ∧
    (machine s.options).after? .start inner = some state ∧ state ≠ .start ∧
    state.accepting s.options = false ∧ e.cause = .unexpectedEnd state.name

theorem getElem?_rest {good more : List Char} (hSplit : s.rest = good ++ more) :
    s.rest[s.col + good.length - s.col]? = more.head? := by
  rw [hSplit, Nat.add_sub_cancel_left, List.getElem?_append_right (Nat.le_refl _), Nat.sub_self,
    List.head?_eq_getElem?]

theorem exists_reject_char {good more : List Char} {c : Char} (state : State)
    (hSplit : s.rest = good ++ more) (hHead : more.head? = some c) :
    ∃ within, (s.reject state (s.col + good.length)).cause = .unexpectedChar c within := by
  simp only [reject, getElem?_rest hSplit, hHead]
  cases state <;> exact ⟨_, rfl⟩

theorem reject_end {good : List Char} (state : State) (hSplit : s.rest = good ++ []) :
    (s.reject state (s.col + good.length)).cause = .unexpectedEnd state.name := by
  simp only [reject, getElem?_rest hSplit, List.head?_nil]

theorem exists_rejected_of_next_error {e : LexicalError} (hNext : s.next.1 = .error e)
    (hCause : ∀ text, e.cause ≠ .dottedLabel text) (hWalks : s.Walks read rest state d) :
    state.accepting s.options = false ∧ (state = .start → rest ≠ []) ∧
      e = s.reject state (d.marked.getD (s.col + read.length)) := by
  rcases hWalks.next_cases with ⟨_, hAccept⟩ | ⟨_, _, hNone⟩ | ⟨hAccepting, hOpen, hReject⟩
  · obtain ⟨column, text, hDrafted⟩ := exists_drafted_of_walk hWalks.walk
    exact absurd (hDrafted.cause_of_accept (hAccept.symm.trans hNext)) (hCause _)
  · cases hNone.symm.trans hNext
  · cases hReject.symm.trans hNext
    exact ⟨hAccepting, hOpen, rfl⟩

/-- An error at the next token blames the first column that is dead after the scanner's own. -/
theorem blames_of_dead {e : LexicalError} {good more : List Char} (culprit : State)
    (hSplit : s.rest = good ++ more)
    (hAfter : (machine s.options).after? .start good = some state)
    (hTrap : state ≠ .malformed) (hLabel : state ≠ .label)
    (hDead : ∀ c ∈ more.head?, Dead s.options state c)
    (hEnded : more = [] → culprit = state ∧ state ≠ .start ∧ state.accepting s.options = false)
    (hError : e = s.reject culprit (s.col + good.length)) : s.Blames good more e := by
  subst hError
  refine ⟨hSplit, rfl, ?_, ?_, ?_, ?_⟩
  · obtain ⟨tail, target, hTail, hEnd, hTarget, hEmpty⟩ :=
      exists_completion s.options hTrap hLabel
    refine ⟨tail, ?_, ?_⟩
    · rintro rfl
      cases hAfter
      exact hEmpty rfl
    · refine exists_tokens_of_after? ?_ hEnd hTarget
      rw [Machine.after?_append, hAfter]
      exact hTail
  · intro c hHead tail
    exact exists_error_of_dead rfl hAfter (hDead c hHead)
  · intro c hHead
    exact exists_reject_char culprit hSplit hHead
  · rintro rfl
    obtain ⟨rfl, hOpen, hAccepting⟩ := hEnded rfl
    exact ⟨[], good, culprit, rfl, ⟨[], tokens_of_rest_nil rfl⟩, hAfter, hOpen, hAccepting,
      reject_end culprit hSplit⟩

theorem exists_blames_of_next {e : LexicalError} (hNext : s.next.1 = .error e)
    (hCause : ∀ text, e.cause ≠ .dottedLabel text) : ∃ good more, s.Blames good more e := by
  obtain ⟨read, rest, state, d, hWalks⟩ := s.exists_walks
  obtain ⟨hAccepting, hOpen, hError⟩ := exists_rejected_of_next_error hNext hCause hWalks
  obtain ⟨hAfter, ⟨hFree, hNone⟩ | ⟨rfl, good, c, more, state, rfl, hGood, hFree, hLabel, hEdge,
    hMarked⟩⟩ := marked_of_walk hWalks.walk
  · rw [hNone] at hError
    have hLabel : state ≠ .label := by
      rintro rfl
      cases hAccepting
    refine ⟨read, rest, blames_of_dead state hWalks.split hAfter hFree hLabel ?_ ?_ hError⟩
    · intro c hHead
      exact Or.inl ⟨hWalks.stuck c hHead, hAccepting⟩
    · intro hNil
      exact ⟨rfl, fun hStart => hOpen hStart hNil, hAccepting⟩
  · rw [hMarked] at hError
    have hSplit : s.rest = good ++ c :: (more ++ rest) := by
      rw [hWalks.split, List.append_assoc, List.cons_append]
    refine ⟨good, _, blames_of_dead .malformed hSplit hGood hFree hLabel ?_ ?_ hError⟩
    · intro c' hHead
      cases hHead
      exact Or.inr hEdge
    · intro hNil
      cases hNil

/-! ## Errors after tokens -/

/-- The first token stays while the character behind it does. -/
theorem tokens_of_stuck {t : Token} (hNext : s.next.1 = .ok (some t))
    (hWalks : s.Walks read rest state d) {rest' : List Char}
    (hStuck : (machine s.options).Stuck state rest') :
    { s with rest := read ++ rest' }.tokens =
      { s with col := s.col + read.length, rest := rest' }.tokens.map (t :: ·) := by
  have hWalks' : { s with rest := read ++ rest' }.Walks read rest' state d :=
    ⟨rfl, hWalks.walk, hStuck⟩
  rcases hWalks.next_cases with ⟨hAccepting, hAccept⟩ | ⟨_, _, hNone⟩ | ⟨_, _, hError⟩
  · rw [hAccept, ← hWalks'.next_of_accepting hAccepting] at hNext
    rw [tokens_of_some hNext, hWalks'.next_eq]
  · cases hNone.symm.trans hNext
  · cases hError.symm.trans hNext

theorem Blames.of_next {t : Token} {e : LexicalError} {good more : List Char}
    (hNext : s.next.1 = .ok (some t)) (hBlames : s.next.2.Blames good more e) :
    ∃ front, s.Blames (front ++ good) more e := by
  obtain ⟨read, rest, state, d, hWalks⟩ := s.exists_walks
  rw [hWalks.next_eq] at hBlames
  obtain ⟨hSplit, hPos, ⟨tail, hEmpty, ts, hTail⟩, hFatal, hNamed, hEnded⟩ := hBlames
  -- the first token ends where it did as long as the character behind it is the same or missing
  have hStuck := hWalks.stuck
  rw [show rest = good ++ more from hSplit] at hStuck
  refine ⟨read, ?_, ?_, ?_, ?_, hNamed, ?_⟩
  · rw [hWalks.split, List.append_assoc]
    exact congrArg (read ++ ·) hSplit
  · rw [hPos, List.length_append, Nat.add_assoc]
  · refine ⟨tail, fun hNil => hEmpty (List.append_eq_nil_iff.mp hNil).2, t :: ts, ?_⟩
    rw [List.append_assoc, tokens_of_stuck hNext hWalks (hStuck.of_append hEmpty), hTail]
    rfl
  · intro c hHead tail
    obtain ⟨e', hError⟩ := hFatal c hHead tail
    have hSame : (good ++ c :: tail).head? = (good ++ more).head? := by
      rw [List.head?_append, List.head?_append, hHead]
      rfl
    refine ⟨e', ?_⟩
    rw [List.append_assoc, tokens_of_stuck hNext hWalks (hStuck.of_head? hSame), hError]
    rfl
  · intro hNil
    obtain ⟨done, inner, target, rfl, ⟨ts, hDone⟩, hInner⟩ := hEnded hNil
    rw [List.append_assoc] at hStuck
    refine ⟨read ++ done, inner, target, (List.append_assoc _ _ _).symm, ⟨t :: ts, ?_⟩, hInner⟩
    have hFree : (machine s.options).Stuck state done := by
      simpa using hStuck.of_append fun _ => rfl
    rw [tokens_of_stuck hNext hWalks hFree, hDone]
    rfl

theorem exists_blames {e : LexicalError} (hTokens : s.tokens = .error e)
    (hCause : ∀ text, e.cause ≠ .dottedLabel text) : ∃ good more, s.Blames good more e := by
  fun_induction tokens s with
  | case1 s e' hNext =>
    cases hTokens
    exact exists_blames_of_next hNext hCause
  | case2 => cases hTokens
  | case3 s t hNext e' hRest ih =>
    cases hTokens
    obtain ⟨good, more, hBlames⟩ := ih hRest
    obtain ⟨front, hFront⟩ := hBlames.of_next hNext
    exact ⟨_, more, hFront⟩
  | case4 => cases hTokens

end Scanner

/-- What the column and the message of an error tell about the line. -/
structure Blamed (options : Options) (source line : Nat) (cs : List Char) (e : LexicalError) :
    Prop where
  pos : e.pos = ⟨source, line, e.pos.col⟩
  col_le : e.pos.col ≤ cs.length
  live : ∃ tail ts, scanLine options source line (cs.take e.pos.col ++ tail) = .ok ts
  fatal : e.pos.col < cs.length →
    ∀ tail ts, scanLine options source line (cs.take (e.pos.col + 1) ++ tail) ≠ .ok ts
  /-- The message quotes the character, and what it quotes is no other. -/
  named : ∀ c ∈ cs[e.pos.col]?, ∃ within shown, e.cause = .unexpectedChar c within ∧
    (∀ d, Text.Quotes d shown ↔ d = c) ∧
      e.cause.message =
        "unexpected character " ++ String.ofList shown ++ ((within.map (" in " ++ ·)).getD "")
  ended : e.pos.col = cs.length → ∃ start < cs.length, ∃ state,
    (∃ ts, scanLine options source line (cs.take start) = .ok ts) ∧
      (machine options).after? .start (cs.drop start) = some state ∧ state ≠ .start ∧
      state.accepting options = false ∧ e.cause = .unexpectedEnd state.name ∧
      e.cause.message = "unexpected end of line in " ++ state.name

theorem LexicalCause.message_unexpectedChar (c : Char) (within : Option String) :
    (unexpectedChar c within).message =
      "unexpected character " ++ Text.quoted c ++ ((within.map (" in " ++ ·)).getD "") := by
  cases within with
  | none => exact String.append_empty.symm
  | some name => exact String.append_assoc

theorem blamed_of_scan {cs : List Char} {e : LexicalError}
    (hScan : scanLine options source line cs = .error e)
    (hCause : ∀ text, e.cause ≠ .dottedLabel text) : Blamed options source line cs e := by
  obtain ⟨good, more, hBlames⟩ := Scanner.exists_blames hScan hCause
  have hSplit : cs = good ++ more := hBlames.split
  have hPos : e.pos = ⟨source, line, good.length⟩ := by
    simpa [Scanner.ofLine] using hBlames.pos
  have hCol : e.pos.col = good.length := by rw [hPos]
  subst hSplit
  refine ⟨by rw [hPos], by simp [hCol], ?_, ?_, ?_, ?_⟩
  · obtain ⟨tail, _, ts, hTail⟩ := hBlames.live
    refine ⟨tail, ts, ?_⟩
    rw [hCol, List.take_left]
    exact hTail
  · rw [hCol]
    intro hInside tail ts hOk
    cases more with
    | nil => simp at hInside
    | cons c more =>
      obtain ⟨e', hError⟩ := hBlames.fatal c rfl tail
      rw [List.append_cons, List.take_left' (by simp), List.append_assoc] at hOk
      cases hError.symm.trans hOk
  · intro c hChar
    rw [hCol, List.getElem?_append_right (Nat.le_refl _), Nat.sub_self,
      ← List.head?_eq_getElem?] at hChar
    obtain ⟨within, hWithin⟩ := hBlames.named c hChar
    refine ⟨within, (Text.quoted c).toList, hWithin, fun d => Text.quotes_iff, ?_⟩
    rw [hWithin, String.ofList_toList]
    exact LexicalCause.message_unexpectedChar c within
  · rw [hCol]
    intro hEnd
    obtain rfl : more = [] := by simpa using hEnd
    obtain ⟨done, inner, state, rfl, hDone, hInner, hOpen, hAccepting, hEnded⟩ := hBlames.ended rfl
    have hLength : 0 < inner.length := by
      apply List.length_pos_iff.mpr
      rintro rfl
      cases hInner
      exact hOpen rfl
    refine ⟨done.length, ?_, state, ?_, ?_, hOpen, hAccepting, hEnded, by rw [hEnded]; rfl⟩
    · simp only [List.length_append, List.length_nil]
      omega
    · rw [List.append_assoc, List.take_left]
      exact hDone
    · rw [List.append_assoc, List.drop_left, List.append_nil]
      exact hInner

/-- The trap reads up to the end of the word, but the blame is on its first character. A character
that has no shape is named by its code point. -/
theorem blamed_spoiled :
    (∃ e, scanLine ⟨false, false⟩ 0 0 "li $t0, 0x1G2".toList = .error e ∧ e.pos = ⟨0, 0, 11⟩ ∧
      e.cause.message = "unexpected character 'G' in malformed integer constant" ∧
      Blamed ⟨false, false⟩ 0 0 "li $t0, 0x1G2".toList e) ∧
    ∃ e, scanLine ⟨false, true⟩ 0 1 "nop \u200b#".toList = .error e ∧ e.pos = ⟨0, 1, 4⟩ ∧
      e.cause.message = "unexpected character '\\u\x7b200b\x7d'" ∧
      Blamed ⟨false, true⟩ 0 1 "nop \u200b#".toList e := by
  have hNumber : scanLine ⟨false, false⟩ 0 0 "li $t0, 0x1G2".toList =
      .error ⟨⟨0, 0, 11⟩, .unexpectedChar 'G' (some "malformed integer constant")⟩ := by
    decide +kernel
  have hShapeless : scanLine ⟨false, true⟩ 0 1 "nop \u200b#".toList =
      .error ⟨⟨0, 1, 4⟩, .unexpectedChar '\u200b' none⟩ := by
    decide +kernel
  exact ⟨⟨_, hNumber, rfl, by decide +kernel, blamed_of_scan hNumber (by simp)⟩,
    _, hShapeless, rfl, by decide +kernel, blamed_of_scan hShapeless (by simp)⟩

end MipsAsm.Token
