import MipsAsm.Proofs.Token.Spelling

/-! # What a scanner reads

A scanner walks from the start as far as edges go. By then it has read blanks and, behind them, the
spelling of the draft that it holds. If the state accepts, the draft gives a token that is a lexeme
of its kind; a comment gives none.
-/

namespace MipsAsm.Token

open Automaton Computability

variable {options : Options} {source line col : Nat} {state : State} {text : List Char} {d : Draft}

/-! ## Drafts -/

/-- The draft of a token that began at `col`, in a state in which one is drafted. -/
def Drafted (source line col : Nat) (state : State) (text : List Char) (d : Draft) : Prop :=
  d = ⟨source, line, state.kind?.map fun _ => col, state.kind?, text.reverse, d.marked⟩

theorem drafted_step (c : Char) {column : Nat} (hDrafted : Drafted source line col state text d)
    (hStart : state = .start → column = col ∧ text = []) :
    ∀ e ∈ edges options state, e.target ≠ .start → Drafted source line col e.target
      (text ++ added c e.actions) ((e.events c column).foldl Draft.react d) := by
  rw [hDrafted]
  cases state with
  | start =>
    -- beginning a token forgets the draft, so that the column read here is the token's
    obtain ⟨rfl, rfl⟩ := hStart rfl
    simp [edges, Drafted, commentEdges, opening, Edge.events, Action.event, Draft.react,
      Draft.fresh, added, State.kind?]
  | _ => simp [edges, Drafted, spoiling, Edge.events, Action.event, Draft.react, added, State.kind?]

theorem Drafted.build? (hDrafted : Drafted source line col state text d) :
    d.build? = state.kind?.map fun kind =>
      (⟨kind, String.ofList text, ⟨source, line, col⟩⟩ : Token) := by
  rw [hDrafted]
  cases hKind : state.kind? <;> simp [Draft.build?, Draft.pos?, Draft.text]

/-! ## Readings -/

/-- Blanks and the spelling of a draft, as they stand in front of a state. -/
inductive Reading (options : Options) (source line col : Nat) (state : State) :
    List Char → Draft → Prop where
  | intro (blanks spelling text : List Char) {d : Draft}
      (hBlank : ∀ c ∈ blanks, Text.isBlank c = true) (hText : text ∈ state.texts)
      (hFrames : state.Frames spelling text)
      (hDrafted : Drafted source line (col + blanks.length) state text d)
      (hComment : state = .comment → options.comments = true) :
      Reading options source line col state (blanks ++ spelling) d

theorem eq_of_target_start : ∀ e ∈ edges options state, e.target = .start →
    state = .start ∧ e = ⟨.start, .blank, []⟩ := by
  cases state <;> simp [edges, commentEdges, opening, spoiling]

theorem comments_of_target_comment : ∀ e ∈ edges options state, e.target = .comment →
    state = .comment ∨ options.comments = true := by
  cases state <;> simp [edges, commentEdges, opening, spoiling]

theorem Reading.step {read : List Char} {c : Char} {e : Edge State Kind}
    (hReading : Reading options source line col state read d)
    (hEdge : (machine options).edge? state c = some e) :
    Reading options source line col e.target (read ++ [c])
      ((e.events c (col + read.length)).foldl Draft.react d) := by
  have hOn : e.on.contains c = true := by simpa using List.find?_some hEdge
  have hMem : e ∈ edges options state := List.mem_of_find?_eq_some hEdge
  obtain ⟨blanks, spelling, text, hBlank, hText, hFrames, hDrafted, hComment⟩ := hReading
  -- only blanks lead back to the start, and they are in front of what is spelled
  by_cases hTarget : e.target = .start
  · obtain ⟨rfl, rfl⟩ := eq_of_target_start e hMem hTarget
    obtain ⟨rfl, rfl⟩ := hFrames
    have hBlanks : ∀ b ∈ blanks ++ [c], Text.isBlank b = true := by
      intro b hB
      rcases List.mem_append.mp hB with hOld | hNew
      · exact hBlank b hOld
      · exact List.mem_singleton.mp hNew ▸ hOn
    rw [List.append_nil, ← List.append_nil (blanks ++ [c])]
    exact ⟨blanks ++ [c], [], [], hBlanks, hText, ⟨rfl, rfl⟩, hDrafted, hComment⟩
  · have hStart : state = .start →
        col + (blanks ++ spelling).length = col + blanks.length ∧ text = [] := by
      rintro rfl
      obtain ⟨rfl, rfl⟩ := hFrames
      exact ⟨by simp, rfl⟩
    rw [List.append_assoc]
    refine ⟨blanks, spelling ++ [c], text ++ added c e.actions, hBlank,
      mem_texts_step hMem hTarget hText hOn, frames_step hEdge hTarget hFrames,
      drafted_step c hDrafted hStart e hMem hTarget, ?_⟩
    intro hNext
    rcases comments_of_target_comment e hMem hNext with hSame | hComments
    · exact hComment hSame
    · exact hComments

theorem reading_of_walk {read : List Char} (hWalk : (machine options).walk Draft.react .start col
    (.fresh source line) read = some (state, d)) :
    Reading options source line col state read d := by
  refine Machine.walk_induction (fun t cs result => Reading options source line col t cs result)
    ?_ ?_ read hWalk
  · exact ⟨[], [], [], by simp, Language.nil_mem_one, ⟨rfl, rfl⟩, rfl, by simp⟩
  · exact fun t cs result c e hReading hEdge => hReading.step hEdge

/-! ## Lexemes of accepting states -/

/-- The kind that a drafted one becomes once the text is known. -/
def settled (text : List Char) : Kind → Kind
  | .identifier => classify (String.ofList text)
  | kind => kind

theorem Drafted.accept (hDrafted : Drafted source line col state text d) :
    Scanner.accept d = match state.kind? with
      | none => .ok none
      | some kind =>
        if kind = .label ∧ text.head? = some '.' then
          .error ⟨⟨source, line, col⟩, .dottedLabel (String.ofList text)⟩
        else .ok (some ⟨settled text kind, String.ofList text, ⟨source, line, col⟩⟩) := by
  rw [Scanner.accept, hDrafted.build?]
  cases state.kind? with
  | none => rfl
  | some kind => cases kind <;> simp [settled]

theorem Drafted.eq_of_accept {t : Token} (hDrafted : Drafted source line col state text d)
    (hAccept : Scanner.accept d = .ok (some t)) :
    ∃ kind, state.kind? = some kind ∧ ¬(kind = .label ∧ text.head? = some '.') ∧
      t = ⟨settled text kind, String.ofList text, ⟨source, line, col⟩⟩ := by
  rw [hDrafted.accept] at hAccept
  cases hKind : state.kind? with
  | none => simp [hKind] at hAccept
  | some kind =>
    simp only [hKind] at hAccept
    split at hAccept
    · cases hAccept
    · rename_i hDot
      cases hAccept
      exact ⟨kind, rfl, hDot, rfl⟩

theorem Drafted.kind?_of_accept (hDrafted : Drafted source line col state text d)
    (hAccept : Scanner.accept d = .ok none) : state.kind? = none := by
  rw [hDrafted.accept] at hAccept
  split at hAccept
  · assumption
  · split at hAccept <;> cases hAccept

theorem Drafted.cause_of_accept {e : LexicalError} (hDrafted : Drafted source line col state text d)
    (hAccept : Scanner.accept d = .error e) : e.cause = .dottedLabel (String.ofList text) := by
  rw [hDrafted.accept] at hAccept
  split at hAccept
  · cases hAccept
  · split at hAccept
    · cases hAccept
      rfl
    · cases hAccept

theorem classify_cases (s : String) :
    classify s = .register ∨ classify s = .mnemonic ∨ classify s = .identifier := by
  rw [classify]
  split
  · exact Or.inl rfl
  · split <;> simp

theorem lexeme_word {operators : Bool} (hText : text ∈ word) :
    Lexeme operators (classify (String.ofList text)) text text := by
  rcases classify_cases (String.ofList text) with hKind | hKind | hKind <;>
    rw [hKind] <;> exact ⟨hText, hKind.symm, rfl⟩

theorem integer_eq : integer =
    State.zero.texts + State.octal.texts + State.hex.texts + State.decimal.texts := by
  simp only [integer, magnitude, State.texts, mul_add, mul_assoc]

theorem head?_of_mem_directive (hText : text ∈ directive * one (· == ':')) :
    text.head? = some '.' := by
  rw [directive, mul_assoc, mul_assoc] at hText
  obtain ⟨x, ⟨c, hDot, rfl⟩, y, _, rfl⟩ := Language.mem_mul.mp hText
  rw [← eq_of_beq hDot]
  rfl

theorem mem_label_of_head?_ne (hText : text ∈ State.label.texts)
    (hHead : text.head? ≠ some '.') : text ∈ word * one (· == ':') := by
  rw [State.texts, add_mul] at hText
  rcases hText with hWord | hDirective
  · exact hWord
  · exact absurd (head?_of_mem_directive hDirective) hHead

theorem lexeme_of_accepting {spelling : List Char} {kind : Kind}
    (hAccepting : state.accepting options = true) (hKind : state.kind? = some kind)
    (hText : text ∈ state.texts) (hFrames : state.Frames spelling text)
    (hDot : ¬(kind = .label ∧ text.head? = some '.')) :
    Lexeme options.operators (settled text kind) spelling text := by
  cases state with
  | start | comment => cases hKind
  | identifier =>
    cases hKind
    obtain rfl : spelling = text := hFrames
    exact lexeme_word hText
  | label =>
    cases hKind
    exact ⟨mem_label_of_head?_ne hText fun hHead => hDot ⟨rfl, hHead⟩, hFrames⟩
  | sign =>
    cases hKind
    exact ⟨hAccepting, hText, hFrames⟩
  | zero | octal | hex | decimal =>
    cases hKind
    have hInteger : text ∈ integer := by
      rw [integer_eq]
      simp only [Language.mem_add, hText, true_or, or_true]
    exact ⟨hInteger, hFrames⟩
  | stringEnd =>
    cases hKind
    exact hFrames
  | directive | separator | charEnd =>
    cases hKind
    exact ⟨hText, hFrames⟩
  | _ => cases hAccepting

theorem eq_comment_of_accepting (hAccepting : state.accepting options = true)
    (hKind : state.kind? = none) : state = .comment := by
  cases state <;> simp_all [State.accepting, State.kind?]

/-! ## Steps of a scanner -/

namespace Scanner

/-- How a scanner's line parts where its automaton stops. -/
structure Walks (s : Scanner) (read rest : List Char) (state : State) (d : Draft) : Prop where
  split : s.rest = read ++ rest
  walk : (machine s.options).walk Draft.react .start s.col (.fresh s.source s.line) read =
    some (state, d)
  stuck : (machine s.options).Stuck state rest

variable {s : Scanner} {read rest : List Char}

theorem exists_walks (s : Scanner) : ∃ read rest state d, s.Walks read rest state d := by
  obtain ⟨read, rest, state, d, hSplit, hWalk, hStuck⟩ :=
    (machine s.options).exists_walk_stuck Draft.react s.rest .start s.col (.fresh s.source s.line)
  exact ⟨read, rest, state, d, hSplit, hWalk, hStuck⟩

theorem Walks.run_eq (hWalks : s.Walks read rest state d) :
    s.run = ⟨state, s.col + read.length, rest, d⟩ := by
  rw [run, hWalks.split]
  exact Machine.runFrom_of_walk hWalks.stuck read hWalks.walk

theorem Walks.next_eq (hWalks : s.Walks read rest state d) :
    s.next = (s.conclude ⟨state, s.col + read.length, rest, d⟩,
      { s with col := s.col + read.length, rest := rest }) := by
  rw [next]
  split
  · rename_i hEmpty
    have hRest : s.rest = [] := List.isEmpty_iff.mp hEmpty
    obtain ⟨rfl, rfl⟩ := List.append_eq_nil_iff.mp (hWalks.split.symm.trans hRest)
    cases hWalks.walk
    change (Except.ok none, s) = (Except.ok none, { s with rest := [] })
    rw [← hRest]
  · rw [hWalks.run_eq]

theorem Walks.next_of_accepting (hWalks : s.Walks read rest state d)
    (hAccepting : state.accepting s.options = true) : s.next.1 = accept d := by
  rw [hWalks.next_eq]
  exact if_pos hAccepting

theorem Walks.next_of_rejecting (hWalks : s.Walks read rest state d)
    (hAccepting : state.accepting s.options = false) (hOpen : state = .start → rest ≠ []) :
    s.next.1 = .error (s.reject state (d.marked.getD (s.col + read.length))) := by
  rw [hWalks.next_eq]
  simp only [conclude, hAccepting, Bool.false_eq_true, if_false]
  rw [if_neg]
  simpa using hOpen

theorem Walks.next_of_end (hWalks : s.Walks read [] .start d) : s.next.1 = .ok none := by
  rw [hWalks.next_eq]
  rfl

/-- A scanner ends in a token or a comment, in blanks up to the end of the line, or in an error. -/
theorem Walks.next_cases (hWalks : s.Walks read rest state d) :
    state.accepting s.options = true ∧ s.next.1 = accept d ∨
      state = .start ∧ rest = [] ∧ s.next.1 = .ok none ∨
      state.accepting s.options = false ∧ (state = .start → rest ≠ []) ∧
        s.next.1 = .error (s.reject state (d.marked.getD (s.col + read.length))) := by
  cases hAccepting : state.accepting s.options with
  | true => exact Or.inl ⟨rfl, hWalks.next_of_accepting hAccepting⟩
  | false =>
    by_cases hEnd : state = .start ∧ rest = []
    · obtain ⟨rfl, rfl⟩ := hEnd
      exact Or.inr (Or.inl ⟨rfl, rfl, hWalks.next_of_end⟩)
    · have hOpen : state = .start → rest ≠ [] := fun hStart hNil => hEnd ⟨hStart, hNil⟩
      exact Or.inr (Or.inr ⟨rfl, hOpen, hWalks.next_of_rejecting hAccepting hOpen⟩)

theorem tokens_of_error {e : LexicalError} (hNext : s.next.1 = .error e) :
    s.tokens = .error e := by
  rw [tokens]
  split <;> simp_all

theorem tokens_of_none (hNext : s.next.1 = .ok none) : s.tokens = .ok [] := by
  rw [tokens]
  split <;> simp_all

theorem tokens_of_some {t : Token} (hNext : s.next.1 = .ok (some t)) :
    s.tokens = s.next.2.tokens.map (t :: ·) := by
  rw [tokens]
  split
  · simp_all
  · simp_all
  · rename_i token hToken
    obtain rfl : token = t := by simpa [hNext] using hToken.symm
    cases s.next.2.tokens <;> rfl

/-- A token is a lexeme behind blanks, and the scanner goes on behind it. -/
theorem exists_of_next_token {t : Token} (hToken : s.next.1 = .ok (some t)) :
    ∃ blanks spelling rest, s.rest = blanks ++ (spelling ++ rest) ∧
      (∀ c ∈ blanks, Text.isBlank c = true) ∧
      Lexeme s.options.operators t.kind spelling t.text.toList ∧
      t.pos = ⟨s.source, s.line, s.col + blanks.length⟩ ∧
      s.next.2 = ⟨s.options, s.source, s.line,
        s.col + blanks.length + spelling.length, rest⟩ := by
  obtain ⟨read, rest, state, d, hWalks⟩ := s.exists_walks
  have hSplit := hWalks.split
  rcases hWalks.next_cases with ⟨hAccepting, hNext⟩ | ⟨_, _, hNext⟩ | ⟨_, _, hNext⟩
  · rw [hNext] at hToken
    rw [hWalks.next_eq]
    obtain ⟨blanks, spelling, text, hBlank, hText, hFrames, hDrafted, _⟩ :=
      reading_of_walk hWalks.walk
    obtain ⟨kind, hKind, hDot, rfl⟩ := hDrafted.eq_of_accept hToken
    have hLexeme := lexeme_of_accepting hAccepting hKind hText hFrames hDot
    refine ⟨blanks, spelling, rest, ?_, hBlank, ?_, rfl, ?_⟩
    · rw [hSplit, List.append_assoc]
    · simpa using hLexeme
    · rw [List.length_append, Nat.add_assoc]
  · cases hNext.symm.trans hToken
  · cases hNext.symm.trans hToken

/-- When no token is left, the line goes on with blanks and perhaps a comment. -/
theorem exists_of_next_none (hNone : s.next.1 = .ok none) :
    ∃ blanks tail, s.rest = blanks ++ tail ∧ (∀ c ∈ blanks, Text.isBlank c = true) ∧
      (tail = [] ∨ s.options.comments = true ∧ tail.head? = some '#') := by
  obtain ⟨read, rest, state, d, hWalks⟩ := s.exists_walks
  have hSplit := hWalks.split
  obtain ⟨blanks, spelling, text, hBlank, hText, hFrames, hDrafted, hComment⟩ :=
    reading_of_walk hWalks.walk
  refine ⟨blanks, spelling ++ rest, by rw [hSplit, List.append_assoc], hBlank, ?_⟩
  rcases hWalks.next_cases with ⟨hAccepting, hNext⟩ | ⟨rfl, rfl, _⟩ | ⟨_, _, hNext⟩
  · have hKind := hDrafted.kind?_of_accept (hNext.symm.trans hNone)
    obtain rfl := eq_comment_of_accepting hAccepting hKind
    obtain ⟨hHead, _⟩ := hFrames
    exact Or.inr ⟨hComment rfl, by simp [hHead]⟩
  · obtain ⟨rfl, _⟩ := hFrames
    exact Or.inl rfl
  · cases hNext.symm.trans hNone

end Scanner

end MipsAsm.Token
