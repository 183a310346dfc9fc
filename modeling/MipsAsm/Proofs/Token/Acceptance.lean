import MipsAsm.Proofs.Token.Span
import Mathlib.Tactic.IntervalCases

/-! # The token grammar

Every lexeme scans as one token, whatever the options about comments, and with comments off a line
that scans as one token is a lexeme among blanks. So the scanner accepts the grammar of lexemes and
nothing else.
-/

namespace MipsAsm.Token

open Automaton Computability

variable {options : Options} {source line : Nat} {cs : List Char}

/-! ## Ways through the automaton -/

theorem leads_first {state target : State} {on : CharSet} {actions : List (Action Kind)}
    {others : List (Edge State Kind)} {p : Char → Bool}
    (hEdges : edges options state = ⟨target, on, actions⟩ :: others)
    (hClass : ∀ c, p c = true → on.contains c = true) :
    (machine options).Leads state (one p) target := by
  apply Machine.Leads.edge
  intro c hMem
  simp [Machine.edge?, machine, hEdges, hClass c hMem]

theorem leads_loop {state : State} {on : CharSet} {actions : List (Action Kind)}
    {others : List (Edge State Kind)} {p : Char → Bool}
    (hEdges : edges options state = ⟨state, on, actions⟩ :: others)
    (hClass : ∀ c, p c = true → on.contains c = true) :
    (machine options).Leads state (one p)∗ state :=
  (leads_first hEdges hClass).kstar

theorem leads_char {state target : State} (c : Char)
    (hEdge : ((machine options).edge? state c).map Edge.target = some target) :
    (machine options).Leads state (one (· == c)) target := by
  apply Machine.Leads.edge
  intro d hSame
  rw [eq_of_beq hSame]
  exact hEdge

theorem leads_of_cases {state target : State} {p : Char → Bool} (chars : List Char)
    (hClass : ∀ c, p c = true → c ∈ chars)
    (hEdges : ∀ c ∈ chars, ((machine options).edge? state c).map Edge.target = some target) :
    (machine options).Leads state (one p) target :=
  Machine.Leads.edge fun c hMem => hEdges c (hClass c hMem)

theorem mem_of_isLeadingDigit {c : Char} (hClass : isLeadingDigit c = true) :
    c ∈ ['1', '2', '3', '4', '5', '6', '7', '8', '9'] := by
  simp only [isLeadingDigit, Bool.and_eq_true, decide_eq_true_eq] at hClass
  have hFrom : 49 ≤ c.toNat := hClass.1
  have hTo : c.toNat ≤ 57 := hClass.2
  rw [← Char.ofNat_toNat c]
  generalize c.toNat = n at hFrom hTo
  interval_cases n <;> decide

theorem leads_leadingDigit {state : State}
    (hEdges : ∀ c ∈ ['1', '2', '3', '4', '5', '6', '7', '8', '9'],
      ((machine options).edge? state c).map Edge.target = some .decimal) :
    (machine options).Leads state (one isLeadingDigit) .decimal :=
  leads_of_cases _ (fun _ => mem_of_isLeadingDigit) hEdges

theorem leads_word : (machine options).Leads .start word .identifier := by
  have hFirst : (machine options).Leads .start (one isWordStart) .identifier := by
    apply Machine.Leads.edge
    intro c hClass
    have hBlank : CharSet.blank.contains c = false := isBlank_of_isWordStart hClass
    simp [Machine.edge?, machine, edges, opening, hBlank, hClass]
  exact hFirst.mul (leads_loop rfl fun c hClass => by simpa using hClass)

theorem leads_directive : (machine options).Leads .start directive .directive := by
  have hDot : (machine options).Leads .start (one (· == '.')) .dot := leads_char '.' rfl
  have hFirst : (machine options).Leads .dot (one isDirectiveStart) .directive :=
    leads_first rfl fun c hClass => by simpa using hClass
  exact (hDot.mul hFirst).mul (leads_loop rfl fun c hClass => by simpa using hClass)

theorem leads_label : (machine options).Leads .start (word * one (· == ':')) .label :=
  leads_word.mul (leads_char ':' rfl)

theorem leads_separator : (machine options).Leads .start (one isSeparator) .separator := by
  apply leads_of_cases [',', '(', ')']
  · intro c hClass
    simpa [isSeparator, or_assoc] using hClass
  · simp only [List.forall_mem_cons]
    exact ⟨rfl, rfl, rfl, by simp⟩

theorem leads_sign : (machine options).Leads .start (one isSign) .sign := by
  apply leads_of_cases ['+', '-']
  · intro c hClass
    simpa [isSign] using hClass
  · simp only [List.forall_mem_cons]
    exact ⟨rfl, rfl, by simp⟩

/-- With a sign or without one, the same states follow. -/
theorem leads_optional_sign {A : Language Char} {target : State}
    (hPlain : (machine options).Leads .start A target)
    (hSigned : (machine options).Leads .sign A target) :
    (machine options).Leads .start ((1 + one isSign) * A) target := by
  rw [add_mul, one_mul]
  exact hPlain.add (leads_sign.mul hSigned)

theorem leads_zero : (machine options).Leads .start State.zero.texts .zero :=
  leads_optional_sign (leads_char '0' rfl) (leads_char '0' rfl)

theorem leads_octal : (machine options).Leads .start State.octal.texts .octal := by
  have hDigit : (machine options).Leads .zero (one isOctalDigit) .octal :=
    leads_first rfl fun c hClass => hClass
  exact (leads_zero.mul hDigit).mul (leads_loop rfl fun c hClass => hClass)

theorem leads_hexMark {state target : State}
    (hLower : ((machine options).edge? state 'x').map Edge.target = some target)
    (hUpper : ((machine options).edge? state 'X').map Edge.target = some target) :
    (machine options).Leads state (one isHexMark) target := by
  apply leads_of_cases ['x', 'X']
  · intro c hClass
    simpa [isHexMark] using hClass
  · simp only [List.forall_mem_cons]
    exact ⟨hLower, hUpper, by simp⟩

theorem leads_hex : (machine options).Leads .start State.hex.texts .hex := by
  have hMark : (machine options).Leads .zero (one isHexMark) .hexMark := leads_hexMark rfl rfl
  have hDigit : (machine options).Leads .hexMark (one isHexDigit) .hex :=
    leads_first rfl fun c hClass => by simpa using hClass
  exact ((leads_zero.mul hMark).mul hDigit).mul
    (leads_loop rfl fun c hClass => by simpa using hClass)

theorem leads_decimal : (machine options).Leads .start State.decimal.texts .decimal := by
  have hDigits : ∀ state ∈ [State.start, .sign],
      (machine options).Leads state (one isLeadingDigit) .decimal := by
    intro state hState
    apply leads_leadingDigit
    simp only [List.mem_cons, List.not_mem_nil, or_false] at hState
    simp only [List.forall_mem_cons]
    rcases hState with rfl | rfl <;> exact ⟨rfl, rfl, rfl, rfl, rfl, rfl, rfl, rfl, rfl, by simp⟩
  refine Machine.Leads.mul (leads_optional_sign (hDigits _ ?_) (hDigits _ ?_))
    (leads_loop rfl fun c hClass => hClass)
  · simp
  · simp

theorem leads_character : (machine options).Leads .start
    (one (· == '\'') * (characterBody * one (· == '\''))) .charEnd := by
  have hClose : (machine options).Leads .charBody (one (· == '\'')) .charEnd :=
    leads_char '\'' rfl
  have hPlain : (machine options).Leads .charOpen (one fun c => c != '\'' && c != '\\')
      .charBody := by
    apply Machine.Leads.edge
    intro c hClass
    simp only [Bool.and_eq_true, bne_iff_ne] at hClass
    simp [Machine.edge?, machine, edges, hClass]
  have hBackslash : (machine options).Leads .charOpen (one (· == '\\')) .charEscape :=
    leads_char '\\' rfl
  have hEscape : (machine options).Leads .charEscape (one isEscapable) .charBody :=
    leads_first rfl fun c hClass => by simpa [isEscapable, or_assoc] using hClass
  have hMark : (machine options).Leads .charEscape (one isHexMark) .charHexFirst :=
    leads_hexMark rfl rfl
  have hFirst : (machine options).Leads .charHexFirst (one isHexDigit) .charHexSecond :=
    leads_first rfl fun c hClass => by simpa using hClass
  have hSecond : (machine options).Leads .charHexSecond (one isHexDigit) .charBody :=
    leads_first rfl fun c hClass => by simpa using hClass
  refine Machine.Leads.mul (leads_char '\'' rfl : (machine options).Leads _ _ .charOpen) ?_
  rw [characterBody, add_mul, add_mul]
  refine ((hPlain.mul hClose).add ((hBackslash.mul hEscape).mul hClose)).add ?_
  -- after one digit the literal may end or take another
  rw [mul_assoc, add_mul, one_mul]
  exact ((hBackslash.mul hMark).mul hFirst).mul
    (Machine.Leads.add (leads_char '\'' rfl) (hSecond.mul hClose))

theorem leads_string : (machine options).Leads .start
    (one (· == '"') * (stringBody * one (· == '"'))) .stringEnd := by
  have hPlain : (machine options).Leads .stringBody (one fun c => c != '"' && c != '\\')
      .stringBody := by
    apply Machine.Leads.edge
    intro c hClass
    simp only [Bool.and_eq_true, bne_iff_ne] at hClass
    simp [Machine.edge?, machine, edges, List.find?_cons, hClass]
  have hBackslash : (machine options).Leads .stringBody (one (· == '\\')) .stringEscape :=
    leads_char '\\' rfl
  have hAny : (machine options).Leads .stringEscape (one fun _ => true) .stringBody := by
    apply Machine.Leads.edge
    intro c _
    by_cases hQuote : c = '"' <;> simp [Machine.edge?, machine, edges, List.find?_cons, hQuote]
  refine Machine.Leads.mul (leads_char '"' rfl : (machine options).Leads _ _ .stringBody) ?_
  exact (hPlain.add (hBackslash.mul hAny)).kstar.mul (leads_char '"' rfl)

/-! ## Lexemes scan -/

theorem Scanner.tokens_of_rest_nil {s : Scanner} (hRest : s.rest = []) : s.tokens = .ok [] := by
  apply tokens_of_none
  rw [next, hRest]
  rfl

theorem scanLine_of_after? (source line : Nat) {state : State} {kind : Kind}
    (hAfter : (machine options).after? .start cs = some state)
    (hAccepting : state.accepting options = true) (hKind : state.kind? = some kind)
    (hFirst : ∃ c r, cs = c :: r ∧ Text.isBlank c = false)
    (hDot : ∀ text, state.Frames cs text → ¬(kind = .label ∧ text.head? = some '.')) :
    ∃ text, state.Frames cs text ∧ scanLine options source line cs =
      .ok [⟨settled text kind, String.ofList text, ⟨source, line, 0⟩⟩] := by
  obtain ⟨d, hWalk⟩ := Machine.exists_walk_of_after? hAfter Draft.react 0 (.fresh source line)
  have hWalks : (Scanner.ofLine options source line cs).Walks cs [] state d :=
    ⟨(List.append_nil cs).symm, hWalk, Machine.stuck_nil _ _⟩
  obtain ⟨blanks, spelling, text, hBlank, _, hFrames, hDrafted, _⟩ := reading_of_walk hWalk
  cases blanks with
  | cons b bs =>
    obtain ⟨c, r, hSplit, hBare⟩ := hFirst
    cases hSplit
    rw [hBlank b List.mem_cons_self] at hBare
    cases hBare
  | nil =>
    have hAccept := hDrafted.accept
    simp only [hKind, if_neg (hDot text hFrames)] at hAccept
    have hRest := congrArg (fun p => p.2.rest) hWalks.next_eq
    refine ⟨text, hFrames, ?_⟩
    rw [scanLine, Scanner.tokens_of_some ((hWalks.next_of_accepting hAccepting).trans hAccept),
      Scanner.tokens_of_rest_nil hRest]
    rfl

/-- In a state whose text is all that was read, the line is the token. -/
theorem scanLine_of_direct {state : State} {kind : Kind}
    (hAfter : (machine options).after? .start cs = some state)
    (hAccepting : state.accepting options = true) (hKind : state.kind? = some kind)
    (hFirst : ∃ c r, cs = c :: r ∧ Text.isBlank c = false)
    (hDirect : state.direct = true) (hLead : state.lead = [])
    (hDot : ¬(kind = .label ∧ cs.head? = some '.')) :
    scanLine options source line cs =
      .ok [⟨settled cs kind, String.ofList cs, ⟨source, line, 0⟩⟩] := by
  have hSame : ∀ text, state.Frames cs text → cs = text := by
    intro text hFrames
    rw [State.frames_of_direct hDirect, hLead] at hFrames
    exact hFrames
  obtain ⟨text, hFrames, hScan⟩ := scanLine_of_after? source line hAfter
    hAccepting hKind hFirst fun text hFrames => hSame text hFrames ▸ hDot
  rw [hScan, hSame text hFrames]

theorem head?_of_mem_label (hText : cs ∈ word * one (· == ':')) : cs.head? ≠ some '.' := by
  rw [word, mul_assoc] at hText
  obtain ⟨x, ⟨c, hStart, rfl⟩, y, _, rfl⟩ := Language.mem_mul.mp hText
  intro hHead
  cases hHead
  cases hStart

theorem scanLine_of_lexeme {kind : Kind} {text : List Char}
    (hLexeme : Lexeme options.operators kind cs text) :
    scanLine options source line cs = .ok [⟨kind, String.ofList text, ⟨source, line, 0⟩⟩] := by
  have hFirst := hLexeme.exists_cons
  cases kind with
  | identifier | register | mnemonic =>
    obtain ⟨hText, hKind, rfl⟩ := hLexeme
    rw [hKind]
    exact scanLine_of_direct (leads_word _ hText) rfl rfl hFirst rfl rfl (by simp)
  | label =>
    obtain ⟨hText, rfl⟩ := hLexeme
    exact scanLine_of_direct (leads_label _ hText) rfl rfl hFirst rfl rfl
      (by simpa using head?_of_mem_label hText)
  | directive =>
    obtain ⟨hText, rfl⟩ := hLexeme
    exact scanLine_of_direct (leads_directive _ hText) rfl rfl hFirst rfl rfl (by simp)
  | separator =>
    obtain ⟨hText, rfl⟩ := hLexeme
    exact scanLine_of_direct (leads_separator _ hText) rfl rfl hFirst rfl rfl (by simp)
  | operator =>
    obtain ⟨hOperators, hText, rfl⟩ := hLexeme
    exact scanLine_of_direct (leads_sign _ hText) hOperators rfl hFirst rfl rfl (by simp)
  | integerConstant =>
    obtain ⟨hText, rfl⟩ := hLexeme
    rw [integer_eq] at hText
    rcases hText with ((hZero | hOctal) | hHex) | hDecimal
    · exact scanLine_of_direct (leads_zero _ hZero) rfl rfl hFirst rfl rfl (by simp)
    · exact scanLine_of_direct (leads_octal _ hOctal) rfl rfl hFirst rfl rfl (by simp)
    · exact scanLine_of_direct (leads_hex _ hHex) rfl rfl hFirst rfl rfl (by simp)
    · exact scanLine_of_direct (leads_decimal _ hDecimal) rfl rfl hFirst rfl rfl (by simp)
  | characterLiteral =>
    obtain ⟨hText, rfl⟩ := hLexeme
    have hMem : '\'' :: (text ++ ['\'']) ∈
        one (· == '\'') * (characterBody * one (· == '\'')) :=
      Language.append_mem_mul (singleton_mem_one rfl) (snoc_mem_mul hText rfl)
    obtain ⟨text', hFrames, hScan⟩ := scanLine_of_after? source line
      (leads_character _ hMem) rfl rfl hFirst (by simp)
    have hSame : text = text' := by simpa [State.Frames] using hFrames
    rw [hScan, hSame]
    rfl
  | stringLiteral =>
    obtain ⟨body, hBody, rfl⟩ := hLexeme
    have hMem : '"' :: (body ++ ['"']) ∈ one (· == '"') * (stringBody * one (· == '"')) :=
      Language.append_mem_mul (singleton_mem_one rfl) (snoc_mem_mul hBody.mem_stringBody rfl)
    obtain ⟨text', ⟨body', hBody', hSame⟩, hScan⟩ := scanLine_of_after? source line
      (leads_string _ hMem) rfl rfl hFirst (by simp)
    obtain rfl : body = body' := by simpa using hSame
    rw [hScan, hBody.unique hBody']
    rfl

/-! ## What scans is a lexeme -/

/-- The line gives one token, of this kind and with this text. -/
def Single (operators : Bool) (source line : Nat) (cs : List Char) (kind : Kind)
    (text : String) : Prop :=
  ∃ t, scanLine ⟨operators, false⟩ source line cs = .ok [t] ∧ t.kind = kind ∧ t.text = text

variable {operators : Bool} {kind : Kind} {text : String}

theorem single_of_lexeme (hLexeme : Lexeme operators kind cs text.toList) :
    Single operators source line cs kind text :=
  ⟨_, scanLine_of_lexeme hLexeme, rfl, String.ofList_toList⟩

theorem Single.exists_lexeme (hSingle : Single operators source line cs kind text) :
    ∃ blanks spelling rest, cs = blanks ++ (spelling ++ rest) ∧
      (∀ c ∈ blanks, Text.isBlank c = true) ∧ (∀ c ∈ rest, Text.isBlank c = true) ∧
      Lexeme operators kind spelling text.toList := by
  obtain ⟨t, hScan, rfl, rfl⟩ := hSingle
  have hTiles := Scanner.tiles_of_tokens hScan
  change Tiles ⟨operators, false⟩ source line 0 cs [t] at hTiles
  cases hTiles with
  | token blanks spelling rest hBlank hLexeme _ hRest =>
    cases hRest with
    | done blanks' tail hBlank' hTail =>
      obtain rfl : tail = [] := by simpa using hTail
      rw [List.append_nil]
      exact ⟨blanks, spelling, blanks', rfl, hBlank, hBlank', hLexeme⟩

/-- A line that is the text of its one token holds nothing else. -/
theorem single_iff_lexeme (hCharacter : kind ≠ .characterLiteral)
    (hString : kind ≠ .stringLiteral) :
    Single operators source line text.toList kind text ↔
      Lexeme operators kind text.toList text.toList := by
  constructor
  · intro hSingle
    obtain ⟨blanks, spelling, rest, hSplit, _, _, hLexeme⟩ := hSingle.exists_lexeme
    obtain rfl := hLexeme.spelling_eq hCharacter hString
    exact hLexeme
  · exact single_of_lexeme

/-- Quotes are not blank, so that none of the blanks around a quoted token are there. -/
theorem eq_of_quoted {quote : Char} {body blanks spelling rest : List Char}
    (hSplit : quote :: (body ++ [quote]) = blanks ++ (spelling ++ rest))
    (hQuote : Text.isBlank quote = false) (hFront : ∀ c ∈ blanks, Text.isBlank c = true)
    (hBack : ∀ c ∈ rest, Text.isBlank c = true) : spelling = quote :: (body ++ [quote]) := by
  have hNot : Text.isBlank quote ≠ true := by simp [hQuote]
  obtain rfl : blanks = [] := by
    cases blanks with
    | nil => rfl
    | cons b blanks =>
      obtain rfl : quote = b := (List.cons.inj hSplit).1
      exact absurd (hFront quote List.mem_cons_self) hNot
  obtain rfl : rest = [] := by
    rcases List.eq_nil_or_concat' rest with hNil | ⟨front, b, rfl⟩
    · exact hNil
    · have hEnds : quote :: body ++ [quote] = spelling ++ front ++ [b] := by simpa using hSplit
      obtain rfl : quote = b := List.singleton_inj.mp (List.append_inj' hEnds rfl).2
      exact absurd (hBack quote (by simp)) hNot
  simpa using hSplit.symm

theorem single_character_iff (body : String) :
    (∃ text, Single operators source line ('\'' :: (body.toList ++ ['\''])) .characterLiteral
      text) ↔ body.toList ∈ characterBody := by
  constructor
  · rintro ⟨text, hSingle⟩
    obtain ⟨blanks, spelling, rest, hSplit, hFront, hBack, hText, hSpelling⟩ :=
      hSingle.exists_lexeme
    rw [eq_of_quoted hSplit rfl hFront hBack] at hSpelling
    obtain hSame : body.toList = text.toList := by simpa using hSpelling
    rw [hSame]
    exact hText
  · intro hBody
    exact ⟨body, single_of_lexeme ⟨hBody, rfl⟩⟩

theorem single_string_iff (body : String) :
    (∃ text, Single operators source line ('"' :: (body.toList ++ ['"'])) .stringLiteral text) ↔
      body.toList ∈ stringBody := by
  constructor
  · rintro ⟨text, hSingle⟩
    obtain ⟨blanks, spelling, rest, hSplit, hFront, hBack, inner, hInner, hSpelling⟩ :=
      hSingle.exists_lexeme
    rw [eq_of_quoted hSplit rfl hFront hBack] at hSpelling
    obtain hSame : body.toList = inner := by simpa using hSpelling
    rw [hSame]
    exact hInner.mem_stringBody
  · intro hBody
    obtain ⟨text, hText⟩ := exists_unescapes hBody
    refine ⟨String.ofList text, single_of_lexeme ⟨body.toList, ?_, rfl⟩⟩
    rw [String.toList_ofList]
    exact hText

/-! ## Names -/

def IsRegisterName (w : String) : Prop :=
  ∃ r : Isa.Register, w = r.name ∨ w = r.numberName

def IsMnemonicName (w : String) : Prop :=
  ∃ m : Isa.Mnemonic, w = m.name

theorem mem_all_registers (r : Isa.Register) : r ∈ Isa.Register.all :=
  List.mem_map.mpr ⟨r.number, List.mem_finRange r.number, rfl⟩

theorem isSome_register_iff (w : String) :
    (Isa.Register.ofName? w).isSome = true ↔ IsRegisterName w := by
  simp [Isa.Register.ofName?, IsRegisterName, mem_all_registers]

theorem isSome_mnemonic_iff (w : String) :
    (Isa.Mnemonic.ofName? w).isSome = true ↔ IsMnemonicName w := by
  simp [Isa.Mnemonic.ofName?, IsMnemonicName, Isa.Mnemonic.mem_all]

theorem classify_eq_register_iff (w : String) : classify w = .register ↔ IsRegisterName w := by
  rw [classify, ← isSome_register_iff]
  split
  · simp_all
  · split <;> simp_all

theorem classify_eq_mnemonic_iff (w : String) :
    classify w = .mnemonic ↔ ¬IsRegisterName w ∧ IsMnemonicName w := by
  rw [classify, ← isSome_register_iff, ← isSome_mnemonic_iff]
  split
  · simp_all
  · split <;> simp_all

theorem classify_eq_identifier_iff (w : String) :
    classify w = .identifier ↔ ¬IsRegisterName w ∧ ¬IsMnemonicName w := by
  rw [classify, ← isSome_register_iff, ← isSome_mnemonic_iff]
  split
  · simp_all
  · split <;> simp_all

theorem mem_kstar_one {p : Char → Bool} {w : List Char} (hAll : w.all p = true) :
    w ∈ (one p)∗ := by
  induction w with
  | nil => exact Language.nil_mem_kstar _
  | cons c w ih =>
    obtain ⟨hFirst, hRest⟩ : p c = true ∧ w.all p = true := by simpa using hAll
    exact append_mem_kstar (singleton_mem_one hFirst) (ih hRest)

def isWord (w : List Char) : Bool :=
  w.head?.any isWordStart && w.tail.all isWordChar

theorem mem_word_of_isWord {w : List Char} (hWord : isWord w = true) : w ∈ word := by
  cases w with
  | nil => cases hWord
  | cons c w =>
    obtain ⟨hFirst, hRest⟩ : isWordStart c = true ∧ w.all isWordChar = true := by
      simpa [isWord] using hWord
    exact Language.append_mem_mul (singleton_mem_one hFirst) (mem_kstar_one hRest)

theorem IsRegisterName.mem_word {w : String} (hName : IsRegisterName w) : w.toList ∈ word := by
  have hAll : ∀ r ∈ Isa.Register.all,
      isWord r.name.toList = true ∧ isWord r.numberName.toList = true := by decide +kernel
  obtain ⟨r, rfl | rfl⟩ := hName
  · exact mem_word_of_isWord (hAll r (mem_all_registers r)).1
  · exact mem_word_of_isWord (hAll r (mem_all_registers r)).2

theorem IsMnemonicName.mem_word {w : String} (hName : IsMnemonicName w) : w.toList ∈ word := by
  have hAll : ∀ m ∈ Isa.Mnemonic.all, isWord m.name.toList = true := by decide +kernel
  obtain ⟨m, rfl⟩ := hName
  exact mem_word_of_isWord (hAll m m.mem_all)

/-! ## The grammar -/

/-- What scans as one token that is the whole line, kind by kind, and what scans as one literal. -/
structure Grammar (operators : Bool) (source line : Nat) : Prop where
  word (w : String) : (∃ kind ∈ [Kind.identifier, .register, .mnemonic],
    Single operators source line w.toList kind w) ↔ w.toList ∈ word
  register (w : String) : Single operators source line w.toList .register w ↔ IsRegisterName w
  mnemonic (w : String) : Single operators source line w.toList .mnemonic w ↔
    ¬IsRegisterName w ∧ IsMnemonicName w
  identifier (w : String) : Single operators source line w.toList .identifier w ↔
    w.toList ∈ Token.word ∧ ¬IsRegisterName w ∧ ¬IsMnemonicName w
  label (w : String) : Single operators source line w.toList .label w ↔
    w.toList ∈ Token.word * one (· == ':')
  directive (w : String) : Single operators source line w.toList .directive w ↔
    w.toList ∈ Token.directive
  integer (w : String) : Single operators source line w.toList .integerConstant w ↔
    w.toList ∈ Token.integer
  separator (w : String) : Single operators source line w.toList .separator w ↔
    w ∈ [",", "(", ")"]
  operator (w : String) : Single operators source line w.toList .operator w ↔
    operators = true ∧ w ∈ ["+", "-"]
  character (b : String) : (∃ text, Single operators source line
    ('\'' :: (b.toList ++ ['\''])) .characterLiteral text) ↔ b.toList ∈ characterBody
  string (b : String) : (∃ text, Single operators source line
    ('"' :: (b.toList ++ ['"'])) .stringLiteral text) ↔ b.toList ∈ stringBody

theorem single_word_iff {w : String} (hKind : kind ∈ [Kind.identifier, .register, .mnemonic]) :
    Single operators source line w.toList kind w ↔ w.toList ∈ word ∧ classify w = kind := by
  simp only [List.mem_cons, List.not_mem_nil, or_false] at hKind
  rcases hKind with rfl | rfl | rfl <;>
    rw [single_iff_lexeme Kind.noConfusion Kind.noConfusion] <;> simp [Lexeme, eq_comm]

theorem toList_mem_one_iff {p : Char → Bool} {w : String} (chars : List Char)
    (hClass : ∀ c, p c = true ↔ c ∈ chars) :
    w.toList ∈ one p ↔ w ∈ chars.map String.singleton := by
  constructor
  · rintro ⟨c, hMem, hList⟩
    refine List.mem_map.mpr ⟨c, (hClass c).mp hMem, ?_⟩
    rw [← String.toList_inj, hList, String.toList_singleton]
  · intro hMem
    obtain ⟨c, hChar, rfl⟩ := List.mem_map.mp hMem
    rw [String.toList_singleton]
    exact singleton_mem_one ((hClass c).mpr hChar)

theorem toList_mem_separator_iff (w : String) :
    w.toList ∈ one isSeparator ↔ w ∈ [",", "(", ")"] :=
  toList_mem_one_iff [',', '(', ')'] fun c => by simp [isSeparator, or_assoc]

theorem toList_mem_sign_iff (w : String) : w.toList ∈ one isSign ↔ w ∈ ["+", "-"] :=
  toList_mem_one_iff ['+', '-'] fun c => by simp [isSign]

theorem scanner_accepts_grammar (operators : Bool) (source line : Nat) :
    Grammar operators source line where
  word w := by
    constructor
    · rintro ⟨kind, hKind, hSingle⟩
      exact ((single_word_iff hKind).mp hSingle).1
    · intro hWord
      have hKind : classify w ∈ [Kind.identifier, .register, .mnemonic] := by
        rcases classify_cases w with h | h | h <;> simp [h]
      exact ⟨classify w, hKind, (single_word_iff hKind).mpr ⟨hWord, rfl⟩⟩
  register w := by
    rw [single_word_iff (by simp), classify_eq_register_iff]
    exact ⟨And.right, fun hName => ⟨hName.mem_word, hName⟩⟩
  mnemonic w := by
    rw [single_word_iff (by simp), classify_eq_mnemonic_iff]
    exact ⟨And.right, fun hName => ⟨hName.2.mem_word, hName⟩⟩
  identifier w := by
    rw [single_word_iff (by simp), classify_eq_identifier_iff]
  label w := by
    rw [single_iff_lexeme Kind.noConfusion Kind.noConfusion]
    exact and_iff_left rfl
  directive w := by
    rw [single_iff_lexeme Kind.noConfusion Kind.noConfusion]
    exact and_iff_left rfl
  integer w := by
    rw [single_iff_lexeme Kind.noConfusion Kind.noConfusion]
    exact and_iff_left rfl
  separator w := by
    rw [single_iff_lexeme Kind.noConfusion Kind.noConfusion, ← toList_mem_separator_iff]
    exact and_iff_left rfl
  operator w := by
    rw [single_iff_lexeme Kind.noConfusion Kind.noConfusion, ← toList_mem_sign_iff]
    exact and_congr_right fun _ => and_iff_left rfl
  character := single_character_iff
  string := single_string_iff

end MipsAsm.Token
