import MipsAsm.Proofs.Token.Lexeme

/-! # What the states of the token automaton stand for

Each state goes with a kind, a language that holds the text of the draft, and a relation between
the text and the characters read since the token began. One edge leads from what its source stands
for to what its target stands for, so that a walk from the start reads blanks and then a spelling.
-/

namespace MipsAsm.Token

open Automaton Computability

/-! ## Sets of the automaton -/

theorem contains_letters (c : Char) : letters.contains c = c.isAlpha := by
  rw [Bool.eq_iff_iff, isAlpha_iff]
  simp only [letters, CharSet.contains_join, CharSet.contains, Bool.or_eq_true, Bool.and_eq_true,
    decide_eq_true_eq]
  exact or_comm

theorem contains_digits (c : Char) : digits.contains c = c.isDigit :=
  rfl

@[simp] theorem contains_of (s : String) (c : Char) :
    (CharSet.of s).contains c = decide (c ∈ s.toList) := by
  simp [CharSet.of, CharSet.contains]

@[simp] theorem contains_except (s : String) (c : Char) :
    (CharSet.except s).contains c = decide (c ∉ s.toList) := by
  simp [CharSet.except]

@[simp] theorem contains_range (lo hi c : Char) :
    (CharSet.range lo hi).contains c = decide (lo ≤ c ∧ c ≤ hi) := by
  simp [CharSet.contains]

@[simp] theorem contains_identStart (c : Char) : identStart.contains c = isWordStart c := by
  rw [Bool.eq_iff_iff]
  simp [identStart, isWordStart, contains_letters, or_assoc]

@[simp] theorem contains_identCont (c : Char) : identCont.contains c = isWordChar c := by
  rw [Bool.eq_iff_iff]
  simp [identCont, isWordChar, contains_letters, contains_digits, Char.isAlphanum, or_assoc]

@[simp] theorem contains_directiveStart (c : Char) :
    directiveStart.contains c = isDirectiveStart c := by
  rw [Bool.eq_iff_iff]
  simp [directiveStart, isDirectiveStart, contains_letters]

@[simp] theorem contains_directiveCont (c : Char) :
    directiveCont.contains c = isDirectiveChar c := by
  rw [Bool.eq_iff_iff]
  simp [directiveCont, isDirectiveChar, contains_letters, contains_digits, Char.isAlphanum]

@[simp] theorem contains_octalDigits (c : Char) : octalDigits.contains c = isOctalDigit c :=
  rfl

@[simp] theorem contains_hexDigits (c : Char) : hexDigits.contains c = isHexDigit c := by
  rw [Bool.eq_iff_iff]
  simp [hexDigits, isHexDigit, contains_digits]

@[simp] theorem contains_any (c : Char) : CharSet.any.contains c = true :=
  rfl

/-! ## States -/

namespace State

def kind? : State → Option Kind
  | start | comment => none
  | identifier => some .identifier
  | label => some .label
  | dot | directive => some .directive
  | separator => some .separator
  | sign => some .operator
  | zero | octal | hexMark | hex | decimal | malformed => some .integerConstant
  | stringBody | stringEscape | stringEnd => some .stringLiteral
  | charOpen | charEscape | charHexFirst | charHexSecond | charBody | charEnd =>
    some .characterLiteral

/-- The texts of drafts. Those of strings are a matter of `Frames`. -/
def texts : State → Language Char
  | start | charOpen => 1
  | identifier => word
  | label => (word + Token.directive) * one (· == ':')
  | dot => one (· == '.')
  | directive => Token.directive
  | separator => one isSeparator
  | sign => one isSign
  | zero => (1 + one isSign) * one (· == '0')
  | octal => (1 + one isSign) * one (· == '0') * one isOctalDigit * (one isOctalDigit)∗
  | hexMark => (1 + one isSign) * one (· == '0') * one isHexMark
  | hex => (1 + one isSign) * one (· == '0') * one isHexMark * one isHexDigit * (one isHexDigit)∗
  | decimal => (1 + one isSign) * one isLeadingDigit * (one Char.isDigit)∗
  | charEscape => one (· == '\\')
  | charHexFirst => one (· == '\\') * one isHexMark
  | charHexSecond => one (· == '\\') * one isHexMark * one isHexDigit
  | charBody | charEnd => characterBody
  | malformed | stringBody | stringEscape | stringEnd | comment => ⊤

/-- The states in which the text lacks nothing that was read but perhaps an opening quote. -/
def direct : State → Bool
  | start | comment | stringBody | stringEscape | stringEnd | charEnd => false
  | _ => true

def lead : State → List Char
  | charOpen | charEscape | charHexFirst | charHexSecond | charBody => ['\'']
  | _ => []

/-- The characters read since a token began, and the text of its draft. -/
def Frames : State → List Char → List Char → Prop
  | start, spelling, text => spelling = [] ∧ text = []
  | comment, spelling, text => spelling.head? = some '#' ∧ text = []
  | stringBody, spelling, text => ∃ body, Unescapes body text ∧ spelling = '"' :: body
  | stringEscape, spelling, text =>
    ∃ body, Unescapes body text ∧ spelling = '"' :: (body ++ ['\\'])
  | stringEnd, spelling, text => ∃ body, Unescapes body text ∧ spelling = '"' :: (body ++ ['"'])
  | charEnd, spelling, text => spelling = '\'' :: (text ++ ['\''])
  | state, spelling, text => spelling = state.lead ++ text

theorem frames_of_direct {state : State} (hDirect : state.direct = true)
    (spelling text : List Char) : state.Frames spelling text ↔ spelling = state.lead ++ text := by
  cases state <;> first | rfl | cases hDirect

end State

/-! ## Texts along edges -/

def added (c : Char) : List (Action Kind) → List Char
  | [] => []
  | .append :: actions => c :: added c actions
  | .appendLit lit :: actions => lit :: added c actions
  | _ :: actions => added c actions

theorem mem_opt_mul {A B : Language Char} {w : List Char} (hMem : w ∈ A) : w ∈ (1 + B) * A := by
  rw [add_mul, one_mul]
  exact Or.inl hMem

theorem eq_of_mem_commentEdges {options : Options} {e : Edge State Kind}
    (hComment : e ∈ commentEdges options) :
    options.comments = true ∧ e = ⟨.comment, .of "#", []⟩ := by
  rw [commentEdges] at hComment
  split at hComment
  · exact ⟨by assumption, List.mem_singleton.mp hComment⟩
  · exact absurd hComment List.not_mem_nil

variable {options : Options} {e : Edge State Kind} {text : List Char} {c : Char}

theorem mem_texts_opening (hEdge : e ∈ edges options .start) (hTarget : e.target ≠ .start)
    (hOn : e.on.contains c = true) : added c e.actions ∈ e.target.texts := by
  simp only [edges, List.mem_append, List.mem_cons, List.not_mem_nil, or_false] at hEdge
  rcases hEdge with (rfl | rfl | rfl | rfl | rfl | rfl | rfl | rfl | rfl) | hComment
  · exact absurd rfl hTarget
  · exact mem_mul_kstar (singleton_mem_one (by simpa [opening] using hOn))
  · exact singleton_mem_one (by simpa [opening] using hOn)
  · exact singleton_mem_one (by simpa [opening, isSeparator, or_assoc] using hOn)
  · exact singleton_mem_one (by simpa [opening, isSign] using hOn)
  · exact mem_opt_mul (singleton_mem_one (by simpa [opening] using hOn))
  · have hDigit : isLeadingDigit c = true := by simpa [opening, isLeadingDigit] using hOn
    exact mem_mul_kstar (mem_opt_mul (singleton_mem_one hDigit))
  · trivial
  · exact Language.nil_mem_one
  · obtain ⟨_, rfl⟩ := eq_of_mem_commentEdges hComment
    trivial

theorem mem_texts_identifier (hEdge : e ∈ edges options .identifier)
    (hText : text ∈ State.identifier.texts) (hOn : e.on.contains c = true) :
    text ++ added c e.actions ∈ e.target.texts := by
  simp only [edges, List.mem_cons, List.not_mem_nil, or_false] at hEdge
  rcases hEdge with rfl | rfl
  · exact append_mem_mul_kstar hText (singleton_mem_one (by simpa using hOn))
  · exact snoc_mem_mul (Or.inl hText) (by simpa using hOn)

theorem mem_texts_directive (hEdge : e ∈ edges options .directive)
    (hText : text ∈ State.directive.texts) (hOn : e.on.contains c = true) :
    text ++ added c e.actions ∈ e.target.texts := by
  simp only [edges, List.mem_cons, List.not_mem_nil, or_false] at hEdge
  rcases hEdge with rfl | rfl
  · exact append_mem_mul_kstar hText (singleton_mem_one (by simpa using hOn))
  · exact snoc_mem_mul (Or.inr hText) (by simpa using hOn)

/-- A run of digits goes on or is spoiled. -/
theorem mem_texts_digits {target : State} {set : CharSet}
    (hEdge : e ∈ [⟨target, set, [.append]⟩, spoiling])
    (hNext : set.contains c = true → text ++ [c] ∈ target.texts)
    (hOn : e.on.contains c = true) : text ++ added c e.actions ∈ e.target.texts := by
  simp only [List.mem_cons, List.not_mem_nil, or_false] at hEdge
  rcases hEdge with rfl | rfl
  · exact hNext hOn
  · trivial

theorem mem_texts_sign (hEdge : e ∈ edges options .sign) (hText : text ∈ State.sign.texts)
    (hOn : e.on.contains c = true) : text ++ added c e.actions ∈ e.target.texts := by
  simp only [edges, List.mem_cons, List.not_mem_nil, or_false] at hEdge
  rcases hEdge with rfl | rfl
  · exact snoc_mem_mul (Or.inr hText) (by simpa using hOn)
  · have hDigit : isLeadingDigit c = true := by simpa [isLeadingDigit] using hOn
    exact mem_mul_kstar (snoc_mem_mul (Or.inr hText) hDigit)

theorem mem_texts_zero (hEdge : e ∈ edges options .zero) (hText : text ∈ State.zero.texts)
    (hOn : e.on.contains c = true) : text ++ added c e.actions ∈ e.target.texts := by
  rcases List.mem_cons.mp hEdge with rfl | hOther
  · exact mem_mul_kstar (snoc_mem_mul hText (by simpa using hOn))
  · exact mem_texts_digits hOther
      (fun hMark => snoc_mem_mul hText (by simpa [isHexMark] using hMark)) hOn

theorem mem_texts_charOpen (hEdge : e ∈ edges options .charOpen)
    (hText : text ∈ State.charOpen.texts) (hOn : e.on.contains c = true) :
    text ++ added c e.actions ∈ e.target.texts := by
  obtain rfl := (Language.mem_one text).mp hText
  simp only [edges, List.mem_cons, List.not_mem_nil, or_false] at hEdge
  rcases hEdge with rfl | rfl
  · exact singleton_mem_one (by simpa using hOn)
  · exact Or.inl (Or.inl (singleton_mem_one (by simpa using hOn)))

theorem mem_texts_charEscape (hEdge : e ∈ edges options .charEscape)
    (hText : text ∈ State.charEscape.texts) (hOn : e.on.contains c = true) :
    text ++ added c e.actions ∈ e.target.texts := by
  simp only [edges, List.mem_cons, List.not_mem_nil, or_false] at hEdge
  rcases hEdge with rfl | rfl
  · have hClass : isEscapable c = true := by simpa [isEscapable, or_assoc] using hOn
    exact Or.inl (Or.inr (snoc_mem_mul hText hClass))
  · exact snoc_mem_mul hText (by simpa [isHexMark] using hOn)

theorem mem_texts_charHexSecond (hEdge : e ∈ edges options .charHexSecond)
    (hText : text ∈ State.charHexSecond.texts) (hOn : e.on.contains c = true) :
    text ++ added c e.actions ∈ e.target.texts := by
  simp only [edges, List.mem_cons, List.not_mem_nil, or_false] at hEdge
  rcases hEdge with rfl | rfl
  · have hDigit : [c] ∈ 1 + one isHexDigit := Or.inr (singleton_mem_one (by simpa using hOn))
    exact Or.inr (Language.append_mem_mul hText hDigit)
  · have hNone : [] ∈ 1 + one isHexDigit := Or.inl Language.nil_mem_one
    exact Or.inr (Language.append_mem_mul hText hNone)

theorem mem_texts_step {state : State} (hEdge : e ∈ edges options state)
    (hTarget : e.target ≠ .start) (hText : text ∈ state.texts) (hOn : e.on.contains c = true) :
    text ++ added c e.actions ∈ e.target.texts := by
  cases state with
  | start =>
    obtain rfl := (Language.mem_one text).mp hText
    exact mem_texts_opening hEdge hTarget hOn
  | identifier => exact mem_texts_identifier hEdge hText hOn
  | directive => exact mem_texts_directive hEdge hText hOn
  | sign => exact mem_texts_sign hEdge hText hOn
  | zero => exact mem_texts_zero hEdge hText hOn
  | charOpen => exact mem_texts_charOpen hEdge hText hOn
  | charEscape => exact mem_texts_charEscape hEdge hText hOn
  | charHexSecond => exact mem_texts_charHexSecond hEdge hText hOn
  | octal =>
    exact mem_texts_digits hEdge
      (fun hDigit => append_mem_mul_kstar hText (singleton_mem_one (by simpa using hDigit))) hOn
  | hexMark =>
    exact mem_texts_digits hEdge
      (fun hDigit => mem_mul_kstar (snoc_mem_mul hText (by simpa using hDigit))) hOn
  | hex =>
    exact mem_texts_digits hEdge
      (fun hDigit => append_mem_mul_kstar hText (singleton_mem_one (by simpa using hDigit))) hOn
  | decimal =>
    exact mem_texts_digits hEdge
      (fun hDigit => append_mem_mul_kstar hText (singleton_mem_one hDigit)) hOn
  | dot =>
    obtain rfl := List.mem_singleton.mp hEdge
    exact mem_mul_kstar (snoc_mem_mul hText (by simpa using hOn))
  | charHexFirst =>
    obtain rfl := List.mem_singleton.mp hEdge
    exact snoc_mem_mul hText (by simpa using hOn)
  | charBody =>
    obtain rfl := List.mem_singleton.mp hEdge
    rw [added, List.append_nil]
    exact hText
  | malformed =>
    obtain rfl := List.mem_singleton.mp hEdge
    trivial
  | comment =>
    obtain rfl := List.mem_singleton.mp hEdge
    trivial
  | stringBody =>
    simp only [edges, List.mem_cons, List.not_mem_nil, or_false] at hEdge
    rcases hEdge with rfl | rfl | rfl <;> trivial
  | stringEscape =>
    simp only [edges, List.mem_cons, List.not_mem_nil, or_false] at hEdge
    rcases hEdge with rfl | rfl <;> trivial
  | label => exact absurd hEdge List.not_mem_nil
  | separator => exact absurd hEdge List.not_mem_nil
  | stringEnd => exact absurd hEdge List.not_mem_nil
  | charEnd => exact absurd hEdge List.not_mem_nil

/-! ## Spellings along edges -/

/-- Where the text follows what is read, an edge appends its character or closes a literal. -/
theorem edge_of_direct (c : Char) {state : State} (hDirect : state.direct = true) :
    ∀ e ∈ edges options state,
      (e.target.direct = true ∧ e.target.lead = state.lead ∧ added c e.actions = [c]) ∨
        (e = ⟨.charEnd, .of "'", []⟩ ∧ state.lead = ['\'']) := by
  cases state <;>
    simp_all [edges, spoiling, State.direct, State.lead, added]

theorem frames_opening (hEdge : e ∈ edges options .start) (hTarget : e.target ≠ .start)
    (hOn : e.on.contains c = true) : e.target.Frames [c] (added c e.actions) := by
  simp only [edges, List.mem_append, List.mem_cons, List.not_mem_nil, or_false] at hEdge
  rcases hEdge with (rfl | rfl | rfl | rfl | rfl | rfl | rfl | rfl | rfl) | hComment
  · exact absurd rfl hTarget
  · rfl
  · rfl
  · rfl
  · rfl
  · rfl
  · rfl
  · have hQuote : c = '"' := by simpa using hOn
    exact ⟨[], .nil, by rw [hQuote]⟩
  · have hQuote : c = '\'' := by simpa using hOn
    rw [hQuote]
    rfl
  · obtain ⟨_, rfl⟩ := eq_of_mem_commentEdges hComment
    have hMark : c = '#' := by simpa using hOn
    exact ⟨by rw [hMark]; rfl, rfl⟩

theorem frames_stringBody (hEdge : (machine options).edge? .stringBody c = some e)
    {body : List Char} (hBody : Unescapes body text) :
    e.target.Frames ('"' :: body ++ [c]) (text ++ added c e.actions) := by
  simp only [Machine.edge?, machine, edges, List.find?_cons_eq_some, List.find?_nil] at hEdge
  rcases hEdge with ⟨hOn, rfl⟩ | ⟨hQuote, ⟨hOn, rfl⟩ | ⟨hBackslash, ⟨_, rfl⟩ | hNone⟩⟩
  · have hQuote : c = '"' := by simpa using hOn
    exact ⟨body, by simpa [added] using hBody, by rw [hQuote]; rfl⟩
  · have hBackslash : c = '\\' := by simpa using hOn
    exact ⟨body, by simpa [added] using hBody, by rw [hBackslash]; rfl⟩
  · have hPlain : Unescapes [c] [c] :=
      .plain (by simpa using hQuote) (by simpa using hBackslash) .nil
    exact ⟨body ++ [c], hBody.append hPlain, rfl⟩
  · simp at hNone

theorem frames_stringEscape (hEdge : (machine options).edge? .stringEscape c = some e)
    {body : List Char} (hBody : Unescapes body text) :
    e.target.Frames ('"' :: (body ++ ['\\']) ++ [c]) (text ++ added c e.actions) := by
  simp only [Machine.edge?, machine, edges, List.find?_cons_eq_some, List.find?_nil] at hEdge
  rcases hEdge with ⟨hOn, rfl⟩ | ⟨hQuote, ⟨_, rfl⟩ | hNone⟩
  · have hQuote : c = '"' := by simpa using hOn
    subst hQuote
    exact ⟨body ++ ['\\', '"'], hBody.append (.quote .nil), by simp⟩
  · have hPair : Unescapes ['\\', c] ['\\', c] := .pair (by simpa using hQuote) .nil
    exact ⟨body ++ ['\\', c], hBody.append hPair, by simp⟩
  · simp at hNone

theorem frames_of_edge_direct {state : State} (hDirect : state.direct = true)
    (hEdge : e ∈ edges options state) (hOn : e.on.contains c = true) {spelling : List Char}
    (hFrames : state.Frames spelling text) :
    e.target.Frames (spelling ++ [c]) (text ++ added c e.actions) := by
  have hSpelling := (State.frames_of_direct hDirect spelling text).mp hFrames
  rcases edge_of_direct c hDirect e hEdge with ⟨hTarget, hLead, hAdded⟩ | ⟨rfl, hLead⟩
  · rw [State.frames_of_direct hTarget, hSpelling, hLead, hAdded, List.append_assoc]
  · have hQuote : c = '\'' := by simpa using hOn
    rw [hSpelling, hLead, hQuote]
    simp [State.Frames, added]

theorem frames_step {state : State} (hEdge : (machine options).edge? state c = some e)
    (hTarget : e.target ≠ .start) {spelling : List Char} (hFrames : state.Frames spelling text) :
    e.target.Frames (spelling ++ [c]) (text ++ added c e.actions) := by
  have hOn : e.on.contains c = true := by simpa using List.find?_some hEdge
  have hMem : e ∈ edges options state := List.mem_of_find?_eq_some hEdge
  cases state with
  | start =>
    obtain ⟨rfl, rfl⟩ := hFrames
    exact frames_opening hMem hTarget hOn
  | comment =>
    obtain rfl := List.mem_singleton.mp hMem
    obtain ⟨hHead, rfl⟩ := hFrames
    exact ⟨by simp [hHead], rfl⟩
  | stringBody =>
    obtain ⟨body, hBody, rfl⟩ := hFrames
    exact frames_stringBody hEdge hBody
  | stringEscape =>
    obtain ⟨body, hBody, rfl⟩ := hFrames
    exact frames_stringEscape hEdge hBody
  | stringEnd => exact absurd hMem List.not_mem_nil
  | charEnd => exact absurd hMem List.not_mem_nil
  | _ => exact frames_of_edge_direct rfl hMem hOn hFrames

end MipsAsm.Token
