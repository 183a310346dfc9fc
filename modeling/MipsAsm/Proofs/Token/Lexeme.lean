import MipsAsm.Proofs.Automaton.Walk
import MipsAsm.Token.Scanner

/-! # Lexemes

What a token of each kind may look like, said by regular languages over classes of characters and
without the automaton. Only the text of a literal differs from its spelling: a character literal
loses its quotes, a string literal loses its quotes and the backslashes in front of inner quotes.
-/

namespace MipsAsm.Token

open Automaton Computability

/-! ## Classes of characters -/

theorem isAlpha_iff (c : Char) : c.isAlpha = true ↔
    (65 ≤ c.toNat ∧ c.toNat ≤ 90) ∨ (97 ≤ c.toNat ∧ c.toNat ≤ 122) := by
  change (decide ('A'.val ≤ c.val ∧ c.val ≤ 'Z'.val) ||
    decide ('a'.val ≤ c.val) && decide (c.val ≤ 'z'.val)) = true ↔ _
  simp only [Bool.or_eq_true, Bool.and_eq_true, decide_eq_true_eq]
  exact Iff.rfl

def isWordStart (c : Char) : Bool :=
  c.isAlpha || c == '_' || c == '$'

def isWordChar (c : Char) : Bool :=
  c.isAlphanum || c == '_' || c == '$' || c == '.'

def isDirectiveStart (c : Char) : Bool :=
  c.isAlpha || c == '_'

def isDirectiveChar (c : Char) : Bool :=
  c.isAlphanum || c == '_'

def isSeparator (c : Char) : Bool :=
  c == ',' || c == '(' || c == ')'

def isSign (c : Char) : Bool :=
  c == '+' || c == '-'

def isLeadingDigit (c : Char) : Bool :=
  '1' ≤ c && c ≤ '9'

def isOctalDigit (c : Char) : Bool :=
  '0' ≤ c && c ≤ '7'

def isHexDigit (c : Char) : Bool :=
  c.isDigit || ('a' ≤ c && c ≤ 'f') || ('A' ≤ c && c ≤ 'F')

def isHexMark (c : Char) : Bool :=
  c == 'x' || c == 'X'

/-- The characters that may follow a backslash in a character literal, the hexadecimal mark
apart. -/
def isEscapable (c : Char) : Bool :=
  c == 'n' || c == 't' || c == 'r' || c == '0' || c == '\\' || c == '\'' || c == '"'

/-! ## Languages -/

def word : Language Char :=
  one isWordStart * (one isWordChar)∗

def directive : Language Char :=
  one (· == '.') * one isDirectiveStart * (one isDirectiveChar)∗

def magnitude : Language Char :=
  one (· == '0') +
    one (· == '0') * one isOctalDigit * (one isOctalDigit)∗ +
    one (· == '0') * one isHexMark * one isHexDigit * (one isHexDigit)∗ +
    one isLeadingDigit * (one Char.isDigit)∗

def integer : Language Char :=
  (1 + one isSign) * magnitude

/-- What stands between the quotes of a character literal. -/
def characterBody : Language Char :=
  one (fun c => c != '\'' && c != '\\') +
    one (· == '\\') * one isEscapable +
    one (· == '\\') * one isHexMark * one isHexDigit * (1 + one isHexDigit)

/-- What stands between the quotes of a string literal. -/
def stringBody : Language Char :=
  (one (fun c => c != '"' && c != '\\') + one (· == '\\') * one fun _ => true)∗

/-! ## Texts of strings -/

/-- The body of a string literal and its text: `\"` gives a quote, and any other pair of a backslash
and a character is kept. -/
inductive Unescapes : List Char → List Char → Prop where
  | nil : Unescapes [] []
  | plain {c : Char} {body text : List Char} (hQuote : c ≠ '"') (hBackslash : c ≠ '\\')
      (hRest : Unescapes body text) : Unescapes (c :: body) (c :: text)
  | quote {body text : List Char} (hRest : Unescapes body text) :
      Unescapes ('\\' :: '"' :: body) ('"' :: text)
  | pair {c : Char} {body text : List Char} (hQuote : c ≠ '"') (hRest : Unescapes body text) :
      Unescapes ('\\' :: c :: body) ('\\' :: c :: text)

theorem Unescapes.append {body text body' text' : List Char} (hFront : Unescapes body text)
    (hBack : Unescapes body' text') : Unescapes (body ++ body') (text ++ text') := by
  induction hFront with
  | nil => exact hBack
  | plain hQuote hBackslash _ ih => exact .plain hQuote hBackslash ih
  | quote _ ih => exact .quote ih
  | pair hQuote _ ih => exact .pair hQuote ih

theorem Unescapes.unique {body text text' : List Char} (hText : Unescapes body text)
    (hOther : Unescapes body text') : text = text' := by
  induction hText generalizing text' with
  | nil => cases hOther; rfl
  | plain hQuote hBackslash _ ih =>
    cases hOther with
    | plain _ _ hRest => rw [ih hRest]
    | quote => contradiction
    | pair => contradiction
  | quote _ ih =>
    cases hOther with
    | plain _ hBackslash => contradiction
    | quote hRest => rw [ih hRest]
    | pair hQuote => contradiction
  | pair hQuote _ ih =>
    cases hOther with
    | plain _ hBackslash => contradiction
    | quote => contradiction
    | pair _ hRest => rw [ih hRest]

theorem Unescapes.mem_stringBody {body text : List Char} (hText : Unescapes body text) :
    body ∈ stringBody := by
  have hPair : ∀ c, ['\\', c] ∈ one (· == '\\') * one fun _ => true :=
    fun _ => snoc_mem_mul (singleton_mem_one rfl) rfl
  induction hText with
  | nil => exact Language.nil_mem_kstar _
  | @plain c _ _ hQuote hBackslash _ ih =>
    have hPlain : (c != '"' && c != '\\') = true := by simp [hQuote, hBackslash]
    exact append_mem_kstar (Or.inl (singleton_mem_one hPlain)) ih
  | quote _ ih => exact append_mem_kstar (Or.inr (hPair '"')) ih
  | pair hQuote _ ih => exact append_mem_kstar (Or.inr (hPair _)) ih

theorem exists_unescapes {body : List Char} (hBody : body ∈ stringBody) :
    ∃ text, Unescapes body text := by
  obtain ⟨parts, rfl, hParts⟩ := Language.mem_kstar.mp hBody
  clear hBody
  induction parts with
  | nil => exact ⟨[], .nil⟩
  | cons part parts ih =>
    obtain ⟨text, hText⟩ := ih fun x hX => hParts x (List.mem_cons_of_mem part hX)
    rw [List.flatten_cons]
    rcases hParts part List.mem_cons_self with ⟨c, hPlain, rfl⟩ | hPair
    · simp only [Bool.and_eq_true, bne_iff_ne] at hPlain
      exact ⟨_, .plain hPlain.1 hPlain.2 hText⟩
    · obtain ⟨x, ⟨b, hBackslash, rfl⟩, y, ⟨c, _, rfl⟩, rfl⟩ := Language.mem_mul.mp hPair
      obtain rfl := eq_of_beq hBackslash
      by_cases hQuote : c = '"'
      · subst hQuote
        exact ⟨_, .quote hText⟩
      · exact ⟨_, .pair hQuote hText⟩

/-! ## Lexemes -/

/-- The spelling and the text of a token of a kind. -/
def Lexeme (operators : Bool) (kind : Kind) (spelling text : List Char) : Prop :=
  match kind with
  | .identifier | .register | .mnemonic =>
    text ∈ word ∧ kind = classify (String.ofList text) ∧ spelling = text
  | .label => text ∈ word * one (· == ':') ∧ spelling = text
  | .directive => text ∈ directive ∧ spelling = text
  | .separator => text ∈ one isSeparator ∧ spelling = text
  | .operator => operators = true ∧ text ∈ one isSign ∧ spelling = text
  | .integerConstant => text ∈ integer ∧ spelling = text
  | .characterLiteral => text ∈ characterBody ∧ spelling = '\'' :: (text ++ ['\''])
  | .stringLiteral => ∃ body, Unescapes body text ∧ spelling = '"' :: (body ++ ['"'])

theorem Lexeme.spelling_eq {operators : Bool} {kind : Kind} {spelling text : List Char}
    (hLexeme : Lexeme operators kind spelling text) (hCharacter : kind ≠ .characterLiteral)
    (hString : kind ≠ .stringLiteral) : spelling = text := by
  cases kind with
  | characterLiteral => contradiction
  | stringLiteral => contradiction
  | identifier | register | mnemonic | operator => exact hLexeme.2.2
  | label | directive | separator | integerConstant => exact hLexeme.2

/-! ## First characters -/

/-- Every word begins with a character that is not blank. -/
def Bare (words : Language Char) : Prop :=
  ∀ w ∈ words, ∃ c r, w = c :: r ∧ Text.isBlank c = false

theorem isBlank_of_isWordStart {c : Char} (hClass : isWordStart c = true) :
    Text.isBlank c = false := by
  simp only [isWordStart, isAlpha_iff, Bool.or_eq_true, beq_iff_eq] at hClass
  rcases hClass with ((hUpper | hLower) | rfl) | rfl
  · exact Text.isBlank_eq_false (by omega) (by omega)
  · exact Text.isBlank_eq_false (by omega) (by omega)
  · rfl
  · rfl

theorem isBlank_of_isLeadingDigit {c : Char} (hClass : isLeadingDigit c = true) :
    Text.isBlank c = false := by
  simp only [isLeadingDigit, Bool.and_eq_true, decide_eq_true_eq] at hClass
  have hFrom : 49 ≤ c.toNat := hClass.1
  have hTo : c.toNat ≤ 57 := hClass.2
  exact Text.isBlank_eq_false (by omega) (by omega)

theorem bare_one {p : Char → Bool} (hClass : ∀ c, p c = true → Text.isBlank c = false) :
    Bare (one p) := by
  rintro w ⟨c, hMem, rfl⟩
  exact ⟨c, [], rfl, hClass c hMem⟩

theorem bare_char (c : Char) (hBlank : Text.isBlank c = false) : Bare (one (· == c)) := by
  apply bare_one
  intro d hSame
  rw [eq_of_beq hSame]
  exact hBlank

theorem Bare.mul {A : Language Char} (hFirst : Bare A) (B : Language Char) : Bare (A * B) := by
  intro w hMem
  obtain ⟨x, hX, y, _, rfl⟩ := Language.mem_mul.mp hMem
  obtain ⟨c, r, rfl, hBlank⟩ := hFirst x hX
  exact ⟨c, r ++ y, rfl, hBlank⟩

theorem Bare.add {A B : Language Char} (hFirst : Bare A) (hSecond : Bare B) : Bare (A + B) := by
  rintro w (hA | hB)
  · exact hFirst w hA
  · exact hSecond w hB

theorem bare_word : Bare word :=
  (bare_one fun _ => isBlank_of_isWordStart).mul _

theorem bare_magnitude : Bare magnitude := by
  have hZero : Bare (one (· == '0')) := bare_char '0' rfl
  refine ((hZero.add ((hZero.mul _).mul _)).add (((hZero.mul _).mul _).mul _)).add ?_
  exact (bare_one fun _ => isBlank_of_isLeadingDigit).mul _

theorem bare_sign : Bare (one isSign) := by
  apply bare_one
  intro c hSign
  simp only [isSign, Bool.or_eq_true, beq_iff_eq] at hSign
  rcases hSign with rfl | rfl <;> rfl

theorem bare_separator : Bare (one isSeparator) := by
  apply bare_one
  intro c hSeparator
  simp only [isSeparator, Bool.or_eq_true, beq_iff_eq] at hSeparator
  rcases hSeparator with (rfl | rfl) | rfl <;> rfl

theorem bare_integer : Bare integer := by
  rw [integer, add_mul, one_mul]
  exact bare_magnitude.add (bare_sign.mul _)

theorem Lexeme.exists_cons {operators : Bool} {kind : Kind} {spelling text : List Char}
    (hLexeme : Lexeme operators kind spelling text) :
    ∃ c r, spelling = c :: r ∧ Text.isBlank c = false := by
  cases kind with
  | identifier | register | mnemonic =>
    obtain ⟨hText, _, rfl⟩ := hLexeme
    exact bare_word _ hText
  | label =>
    obtain ⟨hText, rfl⟩ := hLexeme
    exact bare_word.mul _ _ hText
  | directive =>
    obtain ⟨hText, rfl⟩ := hLexeme
    exact (((bare_char '.' rfl).mul _).mul _) _ hText
  | separator =>
    obtain ⟨hText, rfl⟩ := hLexeme
    exact bare_separator _ hText
  | operator =>
    obtain ⟨_, hText, rfl⟩ := hLexeme
    exact bare_sign _ hText
  | integerConstant =>
    obtain ⟨hText, rfl⟩ := hLexeme
    exact bare_integer _ hText
  | characterLiteral => exact ⟨'\'', _, hLexeme.2, rfl⟩
  | stringLiteral =>
    obtain ⟨body, _, rfl⟩ := hLexeme
    exact ⟨'"', _, rfl, rfl⟩

end MipsAsm.Token
