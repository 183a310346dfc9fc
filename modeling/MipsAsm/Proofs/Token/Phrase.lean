import MipsAsm.Proofs.Token.Acceptance
import MipsAsm.Proofs.Token.Alike
import MipsAsm.Proofs.Token.Constant

/-! # Text that spells given tokens

A text spells tokens if it scans as them at every place and under all options. Such texts are made
from right to left: a name or a number may stand in front of a delimiter, a separator and blanks in
front of anything.
-/

namespace MipsAsm.Token

open Automaton

/-- What a token says, wherever it stands. -/
def content (t : Token) : Kind × String :=
  (t.kind, t.text)

/-- Wherever it stands, the text scans as tokens of these contents. -/
def Spells (cs : List Char) (contents : List (Kind × String)) : Prop :=
  ∀ options source line col, ∃ ts,
    Scanner.tokens ⟨options, source, line, col, cs⟩ = .ok ts ∧ ts.map content = contents

variable {kind : Kind} {text : String} {spelling tail : List Char} {c : Char}
  {contents : List (Kind × String)}

/-! ## Single tokens -/

theorem is_of_content {t : Token} (hContent : t.content = (kind, text)) : t.is kind text = true := by
  obtain ⟨rfl, rfl⟩ := Prod.mk.inj hContent
  simp [is]

/-- A lexeme scans as one token at every column. -/
theorem Scanner.tokens_of_lexeme {options : Options} (source line col : Nat)
    (hLexeme : Lexeme options.operators kind spelling text.toList) :
    tokens ⟨options, source, line, col, spelling⟩ = .ok [⟨kind, text, ⟨source, line, col⟩⟩] := by
  have hStart : tokens ⟨options, source, line, 0, spelling⟩ =
      .ok [⟨kind, text, ⟨source, line, 0⟩⟩] := by
    have hScan : scanLine options source line spelling = _ := scanLine_of_lexeme hLexeme
    rw [String.ofList_toList] at hScan
    exact hScan
  have hMoved : Scanner.Alike ⟨source, line, source, line, col⟩
      ⟨options, source, line, 0, spelling⟩ ⟨options, source, line, col, spelling⟩ := by
    refine ⟨rfl, rfl, ?_⟩
    rw [Nat.zero_add]
  obtain ⟨us, hTokens, hAlike⟩ := hMoved.tokens.exists_of_ok hStart
  cases hAlike with
  | @cons _ u _ _ hToken hRest =>
    cases hRest
    obtain ⟨_, _, _⟩ := u
    obtain ⟨rfl, rfl, _, rfl⟩ := hToken
    simpa using hTokens

theorem Scanner.tokens_cons_separator {options : Options} {source line col : Nat}
    (hClass : isSeparator c = true) (cs : List Char) :
    tokens ⟨options, source, line, col, c :: cs⟩ =
      (tokens ⟨options, source, line, col + 1, cs⟩).map
        (⟨.separator, String.ofList [c], ⟨source, line, col⟩⟩ :: ·) := by
  have hWalks : Walks ⟨options, source, line, col, c :: cs⟩ [c] cs .separator
      ⟨source, line, some col, some .separator, [c], none⟩ := by
    refine ⟨rfl, ?_, ?_⟩
    · simp only [isSeparator, Bool.or_eq_true, beq_iff_eq] at hClass
      rcases hClass with (rfl | rfl) | rfl <;> rfl
    · intro d _
      rfl
  have hNext : (Scanner.mk options source line col (c :: cs)).next.1 =
      .ok (some ⟨.separator, String.ofList [c], ⟨source, line, col⟩⟩) :=
    hWalks.next_of_accepting rfl
  rw [tokens_of_some hNext, hWalks.next_eq]
  rfl

/-! ## Phrases -/

namespace Spells

theorem nil : Spells [] [] := by
  intro options source line col
  exact ⟨[], Scanner.tokens_of_rest_nil rfl, rfl⟩

theorem blanks {blanks : List Char} (hBlank : ∀ b ∈ blanks, Text.isBlank b = true)
    (hTail : Spells tail contents) : Spells (blanks ++ tail) contents := by
  intro options source line col
  obtain ⟨ts, hTokens, hContents⟩ := hTail options source line (col + blanks.length)
  exact ⟨ts, (Scanner.tokens_append_blanks hBlank _).trans hTokens, hContents⟩

theorem separator (hClass : isSeparator c = true) (hTail : Spells tail contents) :
    Spells (c :: tail) ((.separator, String.ofList [c]) :: contents) := by
  intro options source line col
  obtain ⟨ts, hTokens, rfl⟩ := hTail options source line (col + 1)
  refine ⟨⟨.separator, String.ofList [c], ⟨source, line, col⟩⟩ :: ts, ?_, rfl⟩
  rw [Scanner.tokens_cons_separator hClass, hTokens]
  rfl

theorem comma (hTail : Spells tail contents) :
    Spells (',' :: ' ' :: tail) ((.separator, ",") :: contents) := by
  have hBlank : Spells ([' '] ++ tail) contents := hTail.blanks (List.forall_mem_singleton.mpr rfl)
  exact hBlank.separator rfl

theorem lexeme (hLexeme : ∀ operators, Lexeme operators kind spelling text.toList)
    (hComment : '#' ∉ spelling) (hDelimiter : ∀ c ∈ tail.head?, isDelimiter c = true)
    (hTail : Spells tail contents) : Spells (spelling ++ tail) ((kind, text) :: contents) := by
  intro options source line col
  have hFirst := Scanner.tokens_of_lexeme source line col (hLexeme options.operators)
  obtain ⟨ts, hTokens, rfl⟩ := hTail options source line (col + spelling.length)
  refine ⟨_, Scanner.tokens_extended hFirst hTokens hDelimiter ?_, rfl⟩
  intro hMem
  exact absurd hMem hComment

theorem name {w : String} (hWord : w.toList ∈ word)
    (hDelimiter : ∀ c ∈ tail.head?, isDelimiter c = true) (hTail : Spells tail contents) :
    Spells (w.toList ++ tail) ((classify w, w) :: contents) := by
  refine lexeme ?_ (not_mem_of_mem_word (by decide) hWord) hDelimiter hTail
  intro operators
  have hLexeme : Lexeme operators _ _ _ := lexeme_word hWord
  rw [String.ofList_toList] at hLexeme
  exact hLexeme

theorem number (v : Int) (hDelimiter : ∀ c ∈ tail.head?, isDelimiter c = true)
    (hTail : Spells tail contents) :
    Spells ((toString v).toList ++ tail) ((.integerConstant, toString v) :: contents) :=
  lexeme (fun _ => ⟨toString_mem_integer v, rfl⟩)
    (not_mem_of_mem_integer (by decide) rfl (toString_mem_integer v)) hDelimiter hTail

end Spells

/-! ## Tokens of a line -/

theorem Tiles.exists_lexeme {options : Options} {source line col : Nat} {cs : List Char}
    {ts : List Token} (hTiles : Tiles options source line col cs ts) :
    ∀ t ∈ ts, ∃ spelling, Lexeme options.operators t.kind spelling t.text.toList := by
  induction hTiles with
  | done => exact fun t hMem => absurd hMem List.not_mem_nil
  | token blanks spelling rest _ hLexeme _ _ ih =>
    exact List.forall_mem_cons.mpr ⟨⟨spelling, hLexeme⟩, ih⟩

end MipsAsm.Token
