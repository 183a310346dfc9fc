import MipsAsm.Proofs.Instruction.Language
import MipsAsm.Proofs.Instruction.Listing

/-! # Operands that can be written down

Operands are written with a blank in front of every token. From any place in a word of a language of
operands on, some text of this kind completes it, so that tokens of a line with which a word begins
are tokens of a line that has the whole word.
-/

namespace MipsAsm.Operands

open Isa (Register)
open Token (Kind Spells content isDelimiter)

/-- The text scans as tokens of these contents in front of any text that begins with a delimiter,
and leaves it possible for another text to stand in front. -/
def Phrase (cs : List Char) (contents : List (Kind × String)) : Prop :=
  ∀ tail rest, (∀ c ∈ tail.head?, isDelimiter c = true) → Spells tail rest →
    (∀ c ∈ (cs ++ tail).head?, isDelimiter c = true) ∧ Spells (cs ++ tail) (contents ++ rest)

namespace Phrase

variable {cs ds : List Char} {contents contents' : List (Kind × String)}

theorem nil : Phrase [] [] :=
  fun _ _ hDelimiter hTail => ⟨hDelimiter, hTail⟩

theorem append (hFirst : Phrase cs contents) (hSecond : Phrase ds contents') :
    Phrase (cs ++ ds) (contents ++ contents') := by
  intro tail rest hDelimiter hTail
  obtain ⟨hDelimiter', hTail'⟩ := hSecond tail rest hDelimiter hTail
  rw [List.append_assoc, List.append_assoc]
  exact hFirst _ _ hDelimiter' hTail'

theorem single {k : Kind × String}
    (hSpells : ∀ tail rest, (∀ c ∈ tail.head?, isDelimiter c = true) → Spells tail rest →
      Spells (cs ++ tail) (k :: rest)) : Phrase (' ' :: cs) [k] := by
  intro tail rest hDelimiter hTail
  refine ⟨?_, ?_⟩
  · rintro c ⟨⟩
    rfl
  · have hBlank : ∀ b ∈ [' '], Text.isBlank b = true := List.forall_mem_singleton.mpr rfl
    have hText := (hSpells tail rest hDelimiter hTail).blanks hBlank
    exact hText

end Phrase

/-- From any place on, a word of the language can be completed in writing. -/
def Spellable (L : Language Token) : Prop :=
  ∀ before more, before ++ more ∈ L → ∃ cs contents, Phrase cs contents ∧
    ∀ us : List Token, us.map content = contents → before ++ us ∈ L

namespace Spellable

variable {L M : Language Token} {p : Token → Prop}

theorem one : Spellable 1 := by
  intro before more hMem
  refine ⟨[], [], .nil, fun us hContents => ?_⟩
  obtain ⟨rfl, _⟩ := List.append_eq_nil_iff.mp ((Language.mem_one _).mp hMem)
  rw [List.map_eq_nil_iff.mp hContents]
  exact Language.nil_mem_one

theorem oneOf {cs : List Char} {k : Kind × String} (hPhrase : Phrase cs [k])
    (hClass : ∀ t, content t = k → p t) : Spellable (oneOf p) := by
  intro before more hMem
  cases before with
  | nil =>
    refine ⟨cs, [k], hPhrase, fun us hContents => ?_⟩
    obtain ⟨u, rfl, hContent⟩ := List.map_eq_singleton_iff.mp hContents
    exact ⟨u, rfl, hClass u hContent⟩
  | cons t before =>
    obtain ⟨hNil, hFirst⟩ := cons_mem_oneOf.mp hMem
    obtain ⟨rfl, rfl⟩ := List.append_eq_nil_iff.mp hNil
    refine ⟨[], [], .nil, fun us hContents => ?_⟩
    rw [List.map_eq_nil_iff.mp hContents]
    exact ⟨t, rfl, hFirst⟩

theorem add (hFirst : Spellable L) (hSecond : Spellable M) : Spellable (L + M) := by
  rintro before more (hMem | hMem)
  · obtain ⟨cs, contents, hPhrase, hWords⟩ := hFirst before more hMem
    exact ⟨cs, contents, hPhrase, fun us hContents => Or.inl (hWords us hContents)⟩
  · obtain ⟨cs, contents, hPhrase, hWords⟩ := hSecond before more hMem
    exact ⟨cs, contents, hPhrase, fun us hContents => Or.inr (hWords us hContents)⟩

theorem mul (hFirst : Spellable L) (hSecond : Spellable M) : Spellable (L * M) := by
  intro before more hMem
  obtain ⟨word, hWord, word', hWord', hSame⟩ := Language.mem_mul.mp hMem
  rcases List.append_eq_append_iff.mp hSame with ⟨front, rfl, rfl⟩ | ⟨front, rfl, rfl⟩
  · -- the place lies in the second word
    obtain ⟨cs, contents, hPhrase, hWords⟩ := hSecond front more hWord'
    refine ⟨cs, contents, hPhrase, fun us hContents => ?_⟩
    rw [List.append_assoc]
    exact append_mem_mul hWord (hWords us hContents)
  · -- the place lies in the first word
    obtain ⟨cs, contents, hPhrase, hWords⟩ := hFirst before front hWord
    obtain ⟨ds, contents', hPhrase', hWords'⟩ := hSecond [] word' hWord'
    refine ⟨cs ++ ds, contents ++ contents', hPhrase.append hPhrase', fun us hContents => ?_⟩
    obtain ⟨vs, ws, rfl, hVs, hWs⟩ := List.map_eq_append_iff.mp hContents
    rw [← List.append_assoc]
    exact append_mem_mul (hWords vs hVs) (hWords' ws hWs)

theorem separator {c : Char} (hClass : Token.isSeparator c = true) :
    Spellable (separator (String.ofList [c])) := by
  have hPhrase : Phrase [' ', c] [(.separator, String.ofList [c])] :=
    .single fun _ _ _ hTail => hTail.separator hClass
  exact .oneOf hPhrase fun _ => Token.is_of_content

theorem register : Spellable (Operands.oneOf IsRegister) :=
  .oneOf (.single fun _ _ => Register.spells .zero) fun _ hContent => congrArg Prod.fst hContent

theorem immediate : Spellable (Operands.oneOf IsImmediate) := by
  refine .oneOf (.single fun _ _ hDelimiter hTail => hTail.number 0 hDelimiter) fun t hContent => ?_
  have hLegible : (Immediate.literal 0).Legible := Nat.zero_lt_of_ne_zero (by decide)
  have hImmediate := hLegible.immediateOf_eq hContent
  rcases immediateOf_eq_ok.mp hImmediate with ⟨hKind, value, hValue, _⟩ | ⟨hKind, _⟩
  · exact Or.inl ⟨hKind, hValue ▸ rfl⟩
  · exact Or.inr hKind

theorem shape (shape : Shape) : Spellable shape.language := by
  cases shape with
  | register => exact register
  | immediate => exact immediate
  | memory =>
    have hOpen : Spellable (Operands.separator "(") := separator (c := '(') rfl
    have hClose : Spellable (Operands.separator ")") := separator (c := ')') rfl
    exact (one.add immediate).mul (hOpen.mul (register.mul hClose))

theorem commaSeparated (shapes : List Shape) :
    Spellable (commaSeparated (shapes.map Shape.language)) := by
  have hComma : Spellable (Operands.separator ",") := separator (c := ',') rfl
  induction shapes with
  | nil => exact one
  | cons first shapes ih =>
    cases shapes with
    | nil => exact shape first
    | cons next rest => exact (shape first).mul (hComma.mul ih)

end Spellable

/-- Words that begin like the tokens of a line stand on a line that begins like this one. -/
theorem Spellable.exists_line {L : Language Token} (hSpellable : Spellable L)
    {options : Token.Options} {source line : Nat} {cs : List Char}
    {front before after more : List Token}
    (hLine : Token.scanLine options source line cs = .ok (front ++ (before ++ after)))
    (hWord : before ++ more ∈ L) :
    ∃ us ds, before ++ us ∈ L ∧
      Token.scanLine options source line ds = .ok (front ++ (before ++ us)) := by
  rw [← List.append_assoc] at hLine
  obtain ⟨read, _, hResumes⟩ := Token.Scanner.tokens_resumed (front ++ before) hLine
  obtain ⟨tail, contents, hPhrase, hWords⟩ := hSpellable before more hWord
  obtain ⟨hDelimiter, hSpells⟩ := hPhrase [] [] (by simp) .nil
  rw [List.append_nil] at hDelimiter
  rw [List.append_nil, List.append_nil] at hSpells
  obtain ⟨us, hTokens, hContents⟩ := hSpells options source line (0 + read.length)
  refine ⟨us, read ++ tail, hWords us hContents, ?_⟩
  rw [← List.append_assoc]
  exact hResumes tail us hDelimiter hTokens

end MipsAsm.Operands
