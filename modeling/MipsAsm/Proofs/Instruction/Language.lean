import Mathlib.Computability.Language
import MipsAsm.Proofs.Instruction.Grammar

/-! # Languages of operands

The tokens that a format asks for form a language over tokens. Reading for a word of a language
ends in one of three ways: the tokens begin with a word, they stop inside of one, or one of them is
the first with which no word goes on. Readers of two languages work one behind the other as long as
no word of the first language begins another one.
-/

namespace MipsAsm.Operands

open Isa (Register)

/-! ## Words -/

/-- One token of a class. -/
def oneOf (p : Token → Prop) : Language Token :=
  {ts | ∃ t, ts = [t] ∧ p t}

def separator (text : String) : Language Token :=
  oneOf fun t => t.is .separator text = true

/-- Constants that have a value, and names. -/
def IsImmediate (t : Token) : Prop :=
  (t.kind = .integerConstant ∨ t.kind = .characterLiteral) ∧ t.intValue?.isSome = true ∨
    t.kind = .identifier ∨ t.kind = .mnemonic

def IsRegister (t : Token) : Prop :=
  t.kind = .register

/-- What an operand of a shape may be. -/
def Shape.language : Shape → Language Token
  | .register => oneOf IsRegister
  | .immediate => oneOf IsImmediate
  | .memory => (1 + oneOf IsImmediate) * (separator "(" * (oneOf IsRegister * separator ")"))

/-- Words of some languages with commas between them. -/
def commaSeparated : List (Language Token) → Language Token
  | [] => 1
  | [L] => L
  | L :: M :: rest => L * (separator "," * commaSeparated (M :: rest))

variable {L M : Language Token} {p : Token → Prop} {t : Token} {ts us : List Token}

theorem cons_mem_oneOf : t :: ts ∈ oneOf p ↔ ts = [] ∧ p t := by
  constructor
  · rintro ⟨u, hWord, hClass⟩
    cases hWord
    exact ⟨rfl, hClass⟩
  · rintro ⟨rfl, hClass⟩
    exact ⟨t, rfl, hClass⟩

theorem append_mem_mul (hFirst : ts ∈ L) (hSecond : us ∈ M) : ts ++ us ∈ L * M :=
  Language.mem_mul.mpr ⟨ts, hFirst, us, hSecond, rfl⟩

theorem cons_mem_mul (hFirst : p t) (hRest : ts ∈ M) : t :: ts ∈ oneOf p * M :=
  Language.mem_mul.mpr ⟨[t], ⟨t, rfl, hFirst⟩, ts, hRest, rfl⟩

/-! ## Words that end -/

/-- The language has words, and none of them is the beginning of another. -/
structure Proper (L : Language Token) : Prop where
  exists_word : ∃ ts, ts ∈ L
  ends : ∀ ts us, ts ∈ L → ts ++ us ∈ L → us = []

namespace Proper

theorem one : Proper (1 : Language Token) := by
  constructor
  · exact ⟨[], Language.nil_mem_one⟩
  · intro ts us _ hMore
    exact (List.append_eq_nil_iff.mp ((Language.mem_one _).mp hMore)).2

theorem oneOf (hSome : ∃ t, p t) : Proper (oneOf p) := by
  constructor
  · obtain ⟨t, hClass⟩ := hSome
    exact ⟨[t], t, rfl, hClass⟩
  · rintro _ us ⟨t, rfl, _⟩ hMore
    exact (cons_mem_oneOf.mp hMore).1

/-- Two words at the start of the same tokens are the same. -/
theorem eq_of_append (hProper : Proper L) {vs ws : List Token} (hFirst : ts ∈ L) (hSecond : us ∈ L)
    (hSame : ts ++ vs = us ++ ws) : ts = us ∧ vs = ws := by
  rcases List.append_eq_append_iff.mp hSame with ⟨more, rfl, rfl⟩ | ⟨more, rfl, rfl⟩
  · obtain rfl := hProper.ends _ _ hFirst hSecond
    exact ⟨(List.append_nil ts).symm, rfl⟩
  · obtain rfl := hProper.ends _ _ hSecond hFirst
    exact ⟨List.append_nil us, rfl⟩

theorem mul (hFirst : Proper L) (hSecond : Proper M) : Proper (L * M) := by
  constructor
  · obtain ⟨ts, hWord⟩ := hFirst.exists_word
    obtain ⟨us, hWord'⟩ := hSecond.exists_word
    exact ⟨ts ++ us, append_mem_mul hWord hWord'⟩
  · rintro _ vs hWord hMore
    obtain ⟨ts, hTs, us, hUs, rfl⟩ := Language.mem_mul.mp hWord
    obtain ⟨ts', hTs', us', hUs', hSame⟩ := Language.mem_mul.mp hMore
    rw [List.append_assoc] at hSame
    obtain ⟨rfl, rfl⟩ := hFirst.eq_of_append hTs' hTs hSame
    exact hSecond.ends us vs hUs hUs'

/-- A choice that the first token decides. -/
theorem add (hFirst : Proper L) (hSecond : Proper M)
    (hApart : ∀ ts us vs ws, ts ∈ L → us ∈ M → ts ++ vs ≠ us ++ ws) : Proper (L + M) := by
  constructor
  · obtain ⟨ts, hWord⟩ := hFirst.exists_word
    exact ⟨ts, Or.inl hWord⟩
  · rintro ts us (hWord | hWord) (hMore | hMore)
    · exact hFirst.ends ts us hWord hMore
    · exact absurd (List.append_nil _).symm (hApart _ _ us [] hWord hMore)
    · exact absurd (List.append_nil _) (hApart _ _ [] us hMore hWord)
    · exact hSecond.ends ts us hWord hMore

end Proper

/-! ## Verdicts -/

/-- The error says that the token does not belong where it stands. -/
def Blames (t : Token) (e : Error) : Prop :=
  e = (Cause.unexpectedToken t.text).located t.pos ∨
    ∃ expected, e = (Cause.badOperand t.text expected).located t.pos

/-- How reading for a word of a language may end. The function `left` tells which tokens a result
leaves unread. -/
inductive Verdict (head : Position) (L : Language Token) (ts : List Token) {α : Type}
    (left : α → List Token) : Except Error α → Prop where
  | read (a : α) (word : List Token) (hWord : word ∈ L) (hSplit : ts = word ++ left a) :
      Verdict head L ts left (.ok a)
  | missing (more : List Token) (hMore : more ≠ []) (hWord : ts ++ more ∈ L) :
      Verdict head L ts left (.error (Cause.missingArgument.located head))
  | blamed (e : Error) (before : List Token) (t : Token) (after more : List Token)
      (hSplit : ts = before ++ t :: after) (hMore : more ≠ []) (hWord : before ++ more ∈ L)
      (hDead : ∀ us, before ++ t :: us ∉ L) (hBlames : Blames t e) :
      Verdict head L ts left (.error e)

namespace Verdict

variable {head : Position} {α β : Type} {left : α → List Token} {left' : β → List Token}
  {x : Except Error α}

theorem map (hVerdict : Verdict head L ts left x) (g : α → β) (hLeft : ∀ a, left' (g a) = left a) :
    Verdict head L ts left' (x >>= fun a => pure (g a)) := by
  cases hVerdict with
  | read a word hWord hSplit => exact .read (g a) word hWord (by rw [hLeft, hSplit])
  | missing more hMore hWord => exact .missing more hMore hWord
  | blamed e before t after more hSplit hMore hWord hDead hBlames =>
    exact .blamed e before t after more hSplit hMore hWord hDead hBlames

/-- The verdict on a choice that the first tokens rule one side out of. -/
theorem inr (hVerdict : Verdict head M ts left x)
    (hApart : ∀ before t us, before ++ [t] <+: ts → before ++ t :: us ∉ L) :
    Verdict head (L + M) ts left x := by
  cases hVerdict with
  | read a word hWord hSplit => exact .read a word (Or.inr hWord) hSplit
  | missing more hMore hWord => exact .missing more hMore (Or.inr hWord)
  | blamed e before t after more hSplit hMore hWord hDead hBlames =>
    refine .blamed e before t after more hSplit hMore (Or.inr hWord) ?_ hBlames
    have hFront : before ++ [t] <+: ts := ⟨after, by simp [hSplit]⟩
    rintro us (hLeft | hRight)
    · exact hApart before t us hFront hLeft
    · exact hDead us hRight

theorem bind {f : α → Except Error β} (hProper : Proper L) (hSome : ∃ ws, ws ∈ M)
    (hFirst : Verdict head L ts left x)
    (hRest : ∀ a, left a <:+ ts → Verdict head M (left a) left' (f a)) :
    Verdict head (L * M) ts left' (x >>= f) := by
  obtain ⟨ws, hLast⟩ := hSome
  cases hFirst with
  | read a word hWord hSplit =>
    have hSecond := hRest a ⟨word, hSplit.symm⟩
    change Verdict head (L * M) ts left' (f a)
    generalize f a = y at hSecond ⊢
    cases hSecond with
    | read b word' hWord' hSplit' =>
      refine .read b (word ++ word') (append_mem_mul hWord hWord') ?_
      rw [hSplit, hSplit', List.append_assoc]
    | missing more hMore hWord' =>
      refine .missing more hMore ?_
      rw [hSplit, List.append_assoc]
      exact append_mem_mul hWord hWord'
    | blamed e before t after more hSplit' hMore hWord' hDead hBlames =>
      refine .blamed e (word ++ before) t after more ?_ hMore ?_ ?_ hBlames
      · rw [hSplit, hSplit', List.append_assoc]
      · rw [List.append_assoc]
        exact append_mem_mul hWord hWord'
      · intro us hMem
        obtain ⟨word'', hWord'', rest, hRest, hSame⟩ := Language.mem_mul.mp hMem
        rw [List.append_assoc] at hSame
        obtain ⟨rfl, rfl⟩ := hProper.eq_of_append hWord'' hWord hSame
        exact hDead us hRest
  | missing more hMore hWord =>
    refine .missing (more ++ ws) (List.append_ne_nil_of_left_ne_nil hMore ws) ?_
    rw [← List.append_assoc]
    exact append_mem_mul hWord hLast
  | blamed e before t after more hSplit hMore hWord hDead hBlames =>
    refine .blamed e before t after (more ++ ws) hSplit
      (List.append_ne_nil_of_left_ne_nil hMore ws) ?_ ?_ hBlames
    · rw [← List.append_assoc]
      exact append_mem_mul hWord hLast
    · intro us hMem
      obtain ⟨word, hFront, rest, _, hSame⟩ := Language.mem_mul.mp hMem
      -- a word that ends before the token would be the beginning of `before ++ more`
      have hLong : ∀ end', before ≠ word ++ end' := by
        rintro end' rfl
        rw [List.append_assoc] at hWord
        exact List.append_ne_nil_of_right_ne_nil _ hMore (hProper.ends _ _ hFront hWord)
      rcases List.append_eq_append_iff.mp hSame with ⟨end', hBefore, _⟩ | ⟨end', rfl, hTail⟩
      · exact hLong end' hBefore
      · cases end' with
        | nil => exact hLong [] (by simp)
        | cons u end' =>
          cases hTail
          exact hDead end' hFront

end Verdict

end MipsAsm.Operands
