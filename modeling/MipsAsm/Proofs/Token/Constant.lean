import MipsAsm.Proofs.Text.Numeral
import MipsAsm.Proofs.Token.Continuation

/-! # Integer constants

A number is written in decimal as an integer constant, and read back if it is less than `2⁶³` away
from zero. No other numbers come from integer constants: there is at most one sign, and what stands
behind it is a magnitude in the range of a signed word of 64 bits.
-/

namespace MipsAsm.Token

open Automaton Computability

variable {A B : Language Char} {p : Char → Prop} {cs : List Char} {c : Char}

/-! ## Characters of words and constants -/

/-- All words are made of such characters. -/
def MadeOf (p : Char → Prop) (words : Language Char) : Prop :=
  ∀ w ∈ words, ∀ c ∈ w, p c

theorem madeOf_one {q : Char → Bool} (hClass : ∀ c, q c = true → p c) : MadeOf p (one q) := by
  rintro _ ⟨c, hMem, rfl⟩ d hChar
  rw [List.mem_singleton.mp hChar]
  exact hClass c hMem

namespace MadeOf

theorem mul (hFirst : MadeOf p A) (hSecond : MadeOf p B) : MadeOf p (A * B) := by
  intro w hMem c hChar
  obtain ⟨x, hX, y, hY, rfl⟩ := Language.mem_mul.mp hMem
  rcases List.mem_append.mp hChar with hLeft | hRight
  · exact hFirst x hX c hLeft
  · exact hSecond y hY c hRight

theorem add (hFirst : MadeOf p A) (hSecond : MadeOf p B) : MadeOf p (A + B) := by
  rintro w (hA | hB)
  · exact hFirst w hA
  · exact hSecond w hB

theorem kstar (hPart : MadeOf p A) : MadeOf p A∗ := by
  intro w hMem c hChar
  obtain ⟨parts, rfl, hParts⟩ := Language.mem_kstar.mp hMem
  obtain ⟨part, hPartMem, hCharMem⟩ := List.mem_flatten.mp hChar
  exact hPart part (hParts part hPartMem) c hCharMem

end MadeOf

theorem inner_of_isWordStart (hClass : isWordStart c = true) : Inner c := by
  apply inner_of_isWordChar
  simp only [isWordStart, Bool.or_eq_true] at hClass
  simp only [isWordChar, Char.isAlphanum, Bool.or_eq_true]
  tauto

theorem madeOf_word : MadeOf Inner word :=
  (madeOf_one fun _ => inner_of_isWordStart).mul (madeOf_one fun _ => inner_of_isWordChar).kstar

theorem madeOf_magnitude : MadeOf Inner magnitude := by
  have hZero : MadeOf Inner (one (· == '0')) := by
    apply madeOf_one
    intro c hSame
    rw [eq_of_beq hSame]
    exact Or.inr (Or.inr ⟨by decide, by decide⟩)
  have hOctal : MadeOf Inner (one isOctalDigit) := madeOf_one fun _ => inner_of_isOctalDigit
  have hMark : MadeOf Inner (one isHexMark) := by
    apply madeOf_one
    intro c hClass
    simp only [isHexMark, Bool.or_eq_true, beq_iff_eq] at hClass
    rcases hClass with rfl | rfl <;> exact Or.inr (Or.inr ⟨by decide, by decide⟩)
  have hHex : MadeOf Inner (one isHexDigit) := madeOf_one fun _ => inner_of_isHexDigit
  have hLeading : MadeOf Inner (one isLeadingDigit) := by
    apply madeOf_one
    intro c hClass
    simp only [isLeadingDigit, Bool.and_eq_true, decide_eq_true_eq] at hClass
    exact inner_of_range (by decide) (by decide) hClass
  have hDigit : MadeOf Inner (one Char.isDigit) := madeOf_one fun _ => inner_of_isDigit
  exact ((hZero.add ((hZero.mul hOctal).mul hOctal.kstar)).add
    (((hZero.mul hMark).mul hHex).mul hHex.kstar)).add (hLeading.mul hDigit.kstar)

theorem not_mem_of_mem_word (hInner : ¬Inner c) (hText : cs ∈ word) : c ∉ cs :=
  fun hMem => hInner (madeOf_word cs hText c hMem)

theorem not_mem_of_mem_magnitude (hInner : ¬Inner c) (hText : cs ∈ magnitude) : c ∉ cs :=
  fun hMem => hInner (madeOf_magnitude cs hText c hMem)

/-- A sign stands in front of the magnitude or nowhere. -/
theorem exists_of_mem_integer (hText : cs ∈ integer) :
    ∃ sign digits, cs = sign ++ digits ∧ sign ∈ [[], ['+'], ['-']] ∧ digits ∈ magnitude := by
  obtain ⟨sign, hSign, digits, hDigits, rfl⟩ := Language.mem_mul.mp hText
  refine ⟨sign, digits, rfl, ?_, hDigits⟩
  rcases hSign with hNone | ⟨c, hClass, rfl⟩
  · rw [hNone]
    simp
  · simp only [isSign, Bool.or_eq_true, beq_iff_eq] at hClass
    rcases hClass with rfl | rfl <;> simp

theorem not_mem_of_mem_integer (hInner : ¬Inner c) (hSign : isSign c = false)
    (hText : cs ∈ integer) : c ∉ cs := by
  obtain ⟨sign, digits, rfl, hFront, hDigits⟩ := exists_of_mem_integer hText
  intro hMem
  rcases List.mem_append.mp hMem with hLeft | hRight
  · simp only [List.mem_cons, List.not_mem_nil, or_false] at hFront
    rcases hFront with rfl | rfl | rfl
    · cases hLeft
    · rw [List.mem_singleton.mp hLeft] at hSign
      cases hSign
    · rw [List.mem_singleton.mp hLeft] at hSign
      cases hSign
  · exact not_mem_of_mem_magnitude hInner hDigits hRight

/-! ## Decimal numbers -/

theorem isLeadingDigit_digitChar {d : Nat} (hDigit : d < 10) (hPositive : 0 < d) :
    isLeadingDigit d.digitChar = true := by
  revert d
  decide

theorem isDigit_digitChar {d : Nat} (hDigit : d < 10) : d.digitChar.isDigit = true := by
  revert d
  decide

/-- Only the digits of zero begin with a zero. -/
theorem toDigits_mem {n : Nat} (hPositive : 0 < n) :
    Nat.toDigits 10 n ∈ one isLeadingDigit * (one Char.isDigit)∗ := by
  induction n using Nat.strong_induction_on with
  | _ n ih =>
    by_cases hSmall : n < 10
    · rw [Nat.toDigits_of_lt_base hSmall]
      exact mem_mul_kstar (singleton_mem_one (isLeadingDigit_digitChar hSmall hPositive))
    · rw [Nat.toDigits_of_base_le (by decide) (by omega)]
      have hFront := ih (n / 10) (by omega) (by omega)
      exact append_mem_mul_kstar hFront (singleton_mem_one (isDigit_digitChar (by omega)))

theorem toString_mem_magnitude (n : Nat) : (toString n).toList ∈ magnitude := by
  change n.repr.toList ∈ magnitude
  rw [Nat.toList_repr]
  by_cases hZero : n = 0
  · subst hZero
    exact Or.inl (Or.inl (Or.inl (singleton_mem_one rfl)))
  · exact Or.inr (toDigits_mem (by omega))

theorem toString_mem_integer (v : Int) : (toString v).toList ∈ integer := by
  cases v with
  | ofNat n => exact mem_opt_mul (toString_mem_magnitude n)
  | negSucc n =>
    have hText : (toString (Int.negSucc n)).toList = ['-'] ++ (toString (n + 1)).toList :=
      String.toList_append
    rw [hText]
    exact Language.append_mem_mul (Or.inr (singleton_mem_one rfl)) (toString_mem_magnitude (n + 1))

/-! ## Values -/

/-- Only a zero in front can change the base. -/
theorem magnitude?_of_head_ne (hFirst : c ≠ '0') (cs : List Char) :
    magnitude? (c :: cs) = Text.signed? 10 (c :: cs) := by
  unfold magnitude?
  split
  · rename_i hCons
    exact absurd (List.cons.inj hCons).1 hFirst
  · rename_i hCons
    exact absurd (List.cons.inj hCons).1 hFirst
  · rename_i hCons
    exact absurd (List.cons.inj hCons).1 hFirst
  · rfl

theorem magnitude?_toString {n : Nat} (hRange : n < 0x8000000000000000) :
    magnitude? (toString n).toList = some (n : Int) := by
  have hRead := Text.signed?_of_natural? (Text.natural?_toString n) hRange
  by_cases hZero : n = 0
  · subst hZero
    have hText : (toString 0).toList = ['0'] := rfl
    rw [hText] at hRead ⊢
    exact hRead
  · have hDigits : (toString n).toList ∈ one isLeadingDigit * (one Char.isDigit)∗ := by
      change n.repr.toList ∈ _
      rw [Nat.toList_repr]
      exact toDigits_mem (by omega)
    obtain ⟨_, ⟨c, hLeading, rfl⟩, rest, _, hSplit⟩ := Language.mem_mul.mp hDigits
    rw [← hSplit] at hRead ⊢
    have hFirst : c ≠ '0' := by
      rintro rfl
      cases hLeading
    rw [List.singleton_append] at hRead ⊢
    rw [magnitude?_of_head_ne hFirst]
    exact hRead

theorem integer?_of_magnitude (hText : cs ∈ magnitude) : integer? cs = magnitude? cs := by
  have hMinus : '-' ∉ cs := not_mem_of_mem_magnitude (by decide) hText
  have hPlus : '+' ∉ cs := not_mem_of_mem_magnitude (by decide) hText
  unfold integer?
  split
  · exact absurd List.mem_cons_self hMinus
  · exact absurd List.mem_cons_self hPlus
  · rfl

theorem integerValue?_toString {v : Int} (hRange : v.natAbs < 0x8000000000000000) :
    integerValue? (toString v) = some v := by
  cases v with
  | ofNat n =>
    exact (integer?_of_magnitude (toString_mem_magnitude n)).trans (magnitude?_toString hRange)
  | negSucc n =>
    have hText : (toString (Int.negSucc n)).toList = '-' :: (toString (n + 1)).toList :=
      String.toList_append
    have hRead : magnitude? (toString (n + 1)).toList = some ((n + 1 : Nat) : Int) :=
      magnitude?_toString hRange
    rw [integerValue?, hText, integer?, hRead]
    rfl

theorem signed?_bounds {base : Nat} {v : Int} (hMinus : '-' ∉ cs)
    (hValue : Text.signed? base cs = some v) : v.natAbs < 0x8000000000000000 := by
  unfold Text.signed? at hValue
  obtain ⟨hRead, hRange⟩ := Option.filter_eq_some_iff.mp hValue
  have hUpper := (of_decide_eq_true hRange).2
  have hNonneg : 0 ≤ v := by
    split at hRead
    · obtain ⟨n, _, rfl⟩ := Option.map_eq_some_iff.mp hRead
      exact Int.natCast_nonneg n
    · exact absurd List.mem_cons_self hMinus
    · obtain ⟨n, _, rfl⟩ := Option.map_eq_some_iff.mp hRead
      exact Int.natCast_nonneg n
  omega

theorem magnitude?_bounds {v : Int} (hMinus : '-' ∉ cs) (hValue : magnitude? cs = some v) :
    v.natAbs < 0x8000000000000000 := by
  unfold magnitude? at hValue
  split at hValue
  · exact signed?_bounds (fun hMem => hMinus (by simp [hMem])) hValue
  · exact signed?_bounds (fun hMem => hMinus (by simp [hMem])) hValue
  · exact signed?_bounds (fun hMem => hMinus (List.mem_cons_of_mem _ hMem)) hValue
  · exact signed?_bounds hMinus hValue

/-- The least number of 64 bits is not the value of a constant. -/
theorem integer?_bounds {v : Int} (hText : cs ∈ integer) (hValue : integer? cs = some v) :
    v.natAbs < 0x8000000000000000 := by
  obtain ⟨sign, digits, rfl, hSign, hDigits⟩ := exists_of_mem_integer hText
  have hMinus : '-' ∉ digits := not_mem_of_mem_magnitude (by decide) hDigits
  simp only [List.mem_cons, List.not_mem_nil, or_false] at hSign
  rcases hSign with rfl | rfl | rfl
  · rw [List.nil_append, integer?_of_magnitude hDigits] at hValue
    exact magnitude?_bounds hMinus hValue
  · exact magnitude?_bounds hMinus hValue
  · obtain ⟨w, hMagnitude, rfl⟩ := Option.map_eq_some_iff.mp hValue
    rw [Int.natAbs_neg]
    exact magnitude?_bounds hMinus hMagnitude

end MipsAsm.Token
