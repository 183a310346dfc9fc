import Mathlib.Data.Nat.Digits.Defs
import MipsAsm.Proofs.Text.Lines
import MipsAsm.Text.Numeral

/-! # Numerals read back

The digits that are written for a number are read as that number, in decimal and in hexadecimal,
with any number of zeros in front. A sign is no digit, so the readers that accept one give the same
value for a numeral without. What digits spell is said by the places of the digits, apart from both
readers and writers.
-/

namespace MipsAsm.Text

/-! ## Digits -/

/-- A digit of any base is a letter or a decimal digit. -/
theorem ranges_of_digit? {base d : Nat} {c : Char} (hDigit : digit? base c = some d) :
    (48 ≤ c.toNat ∧ c.toNat ≤ 57) ∨ (97 ≤ c.toNat ∧ c.toNat ≤ 122) ∨
      (65 ≤ c.toNat ∧ c.toNat ≤ 90) := by
  rw [digit?, Option.filter_eq_some_iff] at hDigit
  have hValue := hDigit.1
  split at hValue
  · rename_i hRange
    exact Or.inl hRange
  · split at hValue
    · rename_i hRange
      exact Or.inr (Or.inl hRange)
    · split at hValue
      · rename_i hRange
        exact Or.inr (Or.inr hRange)
      · cases hValue

theorem digit?_ten_digitChar {d : Nat} (hDigit : d < 10) : digit? 10 d.digitChar = some d := by
  revert d
  decide

theorem digit?_sixteen_toUpper {d : Nat} (hDigit : d < 16) :
    digit? 16 d.digitChar.toUpper = some d := by
  revert d
  decide

/-! ## Runs of digits -/

theorem natural?_eq_some_iff {base n : Nat} {cs : List Char} :
    natural? base cs = some n ↔
      cs ≠ [] ∧ ∃ ds, cs.mapM (digit? base) = some ds ∧ ofDigits base ds = n := by
  rw [natural?]
  split
  · rename_i hEmpty
    simp [List.isEmpty_iff.mp hEmpty]
  · rename_i hEmpty
    have hSome : cs ≠ [] := fun hNil => hEmpty (List.isEmpty_iff.mpr hNil)
    simp [hSome]

theorem natural?_singleton {base d : Nat} {c : Char} (hDigit : digit? base c = some d) :
    natural? base [c] = some d := by
  rw [natural?_eq_some_iff]
  exact ⟨List.cons_ne_nil _ _, [d], by simp [hDigit], by simp [ofDigits]⟩

/-- A digit behind the others counts once, and each of the others `base` times as much. -/
theorem natural?_append_singleton {base n d : Nat} {cs : List Char} {c : Char}
    (hFront : natural? base cs = some n) (hDigit : digit? base c = some d) :
    natural? base (cs ++ [c]) = some (n * base + d) := by
  obtain ⟨_, ds, hDigits, rfl⟩ := natural?_eq_some_iff.mp hFront
  refine natural?_eq_some_iff.mpr ⟨by simp, ds ++ [d], ?_, ?_⟩
  · simp [List.mapM_append, hDigits, hDigit]
  · simp [ofDigits]

theorem natural?_map_toDigits {base : Nat} (hBase : 1 < base) (spell : Char → Char)
    (hSpell : ∀ d < base, digit? base (spell d.digitChar) = some d) (n : Nat) :
    natural? base ((Nat.toDigits base n).map spell) = some n := by
  induction n using Nat.strongRecOn with
  | ind n ih =>
    rcases Nat.lt_or_ge n base with hLt | hGe
    · rw [Nat.toDigits_of_lt_base hLt]
      exact natural?_singleton (hSpell n hLt)
    · have hLower : n / base < n := Nat.div_lt_self (by omega) hBase
      have hDigit : n % base < base := Nat.mod_lt n (by omega)
      rw [Nat.toDigits_of_base_le hBase hGe, List.map_append, List.map_singleton,
        natural?_append_singleton (ih _ hLower) (hSpell _ hDigit), Nat.div_add_mod']

theorem natural?_toString (n : Nat) : natural? 10 (toString n).toList = some n := by
  have hDigits := natural?_map_toDigits (by decide) id
    (fun d hDigit => digit?_ten_digitChar hDigit) n
  rwa [List.map_id, ← Nat.toList_repr] at hDigits

theorem natural?_upperHex (n : Nat) : natural? 16 (upperHex n).toList = some n := by
  rw [upperHex, String.toList_ofList]
  exact natural?_map_toDigits (by decide) _ (fun d hDigit => digit?_sixteen_toUpper hDigit) n

theorem natural?_zero_cons {base n : Nat} {cs : List Char} (hBase : 0 < base)
    (hDigits : natural? base cs = some n) : natural? base ('0' :: cs) = some n := by
  obtain ⟨_, ds, hRead, rfl⟩ := natural?_eq_some_iff.mp hDigits
  have hZero : digit? base '0' = some 0 := by
    rw [digit?, Option.filter_eq_some_iff]
    exact ⟨rfl, decide_eq_true hBase⟩
  refine natural?_eq_some_iff.mpr ⟨List.cons_ne_nil _ _, 0 :: ds, ?_, ?_⟩
  · simp [hZero, hRead]
  · simp [ofDigits]

theorem natural?_leftpad {base n : Nat} {cs : List Char} (hBase : 0 < base) (width : Nat)
    (hDigits : natural? base cs = some n) : natural? base (cs.leftpad width '0') = some n := by
  rw [List.leftpad]
  induction width - cs.length with
  | zero => exact hDigits
  | succ k ih =>
    rw [List.replicate_succ, List.cons_append]
    exact natural?_zero_cons hBase ih

theorem natural?_paddedHex (width n : Nat) : natural? 16 (paddedHex width n).toList = some n := by
  rw [paddedHex, padLeft, String.toList_ofList]
  exact natural?_leftpad (by decide) width (natural?_upperHex n)

theorem exists_digit?_of_mapM {base : Nat} {cs : List Char} {ds : List Nat}
    (hRead : cs.mapM (digit? base) = some ds) : ∀ c ∈ cs, ∃ d, digit? base c = some d := by
  induction cs generalizing ds with
  | nil => simp
  | cons c cs ih =>
    simp only [List.mapM_cons, Option.bind_eq_bind, Option.bind_eq_some_iff] at hRead
    obtain ⟨d, hHead, rest, hTail, _⟩ := hRead
    intro e hMem
    rcases List.mem_cons.mp hMem with rfl | hRest
    · exact ⟨d, hHead⟩
    · exact ih hTail e hRest

theorem exists_digit?_of_natural? {base n : Nat} {cs : List Char}
    (hDigits : natural? base cs = some n) : ∀ c ∈ cs, ∃ d, digit? base c = some d := by
  obtain ⟨_, ds, hRead, _⟩ := natural?_eq_some_iff.mp hDigits
  exact exists_digit?_of_mapM hRead

/-! ## Place values -/

/-- The value of a digit is its place among the sixteen. -/
def digitValue (c : Char) : Nat :=
  "0123456789abcdef".toList.idxOf c.toLower

/-- The number whose digits these are, the last of which counts once. -/
def numeral (base : Nat) (digits : List Char) : Nat :=
  Nat.ofDigits base (digits.map digitValue).reverse

theorem ofDigits_eq (base : Nat) (ds : List Nat) :
    ofDigits base ds = Nat.ofDigits base ds.reverse := by
  rw [Nat.ofDigits_eq_foldr, List.foldr_reverse, ofDigits]
  congr
  funext n d
  rw [Nat.cast_id, Nat.add_comm, Nat.mul_comm]

theorem mapM_eq_map {α β : Type} {f : α → Option β} {g : α → β} {xs : List α}
    (hEach : ∀ x ∈ xs, f x = some (g x)) : xs.mapM f = some (xs.map g) := by
  induction xs with
  | nil => rfl
  | cons x xs ih =>
    have hRest := ih fun y hMem => hEach y (List.mem_cons_of_mem x hMem)
    simp [hEach x List.mem_cons_self, hRest]

theorem natural?_of_digits {base : Nat} {digits : List Char} (hSome : digits ≠ [])
    (hDigits : ∀ c ∈ digits, digit? base c = some (digitValue c)) :
    natural? base digits = some (numeral base digits) :=
  natural?_eq_some_iff.mpr ⟨hSome, _, mapM_eq_map hDigits, ofDigits_eq base _⟩

theorem numeral_eq_of_natural? {base n : Nat} {digits : List Char}
    (hDigits : ∀ c ∈ digits, digit? base c = some (digitValue c))
    (hRead : natural? base digits = some n) : numeral base digits = n := by
  have hSome := (natural?_eq_some_iff.mp hRead).1
  exact Option.some.inj ((natural?_of_digits hSome hDigits).symm.trans hRead)

/-! ## Written digits -/

theorem exists_of_mem_toDigits {base n : Nat} (hBase : 1 < base) {c : Char}
    (hMem : c ∈ Nat.toDigits base n) : ∃ d < base, c = d.digitChar := by
  induction n using Nat.strongRecOn with
  | ind n ih =>
    rcases Nat.lt_or_ge n base with hLt | hGe
    · rw [Nat.toDigits_of_lt_base hLt] at hMem
      exact ⟨n, hLt, List.mem_singleton.mp hMem⟩
    · rw [Nat.toDigits_of_base_le hBase hGe] at hMem
      rcases List.mem_append.mp hMem with hFront | hLast
      · exact ih _ (Nat.div_lt_self (by omega) hBase) hFront
      · exact ⟨_, Nat.mod_lt n (by omega), List.mem_singleton.mp hLast⟩

/-- A run of upper case digits of the given length, and the number that it spells. -/
structure SpellsHex (width n : Nat) (digits : List Char) : Prop where
  length : digits.length = width
  upper : ∀ c ∈ digits, c ∈ "0123456789ABCDEF".toList
  value : numeral 16 digits = n

theorem toUpper_digitChar {d : Nat} (hDigit : d < 16) :
    d.digitChar.toUpper ∈ "0123456789ABCDEF".toList ∧
      digit? 16 d.digitChar.toUpper = some (digitValue d.digitChar.toUpper) := by
  revert d
  decide +kernel

theorem length_toDigits_le {width n : Nat} (hWidth : 0 < width) (hFits : n < 1 <<< (4 * width)) :
    (Nat.toDigits 16 n).length ≤ width := by
  rw [Nat.length_toDigits_le_iff (by decide) hWidth]
  rw [Nat.one_shiftLeft, Nat.pow_mul] at hFits
  exact hFits

theorem spellsHex_paddedHex {width n : Nat} (hWidth : 0 < width) (hFits : n < 1 <<< (4 * width)) :
    SpellsHex width n (paddedHex width n).toList := by
  have hEach : ∀ c ∈ (paddedHex width n).toList, ∃ d < 16, c = d.digitChar.toUpper := by
    intro c hMem
    rw [paddedHex, padLeft, upperHex, String.toList_ofList, String.toList_ofList,
      List.leftpad] at hMem
    rcases List.mem_append.mp hMem with hZero | hDigit
    · exact ⟨0, by decide, (List.mem_replicate.mp hZero).2⟩
    · obtain ⟨b, hWritten, rfl⟩ := List.mem_map.mp hDigit
      obtain ⟨d, hLt, rfl⟩ := exists_of_mem_toDigits (by decide) hWritten
      exact ⟨d, hLt, rfl⟩
  constructor
  · have hLength := length_toDigits_le hWidth hFits
    rw [paddedHex, padLeft, upperHex, String.toList_ofList, String.toList_ofList,
      List.length_leftpad, List.length_map]
    omega
  · intro c hMem
    obtain ⟨d, hLt, rfl⟩ := hEach c hMem
    exact (toUpper_digitChar hLt).1
  · refine numeral_eq_of_natural? (fun c hMem => ?_) (natural?_paddedHex width n)
    obtain ⟨d, hLt, rfl⟩ := hEach c hMem
    exact (toUpper_digitChar hLt).2

/-- An address is spelled by eight digits. -/
theorem exists_addressText (address : UInt32) :
    ∃ digits, SpellsHex 8 address.toNat digits ∧
      addressText address = "0x" ++ String.ofList digits :=
  ⟨(paddedHex 8 address.toNat).toList, spellsHex_paddedHex (by decide) address.toNat_lt, by
    rw [String.ofList_toList]
    rfl⟩

/-! ## Readers that accept a sign -/

theorem digit?_plus (base : Nat) : digit? base '+' = none :=
  Option.eq_none_iff_forall_ne_some.mpr fun _ hDigit => absurd (ranges_of_digit? hDigit) (by decide)

theorem digit?_minus (base : Nat) : digit? base '-' = none :=
  Option.eq_none_iff_forall_ne_some.mpr fun _ hDigit => absurd (ranges_of_digit? hDigit) (by decide)

theorem natural?_cons_ne {base n : Nat} {cs : List Char} {c : Char}
    (hDigit : digit? base c = none) : natural? base (c :: cs) ≠ some n := by
  intro hDigits
  obtain ⟨d, hSome⟩ := exists_digit?_of_natural? hDigits c List.mem_cons_self
  rw [hDigit] at hSome
  cases hSome

theorem unsigned?_of_natural? {base bits n : Nat} {cs : List Char}
    (hDigits : natural? base cs = some n) (hBits : n < 1 <<< bits) :
    unsigned? base bits cs = some n := by
  rw [unsigned?, hDigits, Option.filter_some, if_pos (decide_eq_true hBits)]
  rintro rest rfl
  exact natural?_cons_ne (digit?_plus base) hDigits

theorem lt_of_unsigned? {base bits n : Nat} {cs : List Char}
    (hNumber : unsigned? base bits cs = some n) : n < 1 <<< bits := by
  unfold unsigned? at hNumber
  exact of_decide_eq_true (Option.filter_eq_some_iff.mp hNumber).2

theorem signed?_eq_of_natural? {base n : Nat} {cs : List Char}
    (hDigits : natural? base cs = some n) :
    signed? base cs = if n ≤ 0x7FFFFFFFFFFFFFFF then some (n : Int) else none := by
  rw [signed?, hDigits, Option.map_some, Option.filter_some]
  · by_cases hRange : n ≤ 0x7FFFFFFFFFFFFFFF
    · rw [if_pos hRange]
      exact if_pos (decide_eq_true (by simp only [Int.ofNat_eq_natCast]; omega))
    · rw [if_neg hRange]
      exact if_neg (by simp only [decide_eq_true_eq, Int.ofNat_eq_natCast]; omega)
  · rintro rest rfl
    exact natural?_cons_ne (digit?_plus base) hDigits
  · rintro rest rfl
    exact natural?_cons_ne (digit?_minus base) hDigits

theorem signed?_of_natural? {base n : Nat} {cs : List Char} (hDigits : natural? base cs = some n)
    (hRange : n < 0x8000000000000000) : signed? base cs = some (n : Int) := by
  rw [signed?_eq_of_natural? hDigits, if_pos (by omega)]

/-! ## Characters of numerals -/

theorem isBlank_of_digit? {base d : Nat} {c : Char} (hDigit : digit? base c = some d) :
    isBlank c = false := by
  have hRanges := ranges_of_digit? hDigit
  exact isBlank_eq_false (by omega) (by omega)

end MipsAsm.Text
