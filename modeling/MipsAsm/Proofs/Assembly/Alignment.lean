import Mathlib.Order.Bounds.Basic
import MipsAsm.Proofs.Assembly.Effect

/-! # Alignment near the top of memory

An address moves up to the least multiple of the alignment. Whether that multiple is an address is
decided by a sum that may be larger than the multiple itself. For alignments that divide the size
of the address space the two come to the same: no multiple lies between the sum and the top. For
powers of two, the multiple is the sum with its low bits cleared.
-/

namespace MipsAsm

/-! ## Least multiples -/

/-- The number moved up to a multiple. -/
def ceiling (alignment n : Nat) : Nat :=
  (n + (alignment - 1)) / alignment * alignment

section Ceiling

variable {alignment n : Nat}

theorem ceiling_bounds (hPositive : 0 < alignment) (n : Nat) :
    ceiling alignment n ≤ n + (alignment - 1) ∧ n + (alignment - 1) < ceiling alignment n + alignment := by
  have hSum := Nat.div_add_mod (n + (alignment - 1)) alignment
  have hRest := Nat.mod_lt (n + (alignment - 1)) hPositive
  rw [Nat.mul_comm] at hSum
  rw [ceiling]
  omega

theorem isLeast_ceiling (hPositive : 0 < alignment) (n : Nat) :
    IsLeast {k | alignment ∣ k ∧ n ≤ k} (ceiling alignment n) := by
  have hBounds := ceiling_bounds hPositive n
  refine ⟨⟨Nat.dvd_mul_left _ _, by omega⟩, ?_⟩
  rintro k ⟨⟨j, rfl⟩, hLe⟩
  -- the quotient of the sum is at most the quotient of any multiple that is not below
  have hSucc : (j + 1) * alignment = alignment * j + alignment := by
    rw [Nat.succ_mul, Nat.mul_comm]
  have hQuotient : (n + (alignment - 1)) / alignment < j + 1 := by
    rw [Nat.div_lt_iff_lt_mul hPositive, hSucc]
    omega
  rw [ceiling, Nat.mul_comm]
  exact Nat.mul_le_mul_left alignment (Nat.le_of_lt_succ hQuotient)

theorem ceiling_mono (hPositive : 0 < alignment) {m : Nat} (hLe : m ≤ n) :
    ceiling alignment m ≤ ceiling alignment n := by
  obtain ⟨hMultiple, hAbove⟩ := (isLeast_ceiling hPositive n).1
  exact (isLeast_ceiling hPositive m).2 ⟨hMultiple, hLe.trans hAbove⟩

theorem ceiling_of_dvd (hPositive : 0 < alignment) (hMultiple : alignment ∣ n) :
    ceiling alignment n = n := by
  have hLeast : IsLeast {k | alignment ∣ k ∧ n ≤ k} n :=
    ⟨⟨hMultiple, Nat.le_refl n⟩, fun k hMem => hMem.2⟩
  exact (isLeast_ceiling hPositive n).unique hLeast

/-- Between the sum and the next multiple there is no room for the top of a range that is a
multiple itself. -/
theorem reach_lt_iff (hPositive : 0 < alignment) {top : Nat} (hTop : alignment ∣ top) (n : Nat) :
    n + (alignment - 1) < top ↔ ceiling alignment n < top := by
  have hBounds := ceiling_bounds hPositive n
  constructor
  · intro hReach
    omega
  · intro hCeiling
    obtain ⟨i, hI⟩ := hTop
    obtain ⟨j, hJ⟩ := (isLeast_ceiling hPositive n).1.1
    rw [hI, hJ] at hCeiling
    have hQuotients : j + 1 ≤ i := Nat.lt_of_mul_lt_mul_left hCeiling
    have hNext := Nat.mul_le_mul_left alignment hQuotients
    rw [Nat.mul_succ] at hNext
    omega

end Ceiling

/-! ## Alignments of statements -/

section Exponent

variable {exponent : Nat}

theorem one_shiftLeft_pos (exponent : Nat) : 0 < 1 <<< exponent := by
  rw [Nat.one_shiftLeft]
  exact Nat.two_pow_pos exponent

theorem shiftLeft_dvd_top (hExponent : exponent ≤ 16) : 1 <<< exponent ∣ 0x100000000 := by
  revert exponent
  decide

theorem alignUp_eq (hExponent : exponent ≤ 16) (pc : UInt32) : alignUp pc (1 <<< exponent) =
    if ceiling (1 <<< exponent) pc.toNat < 0x100000000 then
      .ok (UInt32.ofNat (ceiling (1 <<< exponent) pc.toNat))
    else .error (.addressOverflow (pc.toNat + (1 <<< exponent : Nat) - 1)) := by
  have hPositive := one_shiftLeft_pos exponent
  have hReach := reach_lt_iff hPositive (shiftLeft_dvd_top hExponent) pc.toNat
  by_cases hFits : ceiling (1 <<< exponent) pc.toNat < 0x100000000
  · rw [if_pos hFits]
    exact if_pos (hReach.mpr hFits)
  · have hSum : ((pc.toNat + (1 <<< exponent - 1) : Nat) : Int) =
        pc.toNat + (1 <<< exponent : Nat) - 1 := by
      omega
    rw [if_neg hFits, ← hSum]
    exact if_neg fun hFit => hFits (hReach.mp hFit)

theorem toNat_of_alignUp (hExponent : exponent ≤ 16) {pc q : UInt32}
    (hAlign : alignUp pc (1 <<< exponent) = .ok q) :
    q.toNat = ceiling (1 <<< exponent) pc.toNat := by
  rw [alignUp_eq hExponent] at hAlign
  split at hAlign
  · rename_i hFits
    cases hAlign
    exact UInt32.toNat_ofNat_of_lt' hFits
  · cases hAlign

theorem alignUp_of_toNat (hExponent : exponent ≤ 16) {pc q : UInt32}
    (hCeiling : ceiling (1 <<< exponent) pc.toNat = q.toNat) :
    alignUp pc (1 <<< exponent) = .ok q := by
  rw [alignUp_eq hExponent, hCeiling, if_pos q.toNat_lt, UInt32.ofNat_toNat]

/-- Aligning a lower address succeeds if aligning a higher one does, and gives no more. -/
theorem alignUp_mono (hExponent : exponent ≤ 16) {low high q : UInt32} (hLe : low ≤ high)
    (hAlign : alignUp high (1 <<< exponent) = .ok q) :
    ∃ p, alignUp low (1 <<< exponent) = .ok p ∧ p ≤ q := by
  have hCeiling := toNat_of_alignUp hExponent hAlign
  have hBelow := ceiling_mono (one_shiftLeft_pos exponent) (UInt32.le_iff_toNat_le.mp hLe)
  have hFits : ceiling (1 <<< exponent) low.toNat < 0x100000000 := by
    have hBound := q.toNat_lt
    omega
  refine ⟨UInt32.ofNat (ceiling (1 <<< exponent) low.toNat), ?_, ?_⟩
  · rw [alignUp_eq hExponent, if_pos hFits]
  · rw [UInt32.le_iff_toNat_le, UInt32.toNat_ofNat_of_lt' hFits, hCeiling]
    exact hBelow

theorem alignUp_idem (hExponent : exponent ≤ 16) {pc q : UInt32}
    (hAlign : alignUp pc (1 <<< exponent) = .ok q) : alignUp q (1 <<< exponent) = .ok q := by
  have hPositive := one_shiftLeft_pos exponent
  apply alignUp_of_toNat hExponent
  rw [toNat_of_alignUp hExponent hAlign]
  exact ceiling_of_dvd hPositive (isLeast_ceiling hPositive pc.toNat).1.1

/-! ## Masks -/

/-- The sum with the alignment's low bits cleared, if the sum is an address. -/
def maskUp (pc alignment : UInt32) : Option UInt32 :=
  let mask := max alignment 1 - 1
  if pc.toNat + mask.toNat < 0x100000000 then some ((pc + mask) &&& ~~~mask) else none

/-- Clearing the low bits of a word rounds it down. -/
theorem toNat_and_not {mask : UInt32} (hMask : mask.toNat = 1 <<< exponent - 1) (x : UInt32) :
    (x &&& ~~~mask).toNat = x.toNat / 1 <<< exponent * 1 <<< exponent := by
  have hLow : ∀ i, mask.toBitVec.getLsbD i = decide (i < exponent) := by
    intro i
    rw [← BitVec.testBit_toNat, UInt32.toNat_toBitVec, hMask, Nat.one_shiftLeft,
      Nat.testBit_two_pow_sub_one]
  apply Nat.eq_of_testBit_eq
  intro i
  rw [← UInt32.toNat_toBitVec, BitVec.testBit_toNat, UInt32.toBitVec_and, UInt32.toBitVec_not,
    BitVec.getLsbD_and, BitVec.getLsbD_not, hLow, Nat.one_shiftLeft, ← Nat.shiftRight_eq_div_pow,
    ← Nat.shiftLeft_eq, Nat.testBit_shiftLeft, Nat.testBit_shiftRight, ← UInt32.toNat_toBitVec,
    BitVec.testBit_toNat]
  by_cases hBit : i < exponent
  · simp [hBit]
  · by_cases hWord : i < 32
    · simp [hWord, Nat.le_of_not_lt hBit]
    · simp [hWord, Nat.le_of_not_lt hBit, x.toBitVec.getLsbD_of_ge i (Nat.le_of_not_lt hWord)]

theorem toNat_mask (hExponent : exponent ≤ 16) :
    (max (UInt32.ofNat (1 <<< exponent)) 1 - 1).toNat = 1 <<< exponent - 1 := by
  revert exponent
  decide

theorem maskUp_eq_some_iff (hExponent : exponent ≤ 16) (pc q : UInt32) :
    maskUp pc (UInt32.ofNat (1 <<< exponent)) = some q ↔ alignUp pc (1 <<< exponent) = .ok q := by
  have hMask := toNat_mask hExponent
  rw [maskUp, alignUp]
  generalize max (UInt32.ofNat (1 <<< exponent)) 1 - 1 = mask at hMask
  simp only [hMask]
  by_cases hReach : pc.toNat + (1 <<< exponent - 1) < 0x100000000
  · have hSum : (pc + mask).toNat = pc.toNat + (1 <<< exponent - 1) := by
      rw [UInt32.toNat_add, hMask, Nat.mod_eq_of_lt hReach]
    have hCleared : (pc + mask) &&& ~~~mask =
        UInt32.ofNat ((pc.toNat + (1 <<< exponent - 1)) / 1 <<< exponent * 1 <<< exponent) := by
      rw [← hSum, ← toNat_and_not hMask, UInt32.ofNat_toNat]
    rw [if_pos hReach, if_pos hReach, hCleared, Option.some.injEq, Except.ok.injEq]
  · rw [if_neg hReach, if_neg hReach]
    simp

end Exponent

/-! ## Cursors -/

/-- What aligning to a power of two does, to addresses and to the cursor of a run. -/
structure AlignsExactly (exponent : Nat) : Prop where
  /-- There is a least multiple, and the result hangs on nothing but whether it is an address. -/
  least : ∀ pc : UInt32, ∃ m, IsLeast {k | 1 <<< exponent ∣ k ∧ pc.toNat ≤ k} m ∧
    alignUp pc (1 <<< exponent) =
      if m ≤ 0xFFFFFFFF then .ok (UInt32.ofNat m)
      else .error (.addressOverflow (pc.toNat + (1 <<< exponent : Nat) - 1))
  monotone : ∀ low high q : UInt32, low ≤ high → alignUp high (1 <<< exponent) = .ok q →
    ∃ p, alignUp low (1 <<< exponent) = .ok p ∧ p ≤ q
  idempotent : ∀ pc q : UInt32, alignUp pc (1 <<< exponent) = .ok q →
    alignUp q (1 <<< exponent) = .ok q
  masked : ∀ pc q : UInt32, maskUp pc (UInt32.ofNat (1 <<< exponent)) = some q ↔
    alignUp pc (1 <<< exponent) = .ok q
  moves : ∀ (a : Assembly) (pos : Position) (q : UInt32), alignUp a.pc (1 <<< exponent) = .ok q →
    Assemble.align (1 <<< exponent) pos a = .ok () (a.movedTo q)
  stays : ∀ (a : Assembly) (pos : Position) (names : List Token) (cause : Cause),
    alignUp a.pc (1 <<< exponent) = .error cause →
      Assemble.align (1 <<< exponent) pos a = .error (cause.located pos) a ∧
        Assemble.directive names pos (.align exponent) a = .error (cause.located pos) a

/-- **Alignment is least and exact**, for every address up to the top of memory. -/
theorem aligns_exactly {exponent : Nat} (hExponent : exponent ≤ 16) : AlignsExactly exponent where
  least pc := by
    refine ⟨_, isLeast_ceiling (one_shiftLeft_pos exponent) pc.toNat, ?_⟩
    rw [alignUp_eq hExponent]
    exact if_congr Nat.lt_succ_iff rfl rfl
  monotone low high q := alignUp_mono hExponent
  idempotent pc q := alignUp_idem hExponent
  masked := maskUp_eq_some_iff hExponent
  moves a pos q hAlign := by
    rw [Assemble.align, hAlign]
    rfl
  stays a pos names cause hAlign := by
    have hFailed : Assemble.align (1 <<< exponent) pos a = .error (cause.located pos) a := by
      rw [Assemble.align, hAlign]
    exact ⟨hFailed, Outcome.run_bind_of_error hFailed⟩

/-- The last multiple is reached, and one address further the next one is the top of memory. -/
theorem aligns_exactly_top : 16 ≤ 16 ∧ AlignsExactly 16 ∧
    alignUp 0xFFFEFFFF (1 <<< 16) = .ok 0xFFFF0000 ∧ alignUp 0xFFFF0000 (1 <<< 16) = .ok 0xFFFF0000 ∧
    alignUp 0xFFFF0001 (1 <<< 16) = .error (.addressOverflow 0x100000000) := by
  have hTop : (((0xFFFF0001 : UInt32).toNat : Int) + (1 <<< 16 : Nat) - 1) = 0x100000000 := by
    decide
  refine ⟨Nat.le_refl 16, aligns_exactly (Nat.le_refl 16),
    alignUp_of_toNat (Nat.le_refl 16) (by decide), alignUp_of_toNat (Nat.le_refl 16) (by decide), ?_⟩
  rw [alignUp_eq (Nat.le_refl 16), hTop]
  exact if_neg (by decide)

end MipsAsm
