import MipsAsm.Memory.Image

/-! # Images as maps from addresses to bytes

Every address has a byte, which is 0 past the end of the buffer. In this view growing the buffer
cannot be seen, and a block of bytes that is written changes just the addresses it takes.
-/

namespace MipsAsm.Memory.Image

def byteAt (m : Image) (index : Nat) : UInt8 :=
  m.bytes[index]?.getD 0

theorem getElem?_of_lt_capacity (m : Image) {index : Nat} (hIndex : index < m.capacity) :
    m.bytes[index]? = some (m.byteAt index) := by
  have hSize : index < m.bytes.size := hIndex
  rw [byteAt, Array.getElem?_eq_getElem hSize, Option.getD_some]

/-! ## Growth -/

theorem lt_size_grow (bytes : Array UInt8) (index : Nat) : index < (grow bytes index).size := by
  rw [grow]
  split
  · assumption
  · simp only [Array.size_append, Array.size_replicate, grownCapacity]
    omega

theorem size_le_size_grow (bytes : Array UInt8) (index : Nat) :
    bytes.size ≤ (grow bytes index).size := by
  rw [grow]
  split
  · exact Nat.le_refl _
  · rw [Array.size_append]
    exact Nat.le_add_right _ _

theorem getD_grow (bytes : Array UInt8) (index i : Nat) :
    (grow bytes index)[i]?.getD 0 = bytes[i]?.getD 0 := by
  rw [grow]
  split
  · rfl
  · rcases Nat.lt_or_ge i bytes.size with hOld | hNew
    · rw [Array.getElem?_append_left hOld]
    · rw [Array.getElem?_append_right hNew, Array.getElem?_eq_none hNew, Array.getElem?_replicate]
      split <;> rfl

/-! ## One byte -/

theorem byteAt_writeByte (m : Image) (address : UInt32) (value : UInt8) (i : Nat) :
    (m.writeByte address value).byteAt i = if i = address.toNat then value else m.byteAt i := by
  have hSize := lt_size_grow m.bytes address.toNat
  simp only [byteAt, writeByte, Array.getElem?_setIfInBounds]
  by_cases hAddress : i = address.toNat
  · subst hAddress
    simp [hSize]
  · rw [if_neg (Ne.symm hAddress), if_neg hAddress, getD_grow]

theorem size_writeByte (m : Image) (address : UInt32) (value : UInt8) :
    (m.writeByte address value).bytes.size = (grow m.bytes address.toNat).size :=
  Array.size_setIfInBounds

theorem size_clearFrom (bytes : Array UInt8) (start : Nat) :
    (clearFrom bytes start).size = bytes.size := by
  simp only [clearFrom, Array.size_append, Array.size_extract, Array.size_replicate]
  omega

/-! ## Blocks -/

/-- Writing touches nothing but the buffer. -/
theorem writeBytes_eq (m : Image) (address : UInt32) (bs : List UInt8) :
    m.writeBytes address bs = { m with bytes := (m.writeBytes address bs).bytes } := by
  induction bs generalizing m address with
  | nil => rfl
  | cons b bs ih => exact ih (m.writeByte address b) (address + 1)

theorem toNat_add_one {address : UInt32} (hTop : address.toNat + 1 < 0x100000000) :
    (address + 1).toNat = address.toNat + 1 := by
  rw [UInt32.toNat_add, UInt32.toNat_one, Nat.mod_eq_of_lt hTop]

theorem add_one_add_ofNat (address : UInt32) (n : Nat) :
    address + 1 + UInt32.ofNat n = address + UInt32.ofNat (n + 1) := by
  rw [UInt32.ofNat_add, UInt32.add_assoc, UInt32.add_comm 1]
  rfl

/-- Two blocks written one behind the other are one block. -/
theorem writeBytes_append (m : Image) (address : UInt32) (bs cs : List UInt8) :
    m.writeBytes address (bs ++ cs) =
      (m.writeBytes address bs).writeBytes (address + UInt32.ofNat bs.length) cs := by
  induction bs generalizing m address with
  | nil => simp [writeBytes]
  | cons b bs ih =>
    rw [List.cons_append, writeBytes, ih, writeBytes, add_one_add_ofNat, List.length_cons]

/-- A block that does not reach past the address space changes the addresses it takes and no
others. -/
theorem byteAt_writeBytes (m : Image) (address : UInt32) (bs : List UInt8) (i : Nat)
    (hFit : address.toNat + bs.length ≤ 0x100000000) :
    (m.writeBytes address bs).byteAt i =
      if address.toNat ≤ i ∧ i < address.toNat + bs.length then bs[i - address.toNat]?.getD 0
      else m.byteAt i := by
  induction bs generalizing m address with
  | nil => rw [writeBytes, if_neg (by simp)]
  | cons b bs ih =>
    rw [writeBytes]
    rw [List.length_cons] at hFit ⊢
    cases bs with
    | nil =>
      rw [writeBytes, byteAt_writeByte]
      by_cases hFirst : i = address.toNat
      · rw [if_pos hFirst, if_pos (by simp [hFirst]), hFirst, Nat.sub_self]
        rfl
      · rw [if_neg hFirst, if_neg (by simp; omega)]
    | cons c cs =>
      -- the tail starts one address higher, which is still inside the address space
      have hNext : (address + 1).toNat = address.toNat + 1 := by
        apply toNat_add_one
        rw [List.length_cons] at hFit
        omega
      rw [ih _ _ (by rw [hNext]; omega), byteAt_writeByte, hNext]
      by_cases hFirst : i = address.toNat
      · rw [if_neg (by omega), if_pos hFirst, if_pos (by omega), hFirst, Nat.sub_self]
        rfl
      · by_cases hTail : address.toNat + 1 ≤ i ∧ i < address.toNat + 1 + (c :: cs).length
        · have hIndex : i - address.toNat = i - (address.toNat + 1) + 1 := by omega
          rw [if_pos hTail, if_pos (by omega), hIndex, List.getElem?_cons_succ]
        · rw [if_neg hTail, if_neg hFirst, if_neg (by omega)]

theorem capacity_le_writeBytes (m : Image) (address : UInt32) (bs : List UInt8) :
    m.capacity ≤ (m.writeBytes address bs).capacity := by
  induction bs generalizing m address with
  | nil => exact Nat.le_refl _
  | cons b bs ih =>
    have hFirst : m.capacity ≤ (m.writeByte address b).capacity := by
      rw [capacity, capacity, size_writeByte]
      exact size_le_size_grow _ _
    exact Nat.le_trans hFirst (ih _ _)

/-- A block that is not empty lies in the buffer once it is written. -/
theorem le_capacity_writeBytes (m : Image) (address : UInt32) (bs : List UInt8)
    (hFit : address.toNat + bs.length ≤ 0x100000000) (hSome : bs ≠ []) :
    address.toNat + bs.length ≤ (m.writeBytes address bs).capacity := by
  induction bs generalizing m address with
  | nil => exact absurd rfl hSome
  | cons b bs ih =>
    rw [writeBytes]
    rw [List.length_cons] at hFit ⊢
    cases bs with
    | nil =>
      have hSize := lt_size_grow m.bytes address.toNat
      rw [← size_writeByte m address b] at hSize
      exact hSize
    | cons c cs =>
      have hNext : (address + 1).toNat = address.toNat + 1 := by
        apply toNat_add_one
        rw [List.length_cons] at hFit
        omega
      have hRest := ih (m.writeByte address b) (address + 1) (by rw [hNext]; omega) (by simp)
      rw [hNext] at hRest
      omega

theorem readBytes_eq_some {m : Image} {address : UInt32} {bs : List UInt8}
    (hWithin : address.toNat + bs.length ≤ m.capacity)
    (hBytes : ∀ k < bs.length, m.bytes[address.toNat + k]? = bs[k]?) :
    m.readBytes address bs.length = some bs := by
  rw [capacity] at hWithin
  rw [readBytes, if_pos hWithin, Option.some.injEq]
  apply List.ext_getElem?
  intro k
  rw [Array.getElem?_toList, Array.getElem?_extract, Nat.min_eq_left hWithin,
    Nat.add_sub_cancel_left]
  split
  · rename_i hLt
    exact hBytes k hLt
  · rename_i hGe
    exact (List.getElem?_eq_none (Nat.not_lt.mp hGe)).symm

/-- A block that was written is read back. -/
theorem readBytes_writeBytes (m : Image) (address : UInt32) {bs : List UInt8}
    (hFit : address.toNat + bs.length ≤ 0x100000000) (hSome : bs ≠ []) :
    (m.writeBytes address bs).readBytes address bs.length = some bs := by
  have hWithin := le_capacity_writeBytes m address bs hFit hSome
  apply readBytes_eq_some hWithin
  intro k hIndex
  rw [getElem?_of_lt_capacity _ (by omega), byteAt_writeBytes _ _ _ _ hFit, if_pos (by omega),
    Nat.add_sub_cancel_left, List.getElem?_eq_getElem hIndex, Option.getD_some]

/-- A block leaves the bytes around it as they are. -/
theorem readByte_writeBytes (m : Image) (address : UInt32) {bs : List UInt8} {a : UInt32} {b : UInt8}
    (hFit : address.toNat + bs.length ≤ 0x100000000)
    (hOutside : ¬(address.toNat ≤ a.toNat ∧ a.toNat < address.toNat + bs.length))
    (hRead : m.readByte a = some b) : (m.writeBytes address bs).readByte a = some b := by
  have hInside : a.toNat < m.capacity := (Array.getElem?_eq_some_iff.mp hRead).1
  have hStill := Nat.lt_of_lt_of_le hInside (m.capacity_le_writeBytes address bs)
  rw [readByte, getElem?_of_lt_capacity m hInside] at hRead
  rw [readByte, getElem?_of_lt_capacity _ hStill, byteAt_writeBytes _ _ _ _ hFit,
    if_neg hOutside, hRead]

/-! ## Reading parts of a block -/

section Parts

variable {m : Image} {address : UInt32}

theorem getElem?_of_readBytes {bs : List UInt8} (hRead : m.readBytes address bs.length = some bs) :
    address.toNat + bs.length ≤ m.capacity ∧
      ∀ k < bs.length, m.bytes[address.toNat + k]? = bs[k]? := by
  rw [readBytes] at hRead
  split at hRead
  · rename_i hWithin
    refine ⟨hWithin, fun k hIndex => ?_⟩
    have hBytes := congrArg (fun list : List UInt8 => list[k]?) (Option.some.inj hRead)
    simp only [Array.getElem?_toList, Array.getElem?_extract] at hBytes
    rw [if_pos (by omega)] at hBytes
    exact hBytes
  · cases hRead

theorem readBytes_one {bs : List UInt8} (hRead : m.readBytes address 1 = some bs) :
    ∃ b, bs = [b] ∧ m.readByte address = some b := by
  rw [readBytes] at hRead
  split at hRead
  · rename_i hWithin
    have hHere : address.toNat < m.bytes.size := hWithin
    refine ⟨m.bytes[address.toNat], ?_, Array.getElem?_eq_getElem hHere⟩
    rw [← Option.some.inj hRead, Array.toList_extract, List.extract_eq_take_drop,
      Nat.add_sub_cancel_left, List.drop_eq_getElem_cons hHere]
    simp
  · cases hRead

theorem readBytes_part {xs ys zs : List UInt8}
    (hFit : address.toNat + (xs ++ (ys ++ zs)).length < 0x100000000)
    (hRead : m.readBytes address (xs ++ (ys ++ zs)).length = some (xs ++ (ys ++ zs))) :
    m.readBytes (address + UInt32.ofNat xs.length) ys.length = some ys := by
  obtain ⟨hWithin, hBytes⟩ := getElem?_of_readBytes hRead
  simp only [List.length_append] at hFit hWithin hBytes
  have hStart : (address + UInt32.ofNat xs.length).toNat = address.toNat + xs.length := by
    rw [UInt32.toNat_add, UInt32.toNat_ofNat_of_lt' (by simp only [UInt32.size]; omega),
      Nat.mod_eq_of_lt (by omega)]
  apply readBytes_eq_some
  · rw [hStart]
    omega
  · intro k hIndex
    rw [hStart, Nat.add_assoc, hBytes _ (by omega), List.getElem?_append_right (by omega),
      Nat.add_sub_cancel_left, List.getElem?_append_left hIndex]

end Parts

end MipsAsm.Memory.Image
