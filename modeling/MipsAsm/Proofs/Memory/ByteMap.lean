import MipsAsm.Proofs.Memory.Edit

/-! # Images and the history of their bytes

Seen from outside, an image is a map that has a byte at every index. An edit stores bytes at some
indices and leaves all others alone; where nothing was ever stored the byte is 0. The size of the
buffer only tells which indices can be read.
-/

namespace MipsAsm.Memory

/-! ## Numbers and their bytes -/

namespace Endian

/-- Byte `k` of a number that takes `width` bytes, counted from its address. -/
def byteOf (e : Endian) (width n k : Nat) : UInt8 :=
  match e with
  | little => UInt8.ofNat (n >>> (8 * k))
  | big => UInt8.ofNat (n >>> (8 * (width - 1 - k)))

/-- The number that bytes spell, from the lowest address on. -/
def number : Endian → List UInt8 → Nat
  | little, bs => bs.foldr (fun b n => b.toNat + 256 * n) 0
  | big, bs => bs.foldl (fun n b => 256 * n + b.toNat) 0

theorem getElem?_littleBytes {width k : Nat} (n : Nat) (hIndex : k < width) :
    (littleBytes width n)[k]? = some (UInt8.ofNat (n >>> (8 * k))) := by
  induction width generalizing n k with
  | zero => omega
  | succ width ih =>
    cases k with
    | zero => exact congrArg some UInt8.ofNat_mod_size'
    | succ k =>
      rw [littleBytes, List.getElem?_cons_succ, ih (n / 256) (by omega), Nat.mul_succ,
        Nat.add_comm, Nat.shiftRight_add, Nat.shiftRight_eq_div_pow n 8]

theorem getElem?_encode (e : Endian) {width k : Nat} (n : Nat) (hIndex : k < width) :
    (e.encode width n)[k]? = some (e.byteOf width n k) := by
  cases e with
  | little => exact getElem?_littleBytes n hIndex
  | big =>
    rw [encode, arrange, List.getElem?_reverse (by simpa using hIndex), length_littleBytes]
    exact getElem?_littleBytes n (by omega)

theorem decode_eq_number (e : Endian) (bs : List UInt8) : e.decode bs = e.number bs := by
  have hValue : ∀ cs : List UInt8, littleValue cs = cs.foldr (fun b n => b.toNat + 256 * n) 0 := by
    intro cs
    induction cs with
    | nil => rfl
    | cons c cs ih => rw [littleValue, ih, List.foldr_cons]
  cases e with
  | little => exact hValue bs
  | big =>
    rw [decode, arrange, hValue, List.foldr_reverse, number]
    simp only [Nat.add_comm]

end Endian

/-! ## What an edit stores -/

namespace Edit

/-- No address of the edit is past the end of the address space. -/
def InRange : Edit → Prop
  | writeBytes address bytes => address.toNat + bytes.length ≤ 0x100000000
  | writeHalf address _ => address.toNat + 2 ≤ 0x100000000
  | writeWord address _ => address.toNat + 4 ≤ 0x100000000
  | _ => True

/-- The edit stores a byte at the index. Opening a text segment does so from its start on. -/
def Touches (index : Nat) : Edit → Prop
  | openText address => (clampAddress address).toNat ≤ index
  | writeByte address _ => index = address.toNat
  | writeBytes address bytes => address.toNat ≤ index ∧ index < address.toNat + bytes.length
  | writeHalf address _ => address.toNat ≤ index ∧ index < address.toNat + 2
  | writeWord address _ => address.toNat ≤ index ∧ index < address.toNat + 4
  | load bytes => index < bytes.size
  | _ => False

/-- The byte that the edit stores at an index that it touches. -/
def byte (order : Endian) (index : Nat) : Edit → UInt8
  | writeByte _ value => value
  | writeBytes address bytes => bytes[index - address.toNat]?.getD 0
  | writeHalf address value => order.byteOf 2 value.toNat (index - address.toNat)
  | writeWord address value => order.byteOf 4 value.toNat (index - address.toNat)
  | load bytes => bytes[index]?.getD 0
  | _ => 0

/-- The byte order in which later edits write. -/
def orderAfter (order : Endian) : Edit → Endian
  | setEndian endian => endian
  | _ => order

instance decidableTouches (index : Nat) : (edit : Edit) → Decidable (edit.Touches index)
  | openText address => inferInstanceAs (Decidable ((clampAddress address).toNat ≤ index))
  | writeByte address _ => inferInstanceAs (Decidable (index = address.toNat))
  | writeBytes address bytes =>
    inferInstanceAs (Decidable (address.toNat ≤ index ∧ index < address.toNat + bytes.length))
  | writeHalf address _ =>
    inferInstanceAs (Decidable (address.toNat ≤ index ∧ index < address.toNat + 2))
  | writeWord address _ =>
    inferInstanceAs (Decidable (address.toNat ≤ index ∧ index < address.toNat + 4))
  | load bytes => inferInstanceAs (Decidable (index < bytes.size))
  | openData _ | extendData _ | extendText _ | setEndian _ | setEntry _ => isFalse id

end Edit

def orderAfter (order : Endian) (edits : List Edit) : Endian :=
  edits.foldl Edit.orderAfter order

/-! ## One edit -/

namespace Image

theorem byteAt_clearFrom (m : Image) (start index : Nat) :
    (clearFrom m.bytes start)[index]?.getD 0 = if start ≤ index then 0 else m.byteAt index := by
  have hSize := size_clearFrom m.bytes start
  rcases Nat.lt_or_ge index m.bytes.size with hInside | hOutside
  · rcases Nat.lt_or_ge index start with hFront | hBehind
    · rw [if_neg (by omega), clearFrom, byteAt, Array.getElem?_append_left (by simp; omega),
        Array.getElem?_extract, if_pos (by omega), Nat.zero_add]
    · rw [if_pos hBehind, clearFrom, Array.getElem?_append_right (by simp; omega),
        Array.getElem?_replicate]
      split <;> rfl
  · -- past the end of the buffer nothing is cleared, and nothing was stored
    have hNone : m.byteAt index = 0 := by
      rw [byteAt, Array.getElem?_eq_none hOutside]
      rfl
    rw [Array.getElem?_eq_none (by omega), hNone, ite_self]
    rfl

theorem byteAt_load (m : Image) (bytes : Array UInt8) (index : Nat) :
    (m.load bytes).byteAt index =
      if index < bytes.size then bytes[index]?.getD 0 else m.byteAt index := by
  rw [byteAt, load, byteAt]
  by_cases hFront : index < bytes.size
  · rw [if_pos hFront, Array.getElem?_append_left hFront]
  · have hIndex : bytes.size + (index - bytes.size) = index := by omega
    rw [if_neg hFront, Array.getElem?_append_right (by omega), Array.getElem?_extract]
    split
    · rw [hIndex]
    · rw [Array.getElem?_eq_none (by omega)]

theorem byteAt_writeNumber (m : Image) {address : UInt32} {width : Nat} (n index : Nat)
    (hRange : address.toNat + width ≤ 0x100000000) :
    (m.writeNumber address width n).byteAt index =
      if address.toNat ≤ index ∧ index < address.toNat + width then
        m.endian.byteOf width n (index - address.toNat)
      else m.byteAt index := by
  rw [writeNumber, byteAt_writeBytes _ _ _ _ (by simpa using hRange), Endian.length_encode]
  split
  · rw [Endian.getElem?_encode m.endian n (by omega), Option.getD_some]
  · rfl

/-- An edit changes the bytes at the indices that it touches. -/
theorem byteAt_apply (m : Image) {edit : Edit} (hRange : edit.InRange) (index : Nat) :
    (edit.apply m).byteAt index =
      if edit.Touches index then edit.byte m.endian index else m.byteAt index := by
  cases edit with
  | openText address => exact byteAt_clearFrom m _ index
  | writeByte address value => exact byteAt_writeByte m address value index
  | writeBytes address bytes => exact byteAt_writeBytes m address bytes index hRange
  | writeHalf address value => exact byteAt_writeNumber m value.toNat index hRange
  | writeWord address value => exact byteAt_writeNumber m value.toNat index hRange
  | load bytes => exact byteAt_load m bytes index
  | openData | extendData | extendText | setEndian | setEntry => rfl

theorem endian_writeBytes (m : Image) (address : UInt32) (bytes : List UInt8) :
    (m.writeBytes address bytes).endian = m.endian := by
  rw [writeBytes_eq]

theorem endian_apply (m : Image) (edit : Edit) :
    (edit.apply m).endian = edit.orderAfter m.endian := by
  cases edit with
  | writeBytes address bytes => exact endian_writeBytes m address bytes
  | writeHalf address value => exact endian_writeBytes m address _
  | writeWord address value => exact endian_writeBytes m address _
  | _ => rfl

theorem capacity_le_apply (m : Image) (edit : Edit) : m.capacity ≤ (edit.apply m).capacity := by
  cases edit with
  | openText address => exact Nat.le_of_eq (size_clearFrom _ _).symm
  | writeByte address value => exact m.capacity_le_writeBytes address [value]
  | writeBytes address bytes => exact m.capacity_le_writeBytes address bytes
  | writeHalf address value => exact m.capacity_le_writeBytes address _
  | writeWord address value => exact m.capacity_le_writeBytes address _
  | load bytes =>
    simp only [Edit.apply, load, capacity, Array.size_append, Array.size_extract]
    omega
  | openData | extendData | extendText | setEndian | setEntry => exact Nat.le_refl _

/-! ## Any edits -/

theorem endian_edited (m : Image) (edits : List Edit) :
    (m.edited edits).endian = orderAfter m.endian edits := by
  induction edits generalizing m with
  | nil => rfl
  | cons edit edits ih =>
    have hRest := ih (edit.apply m)
    rw [endian_apply] at hRest
    exact hRest

theorem capacity_le_edited (m : Image) (edits : List Edit) :
    m.capacity ≤ (m.edited edits).capacity := by
  induction edits generalizing m with
  | nil => exact Nat.le_refl _
  | cons edit edits ih => exact Nat.le_trans (m.capacity_le_apply edit) (ih (edit.apply m))

/-- Bytes stay as they are until an edit touches them. -/
theorem byteAt_edited {edits : List Edit} (m : Image) {index : Nat}
    (hRange : ∀ edit ∈ edits, edit.InRange) (hFree : ∀ edit ∈ edits, ¬edit.Touches index) :
    (m.edited edits).byteAt index = m.byteAt index := by
  induction edits generalizing m with
  | nil => rfl
  | cons edit edits ih =>
    obtain ⟨hFirst, hRest⟩ := List.forall_mem_cons.mp hRange
    obtain ⟨hFirstFree, hRestFree⟩ := List.forall_mem_cons.mp hFree
    have hLater := ih (edit.apply m) hRest hRestFree
    rw [byteAt_apply m hFirst, if_neg hFirstFree] at hLater
    exact hLater

end Image

/-- The bytes that edits leave behind, the first of them made on an empty map: at each index the
last byte that was stored there, or 0. -/
structure ByteHistory (order : Endian) (edits : List Edit) (byte : Nat → UInt8) : Prop where
  stored : ∀ before edit after index, edits = before ++ edit :: after → edit.Touches index →
    (∀ later ∈ after, ¬later.Touches index) → byte index = edit.byte (orderAfter order before) index
  unstored : ∀ index, (∀ edit ∈ edits, ¬edit.Touches index) → byte index = 0

namespace Image

theorem byteAt_ofCapacity (capacity : Nat) (endian : Endian) (index : Nat) :
    (ofCapacity capacity endian).byteAt index = 0 := by
  rw [byteAt, ofCapacity, Array.getElem?_replicate]
  split <;> rfl

theorem byteHistory_edited (capacity : Nat) (endian : Endian) {edits : List Edit}
    (hRange : ∀ edit ∈ edits, edit.InRange) :
    ByteHistory endian edits ((ofCapacity capacity endian).edited edits).byteAt := by
  constructor
  · rintro before edit after index rfl hTouches hLast
    obtain ⟨_, hOthers⟩ := List.forall_mem_append.mp hRange
    obtain ⟨hEdit, hAfter⟩ := List.forall_mem_cons.mp hOthers
    have hSplit : (ofCapacity capacity endian).edited (before ++ edit :: after) =
        (edit.apply ((ofCapacity capacity endian).edited before)).edited after :=
      edited_append _ before (edit :: after)
    rw [hSplit, byteAt_edited _ hAfter hLast, byteAt_apply _ hEdit, if_pos hTouches, endian_edited]
    rfl
  · intro index hFree
    rw [byteAt_edited _ hRange hFree, byteAt_ofCapacity]

/-! ## Reading -/

theorem readBytes_eq (m : Image) (address : UInt32) (size : Nat) :
    m.readBytes address size =
      if address.toNat + size ≤ m.capacity then
        some ((List.range size).map fun k => m.byteAt (address.toNat + k))
      else none := by
  split
  · rename_i hWithin
    have hLength : ((List.range size).map fun k => m.byteAt (address.toNat + k)).length = size := by
      simp
    have hBytes : ∀ k < ((List.range size).map fun k => m.byteAt (address.toNat + k)).length,
        m.bytes[address.toNat + k]? =
          ((List.range size).map fun k => m.byteAt (address.toNat + k))[k]? := by
      intro k hIndex
      rw [hLength] at hIndex
      rw [getElem?_of_lt_capacity m (by omega)]
      simp [hIndex]
    have hRead := readBytes_eq_some (by rw [hLength]; exact hWithin) hBytes
    rw [hLength] at hRead
    exact hRead
  · rename_i hOutside
    exact if_neg hOutside

theorem readNumber_eq (m : Image) (address : UInt32) (width : Nat) :
    m.readNumber address width =
      if address.toNat + width ≤ m.capacity then
        some (m.endian.number ((List.range width).map fun k => m.byteAt (address.toNat + k)))
      else none := by
  rw [readNumber, readBytes_eq]
  split
  · rw [Option.map_some, Endian.decode_eq_number]
  · rfl

end Image

theorem Endian.number_pair_lt (e : Endian) (b₀ b₁ : UInt8) : e.number [b₀, b₁] < 0x10000 := by
  have hLow := b₀.toNat_lt
  have hHigh := b₁.toNat_lt
  cases e with
  | little =>
    simp only [number, List.foldr_cons, List.foldr_nil]
    omega
  | big =>
    simp only [number, List.foldl_cons, List.foldl_nil]
    omega

/-- What is read from an image whose bytes are those of a map, in the byte order of the moment. -/
structure ReadsAs (m : Image) (order : Endian) (byte : Nat → UInt8) : Prop where
  readByte : ∀ address : UInt32, m.readByte address =
    if address.toNat < m.capacity then some (byte address.toNat) else none
  readHalf : ∀ address : UInt32, m.readHalf address =
    if address.toNat + 2 ≤ m.capacity then
      some (Int.bmod (order.number [byte address.toNat, byte (address.toNat + 1)]) 0x10000)
    else none
  readWord : ∀ address : UInt32, m.readWord address =
    if address.toNat + 4 ≤ m.capacity then
      some (UInt32.ofNat (order.number [byte address.toNat, byte (address.toNat + 1),
        byte (address.toNat + 2), byte (address.toNat + 3)]))
    else none

theorem signed_eq_bmod {n : Nat} (hBound : n < 0x10000) :
    (if (n : Int) < 0x8000 then (n : Int) else (n : Int) - 0x10000) = Int.bmod n 0x10000 := by
  rw [Int.bmod]
  split <;> split <;> omega

theorem Image.readsAs_byteAt (m : Image) : ReadsAs m m.endian m.byteAt := by
  constructor
  · intro address
    split
    · rename_i hWithin
      exact m.getElem?_of_lt_capacity hWithin
    · rename_i hOutside
      exact Array.getElem?_eq_none (Nat.not_lt.mp hOutside)
  · intro address
    rw [readHalf, readNumber_eq]
    split
    · have hBound := m.endian.number_pair_lt (m.byteAt address.toNat) (m.byteAt (address.toNat + 1))
      exact congrArg some (signed_eq_bmod hBound)
    · rfl
  · intro address
    rw [readWord, readNumber_eq]
    split
    · rfl
    · rfl

/-! ## Reading back -/

/-- The number with its two bytes in the other order. -/
def swappedHalf (n : Nat) : Nat :=
  n % 256 * 256 + n / 256

/-- The number with its four bytes in the other order. -/
def swappedWord (n : Nat) : Nat :=
  n % 256 * 0x1000000 + n / 256 % 256 * 0x10000 + n / 0x10000 % 256 * 256 + n / 0x1000000

namespace Endian

theorem number_byteOf_half (write read : Endian) {n : Nat} (hBound : n < 0x10000) :
    read.number [write.byteOf 2 n 0, write.byteOf 2 n 1] =
      if read = write then n else swappedHalf n := by
  cases write <;> cases read <;>
    simp [number, byteOf, swappedHalf, Nat.shiftRight_eq_div_pow] <;> omega

theorem number_byteOf_word (write read : Endian) {n : Nat} (hBound : n < 0x100000000) :
    read.number [write.byteOf 4 n 0, write.byteOf 4 n 1, write.byteOf 4 n 2, write.byteOf 4 n 3] =
      if read = write then n else swappedWord n := by
  cases write <;> cases read <;>
    simp [number, byteOf, swappedWord, Nat.shiftRight_eq_div_pow] <;> omega

end Endian

/-- The edits that store a number, in so many bytes. -/
inductive Edit.Stores (address : UInt32) : Nat → Nat → Edit → Prop where
  | half (value : UInt16) : Stores address 2 value.toNat (.writeHalf address value)
  | word (value : UInt32) : Stores address 4 value.toNat (.writeWord address value)

section

variable {address : UInt32} {width n : Nat} {edit : Edit}

theorem Edit.Stores.apply_eq (hStores : edit.Stores address width n) (m : Image) :
    edit.apply m = m.writeNumber address width n := by
  cases hStores <;> rfl

theorem Edit.Stores.width_pos (hStores : edit.Stores address width n) : 0 < width := by
  cases hStores <;> decide

theorem Edit.Stores.le_of_inRange (hStores : edit.Stores address width n) (hRange : edit.InRange) :
    address.toNat + width ≤ 0x100000000 := by
  cases hStores <;> exact hRange

theorem Edit.Stores.touches (hStores : edit.Stores address width n) {k : Nat} (hIndex : k < width) :
    edit.Touches (address.toNat + k) := by
  cases hStores <;> exact ⟨by omega, by omega⟩

theorem Edit.Stores.byte_eq (hStores : edit.Stores address width n) (order : Endian) (k : Nat) :
    edit.byte order (address.toNat + k) = order.byteOf width n k := by
  cases hStores <;> rw [byte, Nat.add_sub_cancel_left]

end

namespace Image

variable {m : Image} {address : UInt32} {order : Endian} {n : Nat}

theorem readHalf_of_byteAt (hWithin : address.toNat + 2 ≤ m.capacity) (hBound : n < 0x10000)
    (hBytes : ∀ k < 2, m.byteAt (address.toNat + k) = order.byteOf 2 n k) :
    m.readHalf address =
      some (Int.bmod (if m.endian = order then n else swappedHalf n : Nat) 0x10000) := by
  have hFirst : m.byteAt address.toNat = order.byteOf 2 n 0 := hBytes 0 (by decide)
  rw [m.readsAs_byteAt.readHalf, if_pos hWithin, hFirst, hBytes 1 (by decide),
    Endian.number_byteOf_half order m.endian hBound]

theorem readWord_of_byteAt (hWithin : address.toNat + 4 ≤ m.capacity) (hBound : n < 0x100000000)
    (hBytes : ∀ k < 4, m.byteAt (address.toNat + k) = order.byteOf 4 n k) :
    m.readWord address = some (UInt32.ofNat (if m.endian = order then n else swappedWord n)) := by
  have hFirst : m.byteAt address.toNat = order.byteOf 4 n 0 := hBytes 0 (by decide)
  rw [m.readsAs_byteAt.readWord, if_pos hWithin, hFirst, hBytes 1 (by decide),
    hBytes 2 (by decide), hBytes 3 (by decide), Endian.number_byteOf_word order m.endian hBound]

/-- A number stays where it was stored until an edit touches one of its bytes. -/
theorem byteAt_stored {edit : Edit} {width : Nat} (hStores : edit.Stores address width n)
    (capacity : Nat) (endian : Endian) {before after : List Edit}
    (hRange : ∀ other ∈ before ++ edit :: after, other.InRange)
    (hFree : ∀ later ∈ after, ∀ k < width, ¬later.Touches (address.toNat + k)) :
    address.toNat + width ≤
        ((ofCapacity capacity endian).edited (before ++ edit :: after)).capacity ∧
      ∀ k < width,
        ((ofCapacity capacity endian).edited (before ++ edit :: after)).byteAt
            (address.toNat + k) =
          (orderAfter endian before).byteOf width n k := by
  constructor
  · have hWidth := hStores.le_of_inRange (hRange edit (by simp))
    have hPos := hStores.width_pos
    have hSplit : (ofCapacity capacity endian).edited (before ++ edit :: after) =
        (edit.apply ((ofCapacity capacity endian).edited before)).edited after :=
      edited_append _ before (edit :: after)
    rw [hSplit, hStores.apply_eq]
    refine Nat.le_trans ?_ (capacity_le_edited _ after)
    generalize (ofCapacity capacity endian).edited before = m
    have hLength := m.endian.length_encode width n
    have hWritten := m.le_capacity_writeBytes address (m.endian.encode width n) (by omega)
      (List.ne_nil_of_length_pos (by omega))
    rw [hLength] at hWritten
    exact hWritten
  · intro k hIndex
    rw [(byteHistory_edited capacity endian hRange).stored before edit after _ rfl
      (hStores.touches hIndex) fun later hLater => hFree later hLater k hIndex, hStores.byte_eq]

end Image

/-- Images are maps of bytes: after any edits of a new image, an index below the capacity reads as
the byte that was last stored there, and numbers are put together from such bytes. So a stored
number reads back as it is, or with its bytes the other way round if the byte order was changed. -/
theorem byte_map_of_edits (capacity : Nat) (endian : Endian) (edits : List Edit)
    (hRange : ∀ edit ∈ edits, edit.InRange) :
    (∀ before after, edits = before ++ after →
      ((Image.ofCapacity capacity endian).edited before).capacity ≤
        ((Image.ofCapacity capacity endian).edited edits).capacity) ∧
    (∃ byte, ByteHistory endian edits byte ∧
      ReadsAs ((Image.ofCapacity capacity endian).edited edits) (orderAfter endian edits) byte) ∧
    (∀ before after address value, edits = before ++ .writeHalf address value :: after →
      (∀ later ∈ after, ∀ k < 2, ¬later.Touches (address.toNat + k)) →
      ((Image.ofCapacity capacity endian).edited edits).readHalf address =
        some (Int.bmod (if orderAfter endian edits = orderAfter endian before then value.toNat
          else swappedHalf value.toNat : Nat) 0x10000)) ∧
    (∀ before after address value, edits = before ++ .writeWord address value :: after →
      (∀ later ∈ after, ∀ k < 4, ¬later.Touches (address.toNat + k)) →
      ((Image.ofCapacity capacity endian).edited edits).readWord address =
        some (if orderAfter endian edits = orderAfter endian before then value
          else UInt32.ofNat (swappedWord value.toNat))) := by
  have hOrder : ((Image.ofCapacity capacity endian).edited edits).endian =
      orderAfter endian edits :=
    Image.endian_edited _ edits
  refine ⟨?_, ⟨_, Image.byteHistory_edited capacity endian hRange, ?_⟩, ?_, ?_⟩
  · rintro before after rfl
    rw [Image.edited_append]
    exact Image.capacity_le_edited _ after
  · have hReads := Image.readsAs_byteAt ((Image.ofCapacity capacity endian).edited edits)
    rw [hOrder] at hReads
    exact hReads
  · rintro before after address value rfl hFree
    obtain ⟨hWithin, hBytes⟩ := Image.byteAt_stored (.half value) capacity endian hRange hFree
    rw [Image.readHalf_of_byteAt hWithin (UInt16.toNat_lt value) hBytes, hOrder]
  · rintro before after address value rfl hFree
    obtain ⟨hWithin, hBytes⟩ := Image.byteAt_stored (.word value) capacity endian hRange hFree
    rw [Image.readWord_of_byteAt hWithin (UInt32.toNat_lt value) hBytes, hOrder]
    split
    · rw [UInt32.ofNat_toNat]
    · rfl

/-- A word across the end of the buffer, read in the other byte order, a byte cleared by a text
segment and a half word with its sign bit set. -/
theorem byte_map_of_edits_mixed :
    let edits : List Edit := [.load #[5], .writeWord 3 0x11223344, .setEndian .big, .openText 7,
      .writeHalf 8 0x8001]
    (∀ edit ∈ edits, edit.InRange) ∧
      ((Image.ofCapacity 2 .little).edited edits).readWord 3 = some 0x44332211 ∧
      ((Image.ofCapacity 2 .little).edited edits).readByte 7 = some 0 ∧
      ((Image.ofCapacity 2 .little).edited edits).readHalf 8 = some (-32767) := by
  intro edits
  have hRange : ∀ edit ∈ edits, edit.InRange := by
    simp [edits, Edit.InRange]
  obtain ⟨_, ⟨byte, hHistory, hReads⟩, hHalf, hWord⟩ := byte_map_of_edits 2 .little edits hRange
  refine ⟨hRange, ?_, ?_, ?_⟩
  · rw [hWord [.load #[5]] [.setEndian .big, .openText 7, .writeHalf 8 0x8001] 3 0x11223344 rfl
      (by decide)]
    decide
  · rw [hReads.readByte, if_pos (by decide)]
    exact congrArg some (hHistory.stored [.load #[5], .writeWord 3 0x11223344, .setEndian .big]
      (.openText 7) [.writeHalf 8 0x8001] 7 rfl (by decide) (by decide))
  · rw [hHalf [.load #[5], .writeWord 3 0x11223344, .setEndian .big, .openText 7] [] 8 0x8001 rfl
      (by decide)]
    decide

end MipsAsm.Memory
