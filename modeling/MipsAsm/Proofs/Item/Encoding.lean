import MipsAsm.Item
import MipsAsm.Proofs.Instruction.Size
import MipsAsm.Proofs.Memory.Bytes

/-! # Bytes of an item

An item alone, with a label table and a byte order, stands for a list of bytes. Storing it writes
just these bytes at its address, and they are as many as its size says.
-/

namespace MipsAsm

open Memory (Image Endian)
open Outcome (bind_eq_ok pure_eq_ok run_bind_eq_ok)

def Width.number (width : Width) (labels : LabelTable) (v : Immediate) : Except Cause Nat :=
  v.resolve labels >>= width.fit

theorem Width.bytes_pos (width : Width) : 0 < width.bytes := by
  cases width <;> decide

namespace Item

def encoding (labels : LabelTable) (endian : Endian) (it : Item) : Except Cause (List UInt8) :=
  match it.payload with
  | .code i => (i.encode it.address labels).map fun ws =>
      ws.flatMap fun w => endian.encode 4 w.toWord.toNat
  | .data width vs => (vs.mapM (width.number labels)).map fun ns =>
      ns.flatMap fun n => endian.encode width.bytes n
  | .bytes content => .ok content
  | .space count => .ok (List.replicate count 0)

/-- An index lies in the range of addresses that an item takes. -/
def Covers (it : Item) (index : Nat) : Prop :=
  it.address.toNat ≤ index ∧ index < it.address.toNat + it.size

theorem Covers.size_pos {it : Item} {index : Nat} (hCovers : it.Covers index) : 0 < it.size := by
  obtain ⟨hLe, hLt⟩ := hCovers
  omega

/-- The ranges of two items have no address in common. -/
def Apart (a b : Item) : Prop :=
  ∀ index, ¬ (a.Covers index ∧ b.Covers index)

end Item

namespace Store

theorem length_flatMap_encode {α : Type} (endian : Endian) (width : Nat) (number : α → Nat)
    (xs : List α) :
    (xs.flatMap fun x => endian.encode width (number x)).length = width * xs.length := by
  induction xs with
  | nil => rfl
  | cons x xs ih =>
    rw [List.flatMap_cons, List.length_append, ih, Endian.length_encode, List.length_cons,
      Nat.mul_succ, Nat.add_comm]

theorem words_run (address : UInt32) (ws : List Isa.Fields) (m : Image) :
    words address ws m =
      .ok () (m.writeBytes address (ws.flatMap fun w => m.endian.encode 4 w.toWord.toNat)) := by
  induction ws generalizing address m with
  | nil => rfl
  | cons w ws ih =>
    change words (address + 4) ws (m.writeWord address w.toWord) = _
    rw [ih, List.flatMap_cons, Image.writeBytes_append, Endian.length_encode]
    have hEndian : (m.writeWord address w.toWord).endian = m.endian := by
      rw [Image.writeWord, Image.writeNumber, Image.writeBytes_eq]
    rw [hEndian]
    rfl

theorem value_ok {labels : LabelTable} {pos : Position} {width : Width} {address : UInt32}
    {v : Immediate} {m m' : Image} (hRun : value labels pos width address v m = .ok () m') :
    ∃ n, width.number labels v = .ok n ∧
      m' = m.writeBytes address (m.endian.encode width.bytes n) := by
  rw [value] at hRun
  split at hRun
  · rename_i n hNumber
    cases hRun
    exact ⟨n, hNumber, rfl⟩
  · cases hRun

theorem values_ok {labels : LabelTable} {pos : Position} {width : Width} {address : UInt32}
    {vs : List Immediate} {m m' : Image}
    (hRun : values labels pos width address vs m = .ok () m') :
    ∃ ns, vs.mapM (width.number labels) = .ok ns ∧ ns.length = vs.length ∧
      m' = m.writeBytes address (ns.flatMap fun n => m.endian.encode width.bytes n) := by
  induction vs generalizing address m with
  | nil =>
    cases hRun
    exact ⟨[], rfl, rfl, rfl⟩
  | cons v vs ih =>
    obtain ⟨_, middle, hFirst, hRest⟩ := run_bind_eq_ok.mp hRun
    obtain ⟨n, hNumber, rfl⟩ := value_ok hFirst
    obtain ⟨ns, hNumbers, hLength, rfl⟩ := ih hRest
    refine ⟨n :: ns, ?_, by rw [List.length_cons, hLength, List.length_cons], ?_⟩
    · rw [List.mapM_cons, hNumber, hNumbers]
      rfl
    · rw [List.flatMap_cons, Image.writeBytes_append, Endian.length_encode]
      have hEndian := congrArg Image.endian
        (Image.writeBytes_eq m address (m.endian.encode width.bytes n))
      rw [hEndian]

/-- Storing an item writes its bytes, of which there are as many as its size says. -/
theorem item_ok {labels : LabelTable} {it : Item} {m m' : Image}
    (hRun : item labels it m = .ok () m') :
    ∃ bs, it.encoding labels m.endian = .ok bs ∧ bs.length = it.size ∧
      m' = m.writeBytes it.address bs := by
  obtain ⟨address, pos, payload⟩ := it
  cases payload with
  | code i =>
    change instruction labels pos address i m = .ok () m' at hRun
    rw [instruction] at hRun
    split at hRun
    · rename_i ws hEncode
      rw [words_run] at hRun
      cases hRun
      refine ⟨_, ?_, ?_, rfl⟩
      · simp only [Item.encoding, hEncode, Except.map]
      · rw [length_flatMap_encode, Item.size, Payload.size, Instruction.size_eq_of_encode hEncode]
    · cases hRun
  | data width vs =>
    obtain ⟨ns, hNumbers, hLength, rfl⟩ := values_ok hRun
    refine ⟨_, ?_, ?_, rfl⟩
    · simp only [Item.encoding, hNumbers, Except.map]
    · rw [length_flatMap_encode, hLength, Item.size, Payload.size]
  | bytes content =>
    cases hRun
    exact ⟨content, rfl, rfl, rfl⟩
  | space count =>
    cases hRun
    exact ⟨List.replicate count 0, rfl, List.length_replicate, rfl⟩

/-! ## Many items -/

theorem items_append {labels : LabelTable} {xs ys : List Item} {m m' : Image}
    (hRun : items labels (xs ++ ys) m = .ok () m') :
    ∃ middle, items labels xs m = .ok () middle ∧ items labels ys middle = .ok () m' := by
  induction xs generalizing m with
  | nil => exact ⟨m, rfl, hRun⟩
  | cons x xs ih =>
    obtain ⟨_, next, hFirst, hRest⟩ := run_bind_eq_ok.mp hRun
    obtain ⟨middle, hXs, hYs⟩ := ih hRest
    exact ⟨middle, run_bind_eq_ok.mpr ⟨(), next, hFirst, hXs⟩, hYs⟩

theorem items_eq {labels : LabelTable} {its : List Item} {m m' : Image}
    (hRun : items labels its m = .ok () m') : m' = { m with bytes := m'.bytes } := by
  induction its generalizing m with
  | nil =>
    cases hRun
    rfl
  | cons it its ih =>
    obtain ⟨_, middle, hFirst, hRest⟩ := run_bind_eq_ok.mp hRun
    obtain ⟨bs, _, _, hMiddle⟩ := item_ok hFirst
    rw [ih hRest, hMiddle, Image.writeBytes_eq]

theorem capacity_le_items {labels : LabelTable} {its : List Item} {m m' : Image}
    (hRun : items labels its m = .ok () m') : m.capacity ≤ m'.capacity := by
  induction its generalizing m with
  | nil =>
    cases hRun
    exact Nat.le_refl _
  | cons it its ih =>
    obtain ⟨_, middle, hFirst, hRest⟩ := run_bind_eq_ok.mp hRun
    obtain ⟨bs, _, _, rfl⟩ := item_ok hFirst
    exact Nat.le_trans (Image.capacity_le_writeBytes m it.address bs) (ih hRest)

theorem items_split {labels : LabelTable} {before after : List Item} {it : Item} {m m' : Image}
    (hRun : items labels (before ++ it :: after) m = .ok () m') :
    ∃ m₁ bs, it.encoding labels m.endian = .ok bs ∧ bs.length = it.size ∧
      items labels after (Image.writeBytes m₁ it.address bs) = .ok () m' := by
  obtain ⟨m₁, hBefore, hRest⟩ := items_append hRun
  obtain ⟨_, m₂, hItem, hAfter⟩ := run_bind_eq_ok.mp hRest
  obtain ⟨bs, hBytes, hLength, rfl⟩ := item_ok hItem
  refine ⟨m₁, bs, ?_, hLength, hAfter⟩
  rw [items_eq hBefore] at hBytes
  exact hBytes

theorem byteAt_items_of_not_covers {labels : LabelTable} {its : List Item} {m m' : Image}
    {index : Nat} (hRun : items labels its m = .ok () m')
    (hFit : ∀ it ∈ its, it.address.toNat + it.size < 0x100000000)
    (hFree : ∀ it ∈ its, ¬ it.Covers index) : m'.byteAt index = m.byteAt index := by
  induction its generalizing m with
  | nil =>
    cases hRun
    rfl
  | cons it its ih =>
    obtain ⟨_, middle, hFirst, hRest⟩ := run_bind_eq_ok.mp hRun
    obtain ⟨bs, _, hLength, rfl⟩ := item_ok hFirst
    have hItemFit := hFit it List.mem_cons_self
    have hItemFree := hFree it List.mem_cons_self
    rw [ih hRest (fun x hx => hFit x (List.mem_cons_of_mem _ hx))
      (fun x hx => hFree x (List.mem_cons_of_mem _ hx)),
      Image.byteAt_writeBytes _ _ _ _ (by omega), hLength]
    exact if_neg hItemFree

/-- The last item that covers an address decides its byte. -/
theorem byteAt_items_of_covers {labels : LabelTable} {before after : List Item} {it : Item}
    {m m' : Image} {index : Nat} (hRun : items labels (before ++ it :: after) m = .ok () m')
    (hFit : ∀ x ∈ before ++ it :: after, x.address.toNat + x.size < 0x100000000)
    (hCovers : it.Covers index) (hLast : ∀ x ∈ after, ¬ x.Covers index) :
    ∃ bs, it.encoding labels m.endian = .ok bs ∧
      some (m'.byteAt index) = bs[index - it.address.toNat]? := by
  obtain ⟨m₁, bs, hBytes, hLength, hAfter⟩ := items_split hRun
  refine ⟨bs, hBytes, ?_⟩
  have hItemFit := hFit it (List.mem_append_right _ List.mem_cons_self)
  rw [byteAt_items_of_not_covers hAfter
      (fun x hx => hFit x (List.mem_append_right _ (List.mem_cons_of_mem _ hx))) hLast,
    Image.byteAt_writeBytes _ _ _ _ (by omega), hLength,
    if_pos ⟨hCovers.1, hCovers.2⟩]
  have hIndex : index - it.address.toNat < bs.length := by
    obtain ⟨hLower, hUpper⟩ := hCovers
    omega
  rw [List.getElem?_eq_getElem hIndex, Option.getD_some]

theorem le_capacity_items {labels : LabelTable} {before after : List Item} {it : Item}
    {m m' : Image} (hRun : items labels (before ++ it :: after) m = .ok () m')
    (hFit : it.address.toNat + it.size < 0x100000000) (hSize : 0 < it.size) :
    it.address.toNat + it.size ≤ m'.capacity := by
  obtain ⟨m₁, bs, _, hLength, hAfter⟩ := items_split hRun
  have hNonempty : bs ≠ [] := by
    intro hEmpty
    rw [hEmpty] at hLength
    exact absurd hLength (Nat.ne_of_lt hSize)
  calc
    it.address.toNat + it.size = it.address.toNat + bs.length := by rw [hLength]
    _ ≤ (m₁.writeBytes it.address bs).capacity :=
      Image.le_capacity_writeBytes m₁ it.address bs (by omega) hNonempty
    _ ≤ m'.capacity := capacity_le_items hAfter

end Store

namespace Memory.Image

/-- One number of a block of them. -/
theorem readNumber_of_readBytes {m : Image} {address : UInt32} {width k n : Nat} {ns : List Nat}
    (hFit : address.toNat + width * ns.length < 0x100000000)
    (hRead : m.readBytes address (width * ns.length) =
      some (ns.flatMap fun n => m.endian.encode width n))
    (hNumber : ns[k]? = some n) :
    m.readNumber (address + UInt32.ofNat (width * k)) width = some (n % 1 <<< (8 * width)) := by
  obtain ⟨hIndex, rfl⟩ := List.getElem?_eq_some_iff.mp hNumber
  have hLength := Store.length_flatMap_encode m.endian width (fun n => n) ns
  have hSplit : (ns.flatMap fun n => m.endian.encode width n) =
      ((ns.take k).flatMap fun n => m.endian.encode width n) ++
        (m.endian.encode width ns[k] ++
          (ns.drop (k + 1)).flatMap fun n => m.endian.encode width n) := by
    rw [← List.flatMap_cons, ← List.flatMap_append, ← List.drop_eq_getElem_cons hIndex,
      List.take_append_drop]
  have hBefore : ((ns.take k).flatMap fun n => m.endian.encode width n).length = width * k := by
    rw [Store.length_flatMap_encode m.endian width (fun n => n), List.length_take,
      Nat.min_eq_left (Nat.le_of_lt hIndex)]
  rw [← hLength, hSplit] at hRead hFit
  have hPart := readBytes_part hFit hRead
  rw [hBefore, Endian.length_encode] at hPart
  rw [readNumber, hPart, Option.map_some, Endian.decode_encode]

end Memory.Image

end MipsAsm
