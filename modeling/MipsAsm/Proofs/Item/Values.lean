import Mathlib.Data.List.Forall2
import MipsAsm.Proofs.Instruction.Range
import MipsAsm.Proofs.Item.Encoding

/-! # Values of a data directive

A value of a data directive is a number or a symbol that denotes one, and a width takes the numbers
that fit as signed or as unsigned. The values of an item are stored one behind the other up to the
first that cannot be, and nothing else is touched.
-/

namespace MipsAsm

open Memory (Image)

/-! ## Widths -/

namespace Width

/-- The numbers that fit, read as signed or as unsigned. -/
def Admits (width : Width) (v : Int) : Prop :=
  -((1 <<< (8 * width.bytes - 1) : Nat) : Int) ≤ v ∧ v ≤ ((1 <<< (8 * width.bytes) : Nat) : Int) - 1

/-- The unsigned number with the same lowest bits. -/
def residue (width : Width) (v : Int) : Nat :=
  (v % ((1 <<< (8 * width.bytes) : Nat) : Int)).toNat

variable {width : Width} {v : Int}

theorem range_eq (width : Width) : width.range = ((1 <<< (8 * width.bytes) : Nat) : Int) := by
  cases width <;> rfl

theorem neg_range_half (width : Width) :
    -width.range / (2 : Int) = -((1 <<< (8 * width.bytes - 1) : Nat) : Int) := by
  cases width <;> rfl

theorem residue_lt (width : Width) (v : Int) : width.residue v < 1 <<< (8 * width.bytes) := by
  rw [residue]
  have hPositive : (0 : Int) < ((1 <<< (8 * width.bytes) : Nat) : Int) := by
    cases width <;> decide
  have hLower := Int.emod_nonneg v (Int.ne_of_gt hPositive)
  have hUpper := Int.emod_lt_of_pos v hPositive
  omega

theorem fit_of_admits (hAdmits : width.Admits v) : width.fit v = .ok (width.residue v) := by
  obtain ⟨hLower, hUpper⟩ := hAdmits
  rw [fit, neg_range_half, range_eq, if_pos ⟨hLower, by omega⟩, residue]

theorem fit_of_not_admits (hOutside : ¬width.Admits v) :
    width.fit v = .error (.immediateOutOfRange v (8 * width.bytes)) := by
  rw [fit, neg_range_half, range_eq, if_neg]
  rintro ⟨hLower, hUpper⟩
  exact hOutside ⟨hLower, by omega⟩

end Width

/-! ## Single values -/

namespace Immediate

/-- The value denotes a number that the width takes. -/
def Stores (labels : LabelTable) (width : Width) (c : Immediate) (v : Int) : Prop :=
  c.Denotes labels v ∧ width.Admits v

/-- What keeps a value from being stored. -/
inductive Offends (labels : LabelTable) (width : Width) : Immediate → Cause → Prop where
  | undefined (name : String) (hNone : labels.address? name = none) :
      Offends labels width (.symbol name) (.undefinedLabel name)
  | outside (c : Immediate) (v : Int) (hDenotes : c.Denotes labels v) (hOutside : ¬width.Admits v) :
      Offends labels width c (.immediateOutOfRange v (8 * width.bytes))

variable {labels : LabelTable} {width : Width} {c : Immediate} {v w : Int} {cause : Cause}

theorem Denotes.unique (hFirst : c.Denotes labels v) (hSecond : c.Denotes labels w) : v = w := by
  rw [← resolve_eq_ok] at hFirst hSecond
  cases hFirst.symm.trans hSecond
  rfl

theorem stores_or_offends (labels : LabelTable) (width : Width) (c : Immediate) :
    (∃ v, c.Stores labels width v) ∨ ∃ cause, c.Offends labels width cause := by
  by_cases hSome : ∃ v, c.Denotes labels v
  · obtain ⟨v, hDenotes⟩ := hSome
    by_cases hAdmits : width.Admits v
    · exact Or.inl ⟨v, hDenotes, hAdmits⟩
    · exact Or.inr ⟨_, .outside c v hDenotes hAdmits⟩
  · cases c with
    | literal value => exact absurd ⟨value, rfl⟩ hSome
    | symbol name =>
      refine Or.inr ⟨_, .undefined name ?_⟩
      cases hLabel : labels.address? name with
      | none => rfl
      | some address => exact absurd ⟨_, address, hLabel, rfl⟩ hSome

theorem Offends.not_stores (hOffends : c.Offends labels width cause) :
    ¬∃ v, c.Stores labels width v := by
  rintro ⟨v, hDenotes, hAdmits⟩
  cases hOffends with
  | undefined name hNone =>
    obtain ⟨address, hSome, _⟩ := hDenotes
    cases hNone.symm.trans hSome
  | outside _ w hOther hOutside =>
    obtain rfl := hDenotes.unique hOther
    exact hOutside hAdmits

theorem Stores.number_eq (hStores : c.Stores labels width v) :
    width.number labels c = .ok (width.residue v) := by
  rw [Width.number, resolve_eq_ok.mpr hStores.1]
  exact Width.fit_of_admits hStores.2

theorem Offends.number_eq (hOffends : c.Offends labels width cause) :
    width.number labels c = .error cause := by
  cases hOffends with
  | undefined name hNone => rw [Width.number, resolve, hNone]; rfl
  | outside _ w hDenotes hOutside =>
    rw [Width.number, resolve_eq_ok.mpr hDenotes]
    exact Width.fit_of_not_admits hOutside

/-- A list of values can be stored, or has a first one that cannot. -/
theorem all_store_or_offends (labels : LabelTable) (width : Width) (vs : List Immediate) :
    (∃ ns, List.Forall₂ (Stores labels width) vs ns) ∨
      ∃ before c after ns cause, vs = before ++ c :: after ∧
        List.Forall₂ (Stores labels width) before ns ∧ c.Offends labels width cause := by
  induction vs with
  | nil => exact Or.inl ⟨[], .nil⟩
  | cons c vs ih =>
    rcases stores_or_offends labels width c with ⟨v, hStores⟩ | ⟨cause, hOffends⟩
    · rcases ih with ⟨ns, hAll⟩ | ⟨before, d, after, ns, cause, rfl, hBefore, hOffends⟩
      · exact Or.inl ⟨v :: ns, .cons hStores hAll⟩
      · exact Or.inr ⟨c :: before, d, after, v :: ns, cause, rfl, .cons hStores hBefore, hOffends⟩
    · exact Or.inr ⟨[], c, vs, [], cause, rfl, .nil, hOffends⟩

end Immediate

/-! ## Runs over the values -/

namespace Store

variable {labels : LabelTable} {pos : Position} {width : Width} {address : UInt32} {m : Image}

/-- The bytes of numbers one behind the other. -/
def block (m : Image) (width : Width) (ns : List Int) : List UInt8 :=
  (ns.map width.residue).flatMap fun n => m.endian.encode width.bytes n

theorem length_block (m : Image) (width : Width) (ns : List Int) :
    (block m width ns).length = width.bytes * ns.length := by
  rw [block, length_flatMap_encode m.endian width.bytes (fun n => n), List.length_map]

theorem value_of_stores {c : Immediate} {v : Int} (hStores : c.Stores labels width v) :
    value labels pos width address c m =
      .ok () (m.writeNumber address width.bytes (width.residue v)) := by
  have hNumber : (c.resolve labels >>= width.fit) = .ok (width.residue v) := hStores.number_eq
  rw [value, hNumber]

theorem value_of_offends {c : Immediate} {cause : Cause} (hOffends : c.Offends labels width cause) :
    value labels pos width address c m = .error (cause.located pos) m := by
  have hNumber : (c.resolve labels >>= width.fit) = .error cause := hOffends.number_eq
  rw [value, hNumber]

/-- Values that can be stored are written, and the run goes on behind them. -/
theorem values_append {before rest : List Immediate} {ns : List Int}
    (hBefore : List.Forall₂ (Immediate.Stores labels width) before ns) :
    values labels pos width address (before ++ rest) m =
      values labels pos width (address + UInt32.ofNat (width.bytes * before.length)) rest
        (m.writeBytes address (block m width ns)) := by
  induction hBefore generalizing address m with
  | nil => simp [block, Image.writeBytes]
  | @cons c v before ns hFirst _ ih =>
    have hEndian := congrArg Image.endian
      (Image.writeBytes_eq m address (m.endian.encode width.bytes (width.residue v)))
    rw [List.cons_append, values, Outcome.run_bind_of_ok (value_of_stores hFirst), ih]
    have hNext : address + UInt32.ofNat width.bytes + UInt32.ofNat (width.bytes * before.length) =
        address + UInt32.ofNat (width.bytes * (c :: before).length) := by
      rw [List.length_cons, Nat.mul_succ, Nat.add_comm, UInt32.ofNat_add, UInt32.add_assoc]
    rw [hNext, Image.writeNumber, block, hEndian, block, List.map_cons, List.flatMap_cons,
      Image.writeBytes_append, Memory.Endian.length_encode]

theorem items_data (it : Item) {vs : List Immediate} (hPayload : it.payload = .data width vs) :
    items labels [it] m = values labels it.pos width it.address vs m := by
  obtain ⟨address, pos, payload⟩ := it
  cases hPayload
  change EStateM.bind (values labels pos width address vs) (fun _ => pure ()) m = _
  rw [EStateM.bind]
  cases values labels pos width address vs m <;> rfl

theorem values_of_stores {vs : List Immediate} {ns : List Int}
    (hAll : List.Forall₂ (Immediate.Stores labels width) vs ns) :
    values labels pos width address vs m = .ok () (m.writeBytes address (block m width ns)) := by
  have hRun : values labels pos width address (vs ++ []) m = _ := values_append hAll
  rw [List.append_nil] at hRun
  exact hRun

theorem values_of_offends {before after : List Immediate} {c : Immediate} {ns : List Int}
    {cause : Cause} (hBefore : List.Forall₂ (Immediate.Stores labels width) before ns)
    (hOffends : c.Offends labels width cause) :
    values labels pos width address (before ++ c :: after) m =
      .error (cause.located pos) (m.writeBytes address (block m width ns)) := by
  rw [values_append hBefore, values]
  exact Outcome.run_bind_of_error (value_of_offends hOffends)

end Store

/-! ## What is found in the memory -/

/-- From `address` on the memory holds the numbers, each in the bytes of its width, and all bytes
around them are those that were there before. -/
structure Filled (m m' : Image) (address : UInt32) (width : Width) (ns : List Int) : Prop where
  reads : ∀ i v, ns[i]? = some v →
    m'.readNumber (address + UInt32.ofNat (width.bytes * i)) width.bytes =
      some (v % ((1 <<< (8 * width.bytes) : Nat) : Int)).toNat
  keeps : ∀ a b, ¬(address.toNat ≤ a.toNat ∧
      a.toNat < address.toNat + width.bytes * ns.length) →
    m.readByte a = some b → m'.readByte a = some b
  rest : m' = { m with bytes := m'.bytes }

theorem filled_writeBytes (m : Image) {address : UInt32} {width : Width} {ns : List Int}
    (hFit : address.toNat + width.bytes * ns.length ≤ 0xFFFFFFFF) :
    Filled m (m.writeBytes address (Store.block m width ns)) address width ns := by
  have hLength := Store.length_block m width ns
  constructor
  · intro i v hValue
    obtain ⟨hIndex, _⟩ := List.getElem?_eq_some_iff.mp hValue
    have hPositive : 0 < width.bytes * ns.length :=
      Nat.mul_pos width.bytes_pos (Nat.zero_lt_of_lt hIndex)
    have hSome : Store.block m width ns ≠ [] := by
      apply List.ne_nil_of_length_pos
      rw [hLength]
      exact hPositive
    have hBlock := m.readBytes_writeBytes address (by rw [hLength]; omega) hSome
    have hEndian := congrArg Image.endian (m.writeBytes_eq address (Store.block m width ns))
    have hNumber : (ns.map width.residue)[i]? = some (width.residue v) := by
      rw [List.getElem?_map, hValue, Option.map_some]
    have hFits : address.toNat + width.bytes * (ns.map width.residue).length < 0x100000000 := by
      rw [List.length_map]
      omega
    have hBytes : (m.writeBytes address (Store.block m width ns)).readBytes address
        (width.bytes * (ns.map width.residue).length) = some ((ns.map width.residue).flatMap
          fun n => (m.writeBytes address (Store.block m width ns)).endian.encode width.bytes n) := by
      rw [List.length_map, ← hLength, hBlock, hEndian]
      rfl
    rw [Image.readNumber_of_readBytes hFits hBytes hNumber,
      Nat.mod_eq_of_lt (width.residue_lt v), Width.residue]
  · intro a b hOutside hRead
    rw [← hLength] at hOutside
    exact m.readByte_writeBytes address (by rw [hLength]; omega) hOutside hRead
  · exact m.writeBytes_eq address _

/-! ## Data items -/

/-- Storing stops at the value `c`: it is blamed, and those in front of it are written. -/
structure Halted (labels : LabelTable) (m m' : Image) (it : Item) (width : Width)
    (before : List Immediate) (c : Immediate) (e : Error) : Prop where
  stores : ∀ d ∈ before, ∃ v, d.Denotes labels v ∧ width.Admits v
  offends : ∃ cause, c.Offends labels width cause ∧ e = cause.located it.pos
  filled : ∃ ns, List.Forall₂ (Immediate.Denotes labels) before ns ∧
    Filled m m' it.address width ns
  written : Store.items labels [{ it with payload := .data width before }] m = .ok () m'

theorem exists_stores_of_forall₂ {labels : LabelTable} {width : Width} {vs : List Immediate}
    {ns : List Int} (hAll : List.Forall₂ (Immediate.Stores labels width) vs ns) :
    ∀ c ∈ vs, ∃ v, c.Stores labels width v := by
  induction hAll with
  | nil => simp
  | @cons c v _ _ hFirst _ ih => exact List.forall_mem_cons.mpr ⟨⟨v, hFirst⟩, ih⟩

/-- **Data directives store their values.** Storing a data item succeeds exactly if every value
denotes a number that its width takes. Then each number is read back at its place and nothing
around the item changes. Otherwise the first value that cannot be stored is blamed, with the values
in front of it written. -/
theorem data_item_stored (labels : LabelTable) (m : Image) (it : Item) (width : Width)
    (vs : List Immediate) (hPayload : it.payload = .data width vs)
    (hFit : it.address.toNat + width.bytes * vs.length ≤ 0xFFFFFFFF) :
    ((∃ m', Store.items labels [it] m = .ok () m') ↔
        ∀ c ∈ vs, ∃ v, c.Denotes labels v ∧ width.Admits v) ∧
      (∀ m', Store.items labels [it] m = .ok () m' →
        ∃ ns, List.Forall₂ (Immediate.Denotes labels) vs ns ∧
          Filled m m' it.address width ns) ∧
      ∀ e m', Store.items labels [it] m = .error e m' →
        ∃ before c after, vs = before ++ c :: after ∧ Halted labels m m' it width before c e := by
  rw [Store.items_data it hPayload]
  rcases Immediate.all_store_or_offends labels width vs with
    ⟨ns, hAll⟩ | ⟨before, c, after, ns, cause, rfl, hBefore, hOffends⟩
  · rw [Store.values_of_stores hAll]
    refine ⟨?_, ?_, ?_⟩
    · exact ⟨fun _ => exists_stores_of_forall₂ hAll, fun _ => ⟨_, rfl⟩⟩
    · rintro m' ⟨⟩
      refine ⟨ns, hAll.imp fun _ _ hStores => hStores.1, filled_writeBytes m ?_⟩
      rw [← hAll.length_eq]
      exact hFit
    · rintro e m' ⟨⟩
  · rw [Store.values_of_offends hBefore hOffends]
    refine ⟨?_, ?_, ?_⟩
    · constructor
      · rintro ⟨m', ⟨⟩⟩
      · intro hAll
        exact absurd (hAll c (by simp)) hOffends.not_stores
    · rintro m' ⟨⟩
    · rintro e m' ⟨⟩
      refine ⟨before, c, after, rfl, exists_stores_of_forall₂ hBefore, ⟨cause, hOffends, rfl⟩,
        ⟨ns, hBefore.imp fun _ _ hStores => hStores.1, filled_writeBytes m ?_⟩, ?_⟩
      · rw [← hBefore.length_eq]
        rw [List.length_append, Nat.mul_add] at hFit
        omega
      · rw [Store.items_data _ rfl, Store.values_of_stores hBefore]

/-- A negative half-word across the end of the buffer, a symbol, and a number that is too large. -/
def straddling : Item :=
  ⟨6, ⟨0, 3, 2⟩, .data .half [.literal (-2), .symbol "x", .literal 0x10000, .symbol "y"]⟩

def straddlingLabels : LabelTable :=
  ⟨[⟨"x", ⟨0, 0, 0⟩, 0x1234⟩]⟩

def straddlingMemory : Image :=
  ⟨#[0, 0, 0, 0, 0, 0, 0xFF, 0xFE, 0x12, 0x34, 0, 0, 0, 0, 0, 0], .big, 0, .empty, .empty, 0⟩

theorem data_item_stored_straddling :
    Store.items straddlingLabels [straddling] (.ofCapacity 7 .big) =
        .error ((Cause.immediateOutOfRange 0x10000 16).located ⟨0, 3, 2⟩) straddlingMemory ∧
      ∃ before c after,
        [.literal (-2), .symbol "x", .literal 0x10000, .symbol "y"] = before ++ c :: after ∧
          Halted straddlingLabels (.ofCapacity 7 .big) straddlingMemory straddling .half before c
            ((Cause.immediateOutOfRange 0x10000 16).located ⟨0, 3, 2⟩) := by
  have hRun : Store.items straddlingLabels [straddling] (.ofCapacity 7 .big) =
      .error ((Cause.immediateOutOfRange 0x10000 16).located ⟨0, 3, 2⟩) straddlingMemory := by
    decide +kernel
  obtain ⟨_, _, hHalted⟩ := data_item_stored straddlingLabels (.ofCapacity 7 .big) straddling .half
    _ rfl (by decide)
  exact ⟨hRun, hHalted _ _ hRun⟩

end MipsAsm
