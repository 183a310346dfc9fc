import MipsAsm.Proofs.Memory.Bytes
import MipsAsm.Proofs.Memory.Layout

/-! # Images under edits

An image is changed by edits: segments are opened and extended, bytes are written. Whatever the
edits, each track stays in the order of starts and, among equal starts, of opening, and the rank of
a segment is its place among all openings.
-/

namespace MipsAsm.Memory

inductive Edit where
  | openData (address : Int)
  | openText (address : Int)
  | extendData (stop : UInt32)
  | extendText (stop : UInt32)
  | writeByte (address : UInt32) (value : UInt8)
  | writeBytes (address : UInt32) (bytes : List UInt8)
  | writeHalf (address : UInt32) (value : UInt16)
  | writeWord (address : UInt32) (value : UInt32)
  | load (bytes : Array UInt8)
  | setEndian (endian : Endian)
  | setEntry (address : UInt32)
  deriving DecidableEq, Repr

namespace Edit

def apply : Edit → Image → Image
  | openData address, m => m.openData address
  | openText address, m => m.openText address
  | extendData stop, m => m.extendData stop
  | extendText stop, m => m.extendText stop
  | writeByte address value, m => m.writeByte address value
  | writeBytes address bytes, m => m.writeBytes address bytes
  | writeHalf address value, m => m.writeHalf address value
  | writeWord address value, m => m.writeWord address value
  | load bytes, m => m.load bytes
  | setEndian endian, m => { m with endian }
  | setEntry address, m => { m with entry := address }

/-- The kind and the start of the segment that an edit opens. -/
def opening? : Edit → Option (SegmentKind × UInt32)
  | openData address => some (.data, clampAddress address)
  | openText address => some (.text, clampAddress address)
  | _ => none

end Edit

/-- What edits open, in order. -/
def openings (edits : List Edit) : List (SegmentKind × UInt32) :=
  edits.filterMap Edit.opening?

def Image.edited (m : Image) (edits : List Edit) : Image :=
  edits.foldl (fun image edit => edit.apply image) m

theorem Image.edited_append (m : Image) (first second : List Edit) :
    m.edited (first ++ second) = (m.edited first).edited second :=
  List.foldl_append

/-! ## What one edit does to the tracks -/

namespace Image

inductive Retracked (m m' : Image) : Option (SegmentKind × UInt32) → Prop where
  | opened (kind : SegmentKind) (start : UInt32) (hOpened : m'.opened = m.opened + 1)
      (hSame : m'.track kind = (m.track kind).openAt start (m.opened + 1))
      (hOther : ∀ k, k ≠ kind → m'.track k = m.track k) : Retracked m m' (some (kind, start))
  | extended (kind : SegmentKind) (stop : UInt32) (hOpened : m'.opened = m.opened)
      (hSame : m'.track kind = (m.track kind).extend stop)
      (hOther : ∀ k, k ≠ kind → m'.track k = m.track k) : Retracked m m' none
  | kept (hOpened : m'.opened = m.opened) (hSame : ∀ k, m'.track k = m.track k) :
      Retracked m m' none

theorem track_of_ne_data {m m' : Image} (hText : m'.text = m.text) :
    ∀ k, k ≠ .data → m'.track k = m.track k := by
  rintro (_ | _) hKind
  · exact absurd rfl hKind
  · exact hText

theorem track_of_ne_text {m m' : Image} (hData : m'.data = m.data) :
    ∀ k, k ≠ .text → m'.track k = m.track k := by
  rintro (_ | _) hKind
  · exact hData
  · exact absurd rfl hKind

theorem Retracked.of_eq {m m' : Image} (hData : m'.data = m.data) (hText : m'.text = m.text)
    (hOpened : m'.opened = m.opened) : Retracked m m' none := by
  refine .kept hOpened ?_
  rintro (_ | _)
  · exact hData
  · exact hText

theorem retracked_writeBytes (m : Image) (address : UInt32) (bytes : List UInt8) :
    Retracked m (m.writeBytes address bytes) none := by
  rw [writeBytes_eq]
  exact .of_eq rfl rfl rfl

theorem retracked_apply (m : Image) (edit : Edit) :
    Retracked m (edit.apply m) edit.opening? := by
  cases edit with
  | openData address => exact .opened .data _ rfl rfl (track_of_ne_data rfl)
  | openText address => exact .opened .text _ rfl rfl (track_of_ne_text rfl)
  | extendData stop => exact .extended .data stop rfl rfl (track_of_ne_data rfl)
  | extendText stop => exact .extended .text stop rfl rfl (track_of_ne_text rfl)
  | writeBytes address bytes => exact retracked_writeBytes m address bytes
  | writeHalf address value => exact retracked_writeBytes m address _
  | writeWord address value => exact retracked_writeBytes m address _
  | writeByte address value => exact .of_eq rfl rfl rfl
  | load bytes => exact .of_eq rfl rfl rfl
  | setEndian endian => exact .of_eq rfl rfl rfl
  | setEntry address => exact .of_eq rfl rfl rfl

end Image

/-! ## The order of a track -/

/-- By start, then by opening. -/
def Opened.Before (a b : Opened) : Prop :=
  a.segment.start < b.segment.start ∨ (a.segment.start = b.segment.start ∧ a.serial < b.serial)

theorem Opened.Before.start_le {a b : Opened} (hBefore : a.Before b) :
    a.segment.start ≤ b.segment.start := by
  rcases hBefore with hLt | ⟨hEq, _⟩
  · exact UInt32.le_of_lt hLt
  · exact UInt32.le_of_eq hEq

theorem Opened.Before.asymm {a b : Opened} (hBefore : a.Before b) : ¬ b.Before a := by
  simp only [Opened.Before, UInt32.lt_iff_toNat_lt, ← UInt32.toNat_inj] at hBefore ⊢
  omega

namespace Track

theorem start_lt_of_mem_dropWhile {start : UInt32} {list : List Opened}
    (hOrder : list.Pairwise Opened.Before) :
    ∀ o ∈ list.dropWhile (fun x => x.segment.start ≤ start), start < o.segment.start := by
  induction list with
  | nil => simp
  | cons x list ih =>
    rw [List.dropWhile_cons]
    split
    · exact ih hOrder.of_cons
    · rename_i hStart
      have hFirst : start < x.segment.start := by simpa using hStart
      intro o hMem
      rcases List.mem_cons.mp hMem with rfl | hTail
      · exact hFirst
      · exact UInt32.lt_of_lt_of_le hFirst (List.rel_of_pairwise_cons hOrder hTail).start_le

theorem pairwise_insert {o : Opened} {list : List Opened} (hOrder : list.Pairwise Opened.Before)
    (hSerial : ∀ p ∈ list, p.serial < o.serial) : (insert o list).Pairwise Opened.Before := by
  rw [insert, List.pairwise_append, List.pairwise_cons]
  have hBehind : ∀ p ∈ list.dropWhile (fun x => x.segment.start ≤ o.segment.start), o.Before p :=
    fun p hMem => Or.inl (start_lt_of_mem_dropWhile hOrder p hMem)
  have hFront : ∀ p ∈ list.takeWhile (fun x => x.segment.start ≤ o.segment.start), p.Before o := by
    intro p hMem
    have hStart : p.segment.start ≤ o.segment.start := by
      simpa using List.all_eq_true.mp List.all_takeWhile p hMem
    have hLower := hSerial p (List.takeWhile_subset _ hMem)
    rcases UInt32.lt_or_eq_of_le hStart with hLt | hEq
    · exact Or.inl hLt
    · exact Or.inr ⟨hEq, hLower⟩
  refine ⟨hOrder.sublist (List.takeWhile_sublist _), ⟨hBehind, ?_⟩, ?_⟩
  · exact hOrder.sublist (List.dropWhile_sublist _)
  · intro p hMem q hMem'
    rcases List.mem_cons.mp hMem' with rfl | hTail
    · exact hFront p hMem
    · exact Or.inl (UInt32.lt_of_le_of_lt (hFront p hMem).start_le
        (start_lt_of_mem_dropWhile hOrder q hTail))

structure Ordered (t : Track) : Prop where
  settled : t.settled.Pairwise Opened.Before
  latest : ∀ o, t.latest = some o → ∀ p ∈ t.settled, p.serial < o.serial

theorem ordered_empty : empty.Ordered := by
  constructor <;> simp [empty]

theorem Ordered.entries {t : Track} (hOrdered : t.Ordered) :
    t.entries.Pairwise Opened.Before := by
  rw [Track.entries]
  split
  · exact hOrdered.settled
  · rename_i o hLatest
    exact pairwise_insert hOrdered.settled (hOrdered.latest o hLatest)

theorem Ordered.openAt {t : Track} (hOrdered : t.Ordered) {start : UInt32} {serial : Nat}
    (hSerial : ∀ o ∈ t.entries, o.serial < serial) : (t.openAt start serial).Ordered := by
  constructor
  · exact hOrdered.entries.sublist t.settle_sublist_entries
  · rintro o hLatest p hMem
    cases hLatest
    exact hSerial p (t.settle_sublist_entries.subset hMem)

theorem Ordered.extend {t : Track} (hOrdered : t.Ordered) (stop : UInt32) :
    (t.extend stop).Ordered := by
  constructor
  · exact hOrdered.settled
  · intro o hLatest
    obtain ⟨p, hOld, rfl⟩ := Option.map_eq_some_iff.mp hLatest
    exact hOrdered.latest p hOld

/-- Extending changes neither the starts nor the ranks of a track. -/
theorem mem_entries_of_extend {t : Track} {stop : UInt32} {o : Opened}
    (hEntry : o ∈ (t.extend stop).entries) :
    ∃ p ∈ t.entries, p.serial = o.serial ∧ p.segment.start = o.segment.start := by
  rcases mem_entries_extend.mp hEntry with ⟨p, hLatest, rfl⟩ | hSettled
  · exact ⟨p, mem_entries.mpr (Or.inl hLatest), rfl, rfl⟩
  · exact ⟨o, mem_entries.mpr (Or.inr hSettled), rfl, rfl⟩

end Track

/-! ## Any edits -/

namespace Image

/-- The tracks of an image in which the listed segments were opened. -/
structure Charted (m : Image) (log : List (SegmentKind × UInt32)) : Prop where
  opened_eq : m.opened = log.length
  ordered : ∀ kind, (m.track kind).Ordered
  logged : ∀ kind, ∀ o ∈ (m.track kind).entries, ∃ rank, o.serial = rank + 1 ∧
    log[rank]? = some (kind, o.segment.start)

theorem charted_ofCapacity (capacity : Nat) (endian : Endian) :
    (ofCapacity capacity endian).Charted [] := by
  constructor
  · rfl
  · rintro (_ | _) <;> exact Track.ordered_empty
  · rintro (_ | _) o hEntry <;> exact absurd hEntry List.not_mem_nil

namespace Charted

variable {m m' : Image} {log : List (SegmentKind × UInt32)}

theorem serial_le (hCharted : m.Charted log) {kind : SegmentKind} {o : Opened}
    (hEntry : o ∈ (m.track kind).entries) : o.serial ≤ m.opened := by
  obtain ⟨rank, hSerial, hLog⟩ := hCharted.logged kind o hEntry
  have hRank := (List.getElem?_eq_some_iff.mp hLog).1
  rw [hSerial, hCharted.opened_eq]
  exact hRank

theorem step (hCharted : m.Charted log) {opening : Option (SegmentKind × UInt32)}
    (hStep : Retracked m m' opening) : m'.Charted (log ++ opening.toList) := by
  cases hStep with
  | opened kind start hOpened hSame hOther =>
    refine ⟨by simp [hOpened, hCharted.opened_eq], ?_, ?_⟩
    · intro k
      by_cases hKind : k = kind
      · subst hKind
        rw [hSame]
        exact (hCharted.ordered k).openAt fun o hEntry =>
          Nat.lt_succ_of_le (hCharted.serial_le hEntry)
      · rw [hOther k hKind]
        exact hCharted.ordered k
    · intro k o hEntry
      -- the new segment is the last opening, and the others keep their places in the log
      have hOld : o ∈ (m.track k).entries → ∃ rank, o.serial = rank + 1 ∧
          (log ++ [(kind, start)])[rank]? = some (k, o.segment.start) := by
        intro hEntry'
        obtain ⟨rank, hSerial, hLog⟩ := hCharted.logged k o hEntry'
        have hRank := (List.getElem?_eq_some_iff.mp hLog).1
        exact ⟨rank, hSerial, by rw [List.getElem?_append_left hRank, hLog]⟩
      by_cases hKind : k = kind
      · subst hKind
        rw [hSame, Track.mem_entries_openAt] at hEntry
        rcases hEntry with rfl | hSettled
        · exact ⟨log.length, by rw [hCharted.opened_eq], by simp [Segment.emptyAt]⟩
        · exact hOld ((Track.settle_sublist_entries _).subset hSettled)
      · rw [hOther k hKind] at hEntry
        exact hOld hEntry
  | extended kind stop hOpened hSame hOther =>
    rw [Option.toList_none, List.append_nil]
    refine ⟨hOpened.trans hCharted.opened_eq, ?_, ?_⟩
    · intro k
      by_cases hKind : k = kind
      · subst hKind
        rw [hSame]
        exact (hCharted.ordered k).extend stop
      · rw [hOther k hKind]
        exact hCharted.ordered k
    · intro k o hEntry
      by_cases hKind : k = kind
      · subst hKind
        rw [hSame] at hEntry
        obtain ⟨p, hEntry', hSerial, hStart⟩ := Track.mem_entries_of_extend hEntry
        rw [← hSerial, ← hStart]
        exact hCharted.logged k p hEntry'
      · rw [hOther k hKind] at hEntry
        exact hCharted.logged k o hEntry
  | kept hOpened hSame =>
    rw [Option.toList_none, List.append_nil]
    constructor
    · exact hOpened.trans hCharted.opened_eq
    · simpa only [hSame] using hCharted.ordered
    · simpa only [hSame] using hCharted.logged

theorem edited (hCharted : m.Charted log) (edits : List Edit) :
    (m.edited edits).Charted (log ++ openings edits) := by
  induction edits generalizing m log with
  | nil =>
    rw [openings, List.filterMap_nil, List.append_nil]
    exact hCharted
  | cons edit edits ih =>
    have hFirst := hCharted.step (retracked_apply m edit)
    have hRest := ih hFirst
    have hLog : openings (edit :: edits) = edit.opening?.toList ++ openings edits := by
      cases hOpening : edit.opening? <;> simp [openings, hOpening]
    rw [hLog, ← List.append_assoc]
    exact hRest

/-- A rank names one opening, so it is never shared. -/
theorem serial_ne (hCharted : m.Charted log) {kind : SegmentKind} {a b : Opened}
    (hFirst : a ∈ (m.track kind).entries) (hSecond : b ∈ (m.track kind).entries)
    (hBefore : a.Before b) : a.serial ≠ b.serial := by
  intro hEq
  obtain ⟨rank, hSerial, hLog⟩ := hCharted.logged kind a hFirst
  obtain ⟨rank', hSerial', hLog'⟩ := hCharted.logged kind b hSecond
  obtain rfl : rank = rank' := by omega
  have hStart : a.segment.start = b.segment.start := by
    rw [hLog, Option.some.injEq, Prod.mk.injEq] at hLog'
    exact hLog'.2
  rcases hBefore with hLt | ⟨_, hLt⟩
  · exact absurd (hStart ▸ hLt) (UInt32.lt_irrefl _)
  · omega

theorem serial_ne_of_kind_ne (hCharted : m.Charted log) {k₁ k₂ : SegmentKind} (hKinds : k₁ ≠ k₂)
    {a b : Opened} (hFirst : a ∈ (m.track k₁).entries) (hSecond : b ∈ (m.track k₂).entries) :
    a.serial ≠ b.serial := by
  intro hEq
  obtain ⟨rank, hSerial, hLog⟩ := hCharted.logged k₁ a hFirst
  obtain ⟨rank', hSerial', hLog'⟩ := hCharted.logged k₂ b hSecond
  obtain rfl : rank = rank' := by omega
  rw [hLog, Option.some.injEq, Prod.mk.injEq] at hLog'
  exact hKinds hLog'.1

theorem pairwise_serial_ne (hCharted : m.Charted log) (kind : SegmentKind) :
    (m.track kind).entries.Pairwise fun a b => a.serial ≠ b.serial :=
  (hCharted.ordered kind).entries.imp_of_mem fun hFirst hSecond hBefore =>
    hCharted.serial_ne hFirst hSecond hBefore

theorem eq_of_serial_eq (hCharted : m.Charted log) {k₁ k₂ : SegmentKind} {a b : Opened}
    (hFirst : a ∈ (m.track k₁).entries) (hSecond : b ∈ (m.track k₂).entries)
    (hSerial : a.serial = b.serial) : a = b := by
  have hKinds : k₁ = k₂ := Decidable.byContradiction fun hKinds =>
    hCharted.serial_ne_of_kind_ne hKinds hFirst hSecond hSerial
  subst hKinds
  have hSymm : Std.Symm fun a b : Opened => a.serial ≠ b.serial := ⟨fun _ _ => Ne.symm⟩
  exact Decidable.byContradiction fun hNe =>
    (hCharted.pairwise_serial_ne k₁).forall hFirst hSecond hNe hSerial

end Charted

end Image

end MipsAsm.Memory
