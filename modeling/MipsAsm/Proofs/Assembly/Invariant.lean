import MipsAsm.Proofs.Assembly.History
import MipsAsm.Proofs.Item.Encoding
import MipsAsm.Proofs.Memory.Edit

/-! # Cursors, segments and items

The cursor of a section is open just when the section has a current segment, and never stands in
front of the end of that segment. Every item lies in one segment of its section, and two items
that share a segment stand in it one behind the other. All this holds after any sources, whether
they succeeded or failed.
-/

namespace MipsAsm

open Memory (Image SegmentKind Track Opened)

/-! ## Segments of a section -/

theorem Memory.clampAddress_toNat (address : UInt32) :
    clampAddress (address.toNat : Int) = address := by
  have hBound := address.toNat_lt
  apply UInt32.toNat.inj
  rw [clampAddress, Int.toNat_natCast, Nat.min_eq_left (by omega), UInt32.ofNat_toNat]

namespace Assembly

theorem track_openSegment (s : Section) (m : Image) (address : Int) :
    (openSegment s m address).track s.kind =
      (m.track s.kind).openAt (Memory.clampAddress address) (m.opened + 1) := by
  cases s <;> rfl

theorem track_openSegment_of_ne {s : Section} {kind : SegmentKind} (m : Image) (address : Int)
    (hKind : kind ≠ s.kind) : (openSegment s m address).track kind = m.track kind := by
  cases s <;> cases kind
  · rfl
  · exact absurd rfl hKind
  · exact absurd rfl hKind
  · rfl

theorem track_extendSegment (s : Section) (m : Image) (stop : UInt32) :
    (extendSegment s m stop).track s.kind = (m.track s.kind).extend stop := by
  cases s <;> rfl

theorem track_extendSegment_of_ne {s : Section} {kind : SegmentKind} (m : Image) (stop : UInt32)
    (hKind : kind ≠ s.kind) : (extendSegment s m stop).track kind = m.track kind := by
  cases s <;> cases kind
  · rfl
  · exact absurd rfl hKind
  · exact absurd rfl hKind
  · rfl

theorem grows_openSegment (s : Section) (m : Image) (address : Int) :
    m.Grows (openSegment s m address) := by
  intro kind
  by_cases hKind : kind = s.kind
  · subst hKind
    rw [track_openSegment]
    exact Track.grows_openAt _ _ _
  · rw [track_openSegment_of_ne m address hKind]
    exact Track.Grows.refl _

theorem grows_extendSegment (s : Section) (m : Image) (stop : UInt32) :
    m.Grows (extendSegment s m stop) := by
  intro kind
  by_cases hKind : kind = s.kind
  · subst hKind
    rw [track_extendSegment]
    exact Track.grows_extend _ _
  · rw [track_extendSegment_of_ne m stop hKind]
    exact Track.Grows.refl _

theorem retracked_openSegment (s : Section) (m : Image) (address : Int) :
    m.Retracked (openSegment s m address) (some (s.kind, Memory.clampAddress address)) :=
  .opened s.kind _ (by cases s <;> rfl) (track_openSegment s m address)
    fun _ hKind => track_openSegment_of_ne m address hKind

theorem retracked_extendSegment (s : Section) (m : Image) (stop : UInt32) :
    m.Retracked (extendSegment s m stop) none :=
  .extended s.kind stop (by cases s <;> rfl) (track_extendSegment s m stop)
    fun _ hKind => track_extendSegment_of_ne m stop hKind

/-- The current segment of a section ends where an item behind it ends. -/
theorem latest_extendSegment {s : Section} {m : Image} {o : Opened} (stop : UInt32)
    (hLatest : (m.track s.kind).latest = some o) (hStop : o.segment.stop.toNat ≤ stop.toNat) :
    ∃ o', ((extendSegment s m stop).track s.kind).latest = some o' ∧ o'.serial = o.serial ∧
      o'.segment.start = o.segment.start ∧ o'.segment.stop = stop := by
  refine ⟨{ o with segment := o.segment.extend stop }, ?_, rfl, rfl, ?_⟩
  · rw [track_extendSegment, Track.extend, hLatest]
    rfl
  · exact if_pos (UInt32.le_iff_toNat_le.mpr hStop)

/-- The image in which an item at `address` is about to be staged: its section has a current
segment. -/
def readied (a : Assembly) (address : UInt32) : Image :=
  if a.cursor.isOpen then a.memory else openSegment a.active a.memory address.toNat

theorem place_movedTo (a : Assembly) (item : Item) (stop : UInt32) :
    (a.movedTo item.address).place item stop =
      { a with
        memory := extendSegment a.active (a.readied item.address) stop
        staged := a.staged.push item }.withCursor ⟨stop, true⟩ := by
  obtain ⟨active, text, data, pending, labels, memory, staged⟩ := a
  cases active <;> rfl

end Assembly

/-! ## The invariant -/

structure Coupled (c : Cursor) (t : Track) : Prop where
  isOpen_iff : c.isOpen = true ↔ t.latest.isSome = true
  stop_le : ∀ o, t.latest = some o → o.segment.stop.toNat ≤ c.pc.toNat

theorem Coupled.of_latest {c : Cursor} {t : Track} {o : Opened} (hLatest : t.latest = some o)
    (hOpen : c.isOpen = true) (hStop : o.segment.stop.toNat ≤ c.pc.toNat) : Coupled c t := by
  constructor
  · rw [hOpen, hLatest]
    exact Iff.rfl
  · intro p hCurrent
    cases hLatest.symm.trans hCurrent
    exact hStop

def Holds (o : Opened) (item : Item) : Prop :=
  o.segment.start.toNat ≤ item.address.toNat ∧
    item.address.toNat + item.size ≤ o.segment.stop.toNat

structure Placed (m : Image) (p : Section × Item) : Prop where
  fits : p.2.address.toNat + p.2.size < 0x100000000
  wellPlaced : WellPlaced p.1 p.2
  held : 0 < p.2.size → ∃ o ∈ (m.track p.1.kind).entries, Holds o p.2

/-- The first item ends before the second starts, unless they lie in different segments. -/
def Separated (m : Image) (p q : Section × Item) : Prop :=
  0 < p.2.size → 0 < q.2.size → p.2.address.toNat + p.2.size ≤ q.2.address.toNat ∨
    ∃ o₁ ∈ (m.track p.1.kind).entries, ∃ o₂ ∈ (m.track q.1.kind).entries,
      Holds o₁ p.2 ∧ Holds o₂ q.2 ∧ o₁.serial ≠ o₂.serial

structure Sound (a : Assembly) (log : List (Section × Item)) : Prop where
  coupled : ∀ s, Coupled (a.cursorOf s) (a.memory.track s.kind)
  charted : ∃ openings, a.memory.Charted openings
  placed : ∀ p ∈ log, Placed a.memory p
  separated : log.Pairwise (Separated a.memory)

/-- Growing segments go on holding what they hold. -/
theorem Holds.of_grows {t u : Track} {o : Opened} {item : Item} (hHolds : Holds o item)
    (hGrows : t.Grows u) (hEntry : o ∈ t.entries) (hSize : 0 < item.size) :
    ∃ p ∈ u.entries, p.serial = o.serial ∧ Holds p item := by
  obtain ⟨hStart, hStop⟩ := hHolds
  have hNonempty : ¬ o.segment.isEmpty = true := by
    intro hEmpty
    rw [Memory.Segment.isEmpty_iff] at hEmpty
    rw [hEmpty] at hStart
    omega
  obtain ⟨p, hEntry', hSerial, hStart', hStop'⟩ := hGrows o hEntry hNonempty
  refine ⟨p, hEntry', hSerial, ?_, Nat.le_trans hStop hStop'⟩
  rw [hStart']
  exact hStart

theorem Placed.of_grows {m m' : Image} {p : Section × Item} (hPlaced : Placed m p)
    (hGrows : m.Grows m') : Placed m' p := by
  refine ⟨hPlaced.fits, hPlaced.wellPlaced, ?_⟩
  intro hSize
  obtain ⟨o, hEntry, hHolds⟩ := hPlaced.held hSize
  obtain ⟨o', hEntry', _, hHolds'⟩ := hHolds.of_grows (hGrows _) hEntry hSize
  exact ⟨o', hEntry', hHolds'⟩

theorem Placed.contains {m : Image} {s : Section} {item : Item} {address : UInt32}
    (hPlaced : Placed m (s, item)) (hCovers : item.Covers address.toNat) :
    (m.track s.kind).contains address = true := by
  obtain ⟨hLower, hUpper⟩ := hCovers
  obtain ⟨o, hEntry, hStart, hStop⟩ := hPlaced.held (by change 0 < item.size; omega)
  rw [Track.contains, List.any_eq_true]
  refine ⟨o.segment, List.mem_map.mpr ⟨o, hEntry, rfl⟩, ?_⟩
  rw [Memory.Segment.contains_iff]
  exact ⟨Nat.le_trans hStart hLower, Nat.lt_of_lt_of_le hUpper hStop⟩

theorem Separated.of_grows {m m' : Image} {p q : Section × Item} (hSeparated : Separated m p q)
    (hGrows : m.Grows m') : Separated m' p q := by
  intro hSize₁ hSize₂
  rcases hSeparated hSize₁ hSize₂ with hBefore | ⟨o₁, hEntry₁, o₂, hEntry₂, hHolds₁, hHolds₂, hNe⟩
  · exact Or.inl hBefore
  · obtain ⟨o₁', hEntry₁', hSerial₁, hHolds₁'⟩ := hHolds₁.of_grows (hGrows _) hEntry₁ hSize₁
    obtain ⟨o₂', hEntry₂', hSerial₂, hHolds₂'⟩ := hHolds₂.of_grows (hGrows _) hEntry₂ hSize₂
    refine Or.inr ⟨o₁', hEntry₁', o₂', hEntry₂', hHolds₁', hHolds₂', ?_⟩
    rwa [hSerial₁, hSerial₂]

/-- An item at or behind the end of the current segment, to be held by that segment, is separated
from all earlier ones: those that lie in the current segment end before it starts. -/
theorem Separated.of_latest {m m' : Image} {p : Section × Item} {s : Section} {item : Item}
    {o o' : Opened} {openings : List (SegmentKind × UInt32)}
    (hPlaced : Placed m p) (hCharted : m.Charted openings) (hGrows : m.Grows m')
    (hLatest : (m.track s.kind).latest = some o)
    (hLast : o.segment.stop.toNat ≤ item.address.toNat)
    (hEntry' : o' ∈ (m'.track s.kind).entries) (hSerial' : o'.serial = o.serial)
    (hHolds' : Holds o' item) : Separated m' p (s, item) := by
  intro hSize _
  obtain ⟨o₁, hEntry₁, hHolds₁⟩ := hPlaced.held hSize
  by_cases hSerial : o₁.serial = o.serial
  · have hSame := hCharted.eq_of_serial_eq hEntry₁ (Track.mem_entries.mpr (Or.inl hLatest)) hSerial
    rw [hSame] at hHolds₁
    exact Or.inl (Nat.le_trans hHolds₁.2 hLast)
  · obtain ⟨o₁', hEntry₁', hSerial₁, hHolds₁'⟩ := hHolds₁.of_grows (hGrows _) hEntry₁ hSize
    refine Or.inr ⟨o₁', hEntry₁', o', hEntry', hHolds₁', hHolds', ?_⟩
    rw [hSerial₁, hSerial']
    exact hSerial

namespace Sound

theorem ofBases (textBase dataBase : UInt32) (capacity : Nat) (endian : Memory.Endian) :
    Sound (.ofBases textBase dataBase (.ofCapacity capacity endian)) [] := by
  constructor
  · intro s
    constructor
    · cases s <;> exact Iff.rfl
    · intro o hLatest
      cases s <;> cases hLatest
  · exact ⟨[], Image.charted_ofCapacity capacity endian⟩
  · intro p hMem
    cases hMem
  · exact List.Pairwise.nil

variable {a : Assembly} {log : List (Section × Item)}

/-- Where no item is added, only the cursors have to be looked at. -/
theorem of_grows (hSound : Sound a log) {b : Assembly} (hGrows : a.memory.Grows b.memory)
    (hCharted : ∃ openings, b.memory.Charted openings)
    (hCoupled : ∀ s, Coupled (b.cursorOf s) (b.memory.track s.kind)) : Sound b log :=
  ⟨hCoupled, hCharted, fun p hMem => (hSound.placed p hMem).of_grows hGrows,
    hSound.separated.imp fun hSeparated => hSeparated.of_grows hGrows⟩

theorem moved (hSound : Sound a log) {pc : UInt32} (hPc : a.pc.toNat ≤ pc.toNat) :
    Sound (a.movedTo pc) log := by
  have hMemory : (a.movedTo pc).memory = a.memory := Assembly.memory_withCursor _ _
  refine hSound.of_grows (hMemory ▸ Image.Grows.refl _) (hMemory ▸ hSound.charted) ?_
  intro s
  rw [hMemory, Assembly.movedTo, Assembly.cursorOf_withCursor]
  split
  · rename_i hActive
    have hCoupled := hSound.coupled s
    rw [hActive, ← Assembly.cursor_eq] at hCoupled
    subst hActive
    exact ⟨hCoupled.isOpen_iff, fun o hLatest => Nat.le_trans (hCoupled.stop_le o hLatest) hPc⟩
  · exact hSound.coupled s

theorem switched (hSound : Sound a log) (target : Section) (address : Option Int) :
    Sound (a.switch target address) log := by
  cases address with
  | none => exact ⟨hSound.coupled, hSound.charted, hSound.placed, hSound.separated⟩
  | some v =>
    obtain ⟨openings, hCharted⟩ := hSound.charted
    have hMemory : (a.switch target (some v)).memory =
        Assembly.openSegment target a.memory v := Assembly.memory_withCursor _ _
    refine hSound.of_grows (hMemory ▸ Assembly.grows_openSegment target a.memory v)
      ⟨_, hMemory ▸ hCharted.step (Assembly.retracked_openSegment target a.memory v)⟩ ?_
    intro s
    rw [hMemory]
    simp only [Assembly.switch, Assembly.cursorOf_withCursor]
    split
    · rename_i hTarget
      subst hTarget
      rw [Assembly.track_openSegment]
      exact Coupled.of_latest rfl rfl (Nat.le_refl _)
    · rename_i hTarget
      rw [Assembly.track_openSegment_of_ne a.memory v fun hKind =>
        hTarget (Section.kind_injective hKind)]
      exact hSound.coupled s

/-- Before an item is staged its section has a current segment, which starts and ends no later
than the item starts. -/
theorem readied (hSound : Sound a log) {address : UInt32} (hPc : a.pc.toNat ≤ address.toNat) :
    a.memory.Grows (a.readied address) ∧ (∃ openings, (a.readied address).Charted openings) ∧
      (∀ s, s ≠ a.active → (a.readied address).track s.kind = a.memory.track s.kind) ∧
      ∃ o, ((a.readied address).track a.active.kind).latest = some o ∧
        o.segment.start.toNat ≤ address.toNat ∧ o.segment.stop.toNat ≤ address.toNat := by
  obtain ⟨openings, hCharted⟩ := hSound.charted
  rw [Assembly.readied]
  split
  · rename_i hOpen
    refine ⟨Image.Grows.refl _, ⟨openings, hCharted⟩, fun _ _ => rfl, ?_⟩
    have hCoupled := hSound.coupled a.active
    rw [← Assembly.cursor_eq] at hCoupled
    obtain ⟨o, hLatest⟩ := Option.isSome_iff_exists.mp (hCoupled.isOpen_iff.mp hOpen)
    have hStop : o.segment.stop.toNat ≤ a.pc.toNat := hCoupled.stop_le o hLatest
    have hOrder := UInt32.le_iff_toNat_le.mp o.segment.start_le_stop
    exact ⟨o, hLatest, by omega, by omega⟩
  · refine ⟨Assembly.grows_openSegment _ _ _,
      ⟨_, hCharted.step (Assembly.retracked_openSegment _ _ _)⟩, ?_, ?_⟩
    · intro s hOther
      exact Assembly.track_openSegment_of_ne _ _ fun hKind => hOther (Section.kind_injective hKind)
    · rw [Assembly.track_openSegment, Memory.clampAddress_toNat]
      exact ⟨_, rfl, Nat.le_refl _, Nat.le_refl _⟩

theorem staged (hSound : Sound a log) {item : Item} {stop : UInt32}
    (hStart : a.pc.toNat ≤ item.address.toNat)
    (hStop : item.address.toNat + item.size = stop.toNat) (hPlaced : WellPlaced a.active item) :
    Sound ((a.movedTo item.address).place item stop) (log ++ [(a.active, item)]) := by
  obtain ⟨hGrows, ⟨openings, hCharted⟩, hOther, o, hLatest, hFirst, hLast⟩ := hSound.readied hStart
  rw [Assembly.place_movedTo]
  generalize a.readied item.address = m at *
  obtain ⟨o', hLatest', hSerial', hBegin', hEnd'⟩ :=
    Assembly.latest_extendSegment stop hLatest (by omega)
  have hEntry' := Track.mem_entries.mpr (Or.inl hLatest')
  have hHolds' : Holds o' item :=
    ⟨hBegin' ▸ hFirst, Nat.le_of_eq (hStop.trans (congrArg _ hEnd'.symm))⟩
  have hGrows' := Assembly.grows_extendSegment a.active m stop
  refine ⟨?_, ?_, ?_, ?_⟩
  · intro s
    rw [Assembly.memory_withCursor, Assembly.cursorOf_withCursor]
    change Coupled (if s = a.active then _ else a.cursorOf s)
      ((Assembly.extendSegment a.active m stop).track s.kind)
    by_cases hActive : s = a.active
    · rw [if_pos hActive, hActive]
      exact Coupled.of_latest hLatest' rfl (Nat.le_of_eq (congrArg _ hEnd'))
    · rw [if_neg hActive, Assembly.track_extendSegment_of_ne m stop fun hKind =>
        hActive (Section.kind_injective hKind), hOther s hActive]
      exact hSound.coupled s
  · rw [Assembly.memory_withCursor]
    exact ⟨_, hCharted.step (Assembly.retracked_extendSegment a.active m stop)⟩
  · intro p hMem
    rw [Assembly.memory_withCursor]
    rcases List.mem_append.mp hMem with hOld | hNew
    · exact (hSound.placed p hOld).of_grows (hGrows.trans hGrows')
    · rw [List.mem_singleton] at hNew
      subst hNew
      refine ⟨?_, hPlaced, fun _ => ⟨o', hEntry', hHolds'⟩⟩
      rw [hStop]
      exact stop.toNat_lt
  · rw [Assembly.memory_withCursor, List.pairwise_append]
    refine ⟨hSound.separated.imp fun h => h.of_grows (hGrows.trans hGrows'),
      List.pairwise_singleton _ _, ?_⟩
    intro p hOld q hNew
    rw [List.mem_singleton] at hNew
    subst hNew
    exact Separated.of_latest ((hSound.placed p hOld).of_grows hGrows) hCharted hGrows' hLatest
      hLast hEntry' hSerial' hHolds'

theorem effect (hSound : Sound a log) {b : Assembly} (hEffect : Effect a b) :
    Sound b (log ++ staging a b) := by
  cases hEffect with
  | idle =>
    rw [staging_eq_nil rfl, List.append_nil]
    exact hSound
  | moved pc hPc =>
    rw [staging_eq_nil (Effect.staged_movedTo a pc), List.append_nil]
    exact hSound.moved hPc
  | switched target address =>
    rw [staging_eq_nil (Effect.staged_switch a target address), List.append_nil]
    exact hSound.switched target address
  | staged item stop hStart hStop hPlaced =>
    rw [staging_push (Effect.staged_movedTo_place a item stop)]
    exact hSound.staged hStart hStop hPlaced

theorem lasting : Lasting Sound :=
  ⟨fun hSound _ _ => ⟨hSound.coupled, hSound.charted, hSound.placed, hSound.separated⟩,
    fun hSound hEffect => hSound.effect hEffect⟩

theorem clear (hSound : Sound a log) : Sound { a with staged := #[] } log :=
  ⟨hSound.coupled, hSound.charted, hSound.placed, hSound.separated⟩

end Sound

/-- After any sources, successful or not: a section's cursor is open just when the section has a
current segment, and stands at or behind its end; every item ever staged fits the address space,
has all its addresses in segments of its section, and stands where its kind may stand. -/
theorem invariant_after_any_sources (textBase dataBase : UInt32) (capacity : Nat)
    (endian : Memory.Endian) (streams : List (Nat × List Token.RawLine)) :
    let start := Assembly.ofBases textBase dataBase (.ofCapacity capacity endian)
    let a := start.parseAll streams
    (∀ s : Section,
      ((a.cursorOf s).isOpen = true ↔ (a.memory.track s.kind).current.isSome = true) ∧
      ∀ segment, (a.memory.track s.kind).current = some segment →
        segment.start ≤ segment.stop ∧ segment.stop ≤ (a.cursorOf s).pc) ∧
    ∀ s item, (s, item) ∈ start.history streams →
      item.address.toNat + item.size ≤ 0xFFFFFFFF ∧
      (∀ address : UInt32, item.Covers address.toNat →
        (a.memory.track s.kind).contains address = true) ∧
      (∀ i, item.payload = .code i → item.address.toNat % 4 = 0 ∧ s = .text) ∧
      ∀ width values, item.payload = .data width values →
        item.address.toNat % width.bytes = 0 := by
  intro start a
  have hSound : Sound a (start.history streams) :=
    Sound.lasting.parseAll Sound.clear streams start []
      (Sound.ofBases textBase dataBase capacity endian)
  constructor
  · intro s
    have hCoupled := hSound.coupled s
    rw [Track.current, Option.isSome_map]
    refine ⟨hCoupled.isOpen_iff, ?_⟩
    intro segment hCurrent
    obtain ⟨o, hLatest, rfl⟩ := Option.map_eq_some_iff.mp hCurrent
    exact ⟨o.segment.start_le_stop, UInt32.le_iff_toNat_le.mpr (hCoupled.stop_le o hLatest)⟩
  · intro s item hMem
    have hPlaced := hSound.placed (s, item) hMem
    have hWell := hPlaced.wellPlaced
    refine ⟨Nat.le_pred_of_lt hPlaced.fits, ?_, ?_, ?_⟩
    · exact fun address hCovers => hPlaced.contains hCovers
    · intro i hCode
      simp only [WellPlaced, hCode] at hWell
      exact ⟨hWell.2, hWell.1⟩
    · intro width values hData
      simp only [WellPlaced, hData] at hWell
      exact hWell

/-- A source that stages an item behind a gap and then fails. -/
def broken : List (Nat × List Token.RawLine) :=
  [(0, Token.linesOfText ".data 3\n.word 7\n.oops")]

theorem invariant_after_broken :
    let start := Assembly.ofBases 0 0 (.ofCapacity 4 .big)
    let item : Item := ⟨4, ⟨0, 1, 0⟩, .data .word [.literal 7]⟩
    (Section.data, item) ∈ start.history broken ∧ item.address.toNat + item.size ≤ 0xFFFFFFFF ∧
      (∀ address : UInt32, item.Covers address.toNat →
        ((start.parseAll broken).memory.track .data).contains address = true) ∧
      item.address.toNat % 4 = 0 := by
  intro start item
  have hMem : (Section.data, item) ∈ start.history broken := by
    decide +kernel
  obtain ⟨hFits, hContains, _, hAligned⟩ :=
    (invariant_after_any_sources 0 0 4 .big broken).2 .data item hMem
  exact ⟨hMem, hFits, hContains, hAligned .word [.literal 7] rfl⟩

end MipsAsm
