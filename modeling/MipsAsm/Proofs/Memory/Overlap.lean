import MipsAsm.Proofs.Memory.Edit
import MipsAsm.Proofs.Text.Numeral

/-! # The check for overlaps is exact

The check looks at neighbours of the layout only. Since the layout is in order and no segment ends
before it starts, it finds an overlap just when some segment reaches into any later one. Its message
names the first neighbours that collide, each by its kind and its bounds.
-/

namespace MipsAsm.Memory.Image

/-! ## The layout is in order -/

theorem precedes_iff (a b : SegmentKind × Opened) :
    precedes a b = true ↔ a.2.segment.start.toNat < b.2.segment.start.toNat ∨
      (a.2.segment.start.toNat = b.2.segment.start.toNat ∧ a.2.serial ≤ b.2.serial) := by
  simp [precedes, UInt32.lt_iff_toNat_lt, UInt32.toNat_inj]

theorem precedes_of_before {a b : SegmentKind × Opened} (hBefore : a.2.Before b.2) :
    precedes a b = true := by
  rw [precedes_iff]
  rcases hBefore with hLt | ⟨hEq, hLt⟩
  · exact Or.inl (UInt32.lt_iff_toNat_lt.mp hLt)
  · exact Or.inr ⟨congrArg UInt32.toNat hEq, Nat.le_of_lt hLt⟩

theorem before_of_precedes {a b : SegmentKind × Opened} (hPrecedes : precedes a b = true)
    (hSerial : a.2.serial ≠ b.2.serial) : a.2.Before b.2 := by
  rcases (precedes_iff a b).mp hPrecedes with hLt | ⟨hEq, hLe⟩
  · exact Or.inl (UInt32.lt_iff_toNat_lt.mpr hLt)
  · exact Or.inr ⟨UInt32.toNat_inj.mp hEq, Nat.lt_of_le_of_ne hLe hSerial⟩

theorem precedes_trans (a b c : SegmentKind × Opened) (hFirst : precedes a b = true)
    (hSecond : precedes b c = true) : precedes a c = true := by
  rw [precedes_iff] at hFirst hSecond ⊢
  omega

theorem precedes_total (a b : SegmentKind × Opened) :
    (precedes a b || precedes b a) = true := by
  rw [Bool.or_eq_true, precedes_iff, precedes_iff]
  omega

/-- The entries of both tracks, the data first. -/
def pooled (m : Image) : List (SegmentKind × Opened) :=
  m.data.entries.map (Prod.mk .data) ++ m.text.entries.map (Prod.mk .text)

theorem ranking_perm (m : Image) : m.ranking.Perm m.pooled :=
  List.merge_perm_append precedes

theorem layout_perm (m : Image) : m.layout.Perm
    (m.data.segments.map (Prod.mk .data) ++ m.text.segments.map (Prod.mk .text)) := by
  have hPerm : m.layout.Perm (m.pooled.map fun x => (x.1, x.2.segment)) :=
    m.ranking_perm.map _
  simpa [pooled, Track.segments, Function.comp_def] using hPerm

theorem mem_pooled {m : Image} {x : SegmentKind × Opened} (hMem : x ∈ m.pooled) :
    x.2 ∈ (m.track x.1).entries := by
  rcases List.mem_append.mp hMem with hData | hText
  · obtain ⟨o, hEntry, rfl⟩ := List.mem_map.mp hData
    exact hEntry
  · obtain ⟨o, hEntry, rfl⟩ := List.mem_map.mp hText
    exact hEntry

namespace Charted

variable {m : Image} {log : List (SegmentKind × UInt32)}

theorem pairwise_pooled (hCharted : m.Charted log) :
    m.pooled.Pairwise fun a b => a.2.serial ≠ b.2.serial := by
  have hTrack : ∀ kind, ((m.track kind).entries.map (Prod.mk kind)).Pairwise
      fun a b => a.2.serial ≠ b.2.serial :=
    fun kind => List.pairwise_map.mpr (hCharted.pairwise_serial_ne kind)
  refine List.pairwise_append.mpr ⟨hTrack .data, hTrack .text, ?_⟩
  intro a hData b hText
  obtain ⟨o, hEntry, rfl⟩ := List.mem_map.mp hData
  obtain ⟨p, hEntry', rfl⟩ := List.mem_map.mp hText
  have hKinds : SegmentKind.data ≠ SegmentKind.text := by decide
  exact hCharted.serial_ne_of_kind_ne hKinds hEntry hEntry'

theorem pairwise_ranking (hCharted : m.Charted log) :
    m.ranking.Pairwise fun a b => a.2.Before b.2 := by
  have hTrack : ∀ kind, ((m.track kind).entries.map (Prod.mk kind)).Pairwise
      fun a b => precedes a b = true :=
    fun kind => List.pairwise_map.mpr ((hCharted.ordered kind).entries.imp precedes_of_before)
  have hMerged : m.ranking.Pairwise fun a b => precedes a b = true :=
    List.pairwise_merge precedes_trans precedes_total _ _ (hTrack .data) (hTrack .text)
  have hSerials : m.ranking.Pairwise fun a b => a.2.serial ≠ b.2.serial :=
    (m.ranking_perm.pairwise_iff fun {_ _} => Ne.symm).mpr hCharted.pairwise_pooled
  exact (hMerged.and hSerials).imp fun hBoth => before_of_precedes hBoth.1 hBoth.2

end Charted

/-! ## Neighbours -/

/-- Neighbours the second of which starts before the first ends. -/
def Collide (segments : List (SegmentKind × Segment)) (i : Nat) (a b : SegmentKind × Segment) :
    Prop :=
  segments[i]? = some a ∧ segments[i + 1]? = some b ∧ b.2.start < a.2.stop

theorem firstOverlap_eq_none_iff (segments : List (SegmentKind × Segment)) :
    firstOverlap segments = none ↔ segments.Pairwise fun a b => a.2.stop ≤ b.2.start := by
  constructor
  · intro hNone
    exact (pairwise_of_firstOverlap_eq_none segments hNone).imp UInt32.le_iff_toNat_le.mpr
  · intro hPairwise
    fun_induction firstOverlap segments with
    | case1 a b rest hOverlap =>
      have hFirst := List.rel_of_pairwise_cons hPairwise List.mem_cons_self
      exact absurd hOverlap (UInt32.not_lt.mpr hFirst)
    | case2 a b rest hOverlap ih => exact ih hPairwise.of_cons
    | case3 segments hShort => rfl

theorem collide_of_firstOverlap {segments : List (SegmentKind × Segment)} {o : Overlap}
    (hOverlap : firstOverlap segments = some o) :
    ∃ i, Collide segments i o.left o.right ∧ ∀ j < i, ∀ a b, ¬ Collide segments j a b := by
  fun_induction firstOverlap segments with
  | case1 a b rest hLt =>
    cases hOverlap
    refine ⟨0, ⟨rfl, rfl, hLt⟩, ?_⟩
    intro j hJ
    exact absurd hJ (Nat.not_lt_zero j)
  | case2 a b rest hLe ih =>
    obtain ⟨i, hCollide, hFirst⟩ := ih hOverlap
    refine ⟨i + 1, hCollide, ?_⟩
    rintro (_ | j) hJ c d hEarlier
    · obtain ⟨hLeft, hRight, hLt⟩ := hEarlier
      cases hLeft
      cases hRight
      exact hLe hLt
    · exact hFirst j (Nat.lt_of_succ_lt_succ hJ) c d hEarlier
  | case3 segments hShort => cases hOverlap

/-! ## Addresses of two segments -/

def Contested (segments : List (SegmentKind × Segment)) (address : UInt32) : Prop :=
  ∃ (i j : Nat) (a b : SegmentKind × Segment), i < j ∧ segments[i]? = some a ∧
    segments[j]? = some b ∧ a.2.contains address = true ∧ b.2.contains address = true

theorem not_contested_of_pairwise {segments : List (SegmentKind × Segment)}
    (hPairwise : segments.Pairwise fun a b => a.2.stop ≤ b.2.start) (address : UInt32) :
    ¬ Contested segments address := by
  rintro ⟨i, j, a, b, hOrder, hFirst, hSecond, hLeft, hRight⟩
  obtain ⟨hI, rfl⟩ := List.getElem?_eq_some_iff.mp hFirst
  obtain ⟨hJ, rfl⟩ := List.getElem?_eq_some_iff.mp hSecond
  have hLe := UInt32.le_iff_toNat_le.mp (List.pairwise_iff_getElem.mp hPairwise i j hI hJ hOrder)
  have hUpper := ((Segment.contains_iff _ _).mp hLeft).2
  have hLower := ((Segment.contains_iff _ _).mp hRight).1
  omega

/-- The second of two colliding neighbours starts inside the first, and in itself if it holds any
address. -/
theorem contested_of_collide {segments : List (SegmentKind × Segment)}
    (hSorted : segments.Pairwise fun a b => a.2.start ≤ b.2.start) {i : Nat}
    {a b : SegmentKind × Segment} (hCollide : Collide segments i a b)
    (hNonempty : ¬ b.2.isEmpty = true) : Contested segments b.2.start := by
  obtain ⟨hFirst, hSecond, hLt⟩ := hCollide
  refine ⟨i, i + 1, a, b, Nat.lt_succ_self i, hFirst, hSecond, ?_, ?_⟩
  · obtain ⟨hI, rfl⟩ := List.getElem?_eq_some_iff.mp hFirst
    obtain ⟨hJ, rfl⟩ := List.getElem?_eq_some_iff.mp hSecond
    have hStart := List.pairwise_iff_getElem.mp hSorted i (i + 1) hI hJ (Nat.lt_succ_self i)
    rw [Segment.contains_iff]
    exact ⟨UInt32.le_iff_toNat_le.mp hStart, UInt32.lt_iff_toNat_lt.mp hLt⟩
  · have hOrder := UInt32.le_iff_toNat_le.mp b.2.start_le_stop
    rw [Segment.isEmpty_iff, ← UInt32.toNat_inj] at hNonempty
    rw [Segment.contains_iff]
    omega

/-! ## Segments in words -/

/-- The text says the kind of a segment and, by eight hexadecimal digits each, both bounds. -/
def Names (s : SegmentKind × Segment) (text : String) : Prop :=
  ∃ start stop, Text.SpellsHex 8 s.2.start.toNat start ∧ Text.SpellsHex 8 s.2.stop.toNat stop ∧
    text = (match s.1 with | .data => "data" | .text => "text") ++ " segment [0x" ++
      String.ofList start ++ ", 0x" ++ String.ofList stop ++ ")"

theorem names_segment (s : SegmentKind × Segment) :
    Names s (s.1.name ++ " segment " ++ s.2.text) := by
  obtain ⟨kind, segment⟩ := s
  obtain ⟨start, hStart, hFirst⟩ := Text.exists_addressText segment.start
  obtain ⟨stop, hStop, hLast⟩ := Text.exists_addressText segment.stop
  refine ⟨start, stop, hStart, hStop, ?_⟩
  have hOpen : " segment [0x" = " segment " ++ ("[" ++ "0x") := rfl
  have hComma : ", 0x" = ", " ++ "0x" := rfl
  dsimp only
  rw [Segment.text, hFirst, hLast, hOpen, hComma]
  cases kind <;> simp only [SegmentKind.name, String.append_assoc]

theorem exists_names_of_message (o : Overlap) : ∃ first second, Names o.left first ∧
    Names o.right second ∧ o.message = first ++ " overlaps " ++ second := by
  refine ⟨_, _, names_segment o.left, names_segment o.right, ?_⟩
  simp only [Overlap.message, String.append_assoc]

/-! ## The check -/

/-- What the layout of an image and the check of it say, where the listed segments were opened. -/
structure Surveyed (m : Image) (log : List (SegmentKind × UInt32)) : Prop where
  perm : m.layout.Perm
    (m.data.segments.map (Prod.mk .data) ++ m.text.segments.map (Prod.mk .text))
  /-- Segments come by start and, where starts are equal, in the order of opening. -/
  ordered : ∃ ranked : List (SegmentKind × Opened),
    m.layout = ranked.map (fun x => (x.1, x.2.segment)) ∧
      ranked.Pairwise (fun a b => a.2.Before b.2) ∧
      ∀ x ∈ ranked, x.2 ∈ (m.track x.1).entries ∧ ∃ rank, x.2.serial = rank + 1 ∧
        log[rank]? = some (x.1, x.2.segment.start)
  none_iff : m.overlap? = none ↔ m.layout.Pairwise fun a b => a.2.stop ≤ b.2.start
  uncontested : m.overlap? = none → ∀ address, ¬ Contested m.layout address
  contested : (∀ s ∈ m.layout, ¬ s.2.isEmpty = true) → m.overlap? ≠ none →
    ∃ address, Contested m.layout address
  message : ∀ text, m.overlap?.map Overlap.message = some text → ∃ i a b first second,
    Collide m.layout i a b ∧ (∀ j < i, ∀ c d, ¬ Collide m.layout j c d) ∧
      Names a first ∧ Names b second ∧ text = first ++ " overlaps " ++ second

namespace Charted

variable {m : Image} {log : List (SegmentKind × UInt32)}

theorem pairwise_start_le (hCharted : m.Charted log) :
    m.layout.Pairwise fun a b => a.2.start ≤ b.2.start :=
  List.pairwise_map.mpr (hCharted.pairwise_ranking.imp Opened.Before.start_le)

theorem exists_contested (hCharted : m.Charted log)
    (hNonempty : ∀ s ∈ m.layout, ¬ s.2.isEmpty = true) (hSome : m.overlap? ≠ none) :
    ∃ address, Contested m.layout address := by
  obtain ⟨o, hOverlap⟩ := Option.ne_none_iff_exists'.mp hSome
  obtain ⟨i, hCollide, _⟩ := collide_of_firstOverlap hOverlap
  have hMem : o.right ∈ m.layout := List.mem_of_getElem? hCollide.2.1
  exact ⟨_, contested_of_collide hCharted.pairwise_start_le hCollide (hNonempty _ hMem)⟩

end Charted

/-- Two members of a list in a strict order stand in that order. -/
theorem rel_of_pairwise {α : Type} {R S : α → α → Prop} {list : List α}
    (hAsymm : ∀ a b, S a b → ¬ S b a) (hOrder : list.Pairwise S) (hPairwise : list.Pairwise R)
    {a b : α} (hFirst : a ∈ list) (hSecond : b ∈ list) (hBefore : S a b) : R a b := by
  obtain ⟨i, hI, rfl⟩ := List.getElem_of_mem hFirst
  obtain ⟨j, hJ, rfl⟩ := List.getElem_of_mem hSecond
  rcases Nat.lt_trichotomy i j with hLt | rfl | hGt
  · exact List.pairwise_iff_getElem.mp hPairwise i j hI hJ hLt
  · exact absurd hBefore (hAsymm _ _ hBefore)
  · exact absurd (List.pairwise_iff_getElem.mp hOrder j i hJ hI hGt) (hAsymm _ _ hBefore)

/-- Without an overlap, of any two segments the one that comes first ends before the other. -/
theorem Charted.overlap?_eq_none_iff {m : Image} {log : List (SegmentKind × UInt32)}
    (hCharted : m.Charted log) : m.overlap? = none ↔
      ∀ k₁ k₂, ∀ a ∈ (m.track k₁).entries, ∀ b ∈ (m.track k₂).entries,
        a.Before b → a.segment.stop ≤ b.segment.start := by
  have hOrder := hCharted.pairwise_ranking
  constructor
  · intro hNone k₁ k₂ a hFirst b hSecond hBefore
    have hApart : m.ranking.Pairwise fun a b => a.2.segment.stop ≤ b.2.segment.start :=
      List.pairwise_map.mp ((firstOverlap_eq_none_iff m.layout).mp hNone)
    exact rel_of_pairwise (fun _ _ hLess => hLess.asymm) hOrder hApart (mem_ranking hFirst)
      (mem_ranking hSecond) hBefore
  · intro hStops
    apply (firstOverlap_eq_none_iff m.layout).mpr
    refine List.pairwise_map.mpr (hOrder.imp_of_mem ?_)
    intro a b hFirst hSecond hBefore
    exact hStops a.1 b.1 a.2 (mem_pooled (m.ranking_perm.mem_iff.mp hFirst)) b.2
      (mem_pooled (m.ranking_perm.mem_iff.mp hSecond)) hBefore

/-- **The check for overlaps is exact**, after any edits of an empty image. -/
theorem surveyed_of_edits (capacity : Nat) (endian : Endian) (edits : List Edit) :
    ((ofCapacity capacity endian).edited edits).Surveyed (openings edits) := by
  have hCharted := (charted_ofCapacity capacity endian).edited edits
  generalize (ofCapacity capacity endian).edited edits = m at hCharted
  rw [List.nil_append] at hCharted
  have hNone := firstOverlap_eq_none_iff m.layout
  constructor
  · exact m.layout_perm
  · refine ⟨m.ranking, rfl, hCharted.pairwise_ranking, ?_⟩
    intro x hMem
    have hEntry := mem_pooled (m.ranking_perm.mem_iff.mp hMem)
    exact ⟨hEntry, hCharted.logged x.1 x.2 hEntry⟩
  · exact hNone
  · exact fun hOverlap => not_contested_of_pairwise (hNone.mp hOverlap)
  · exact hCharted.exists_contested
  · intro text hText
    obtain ⟨o, hOverlap, rfl⟩ := Option.map_eq_some_iff.mp hText
    obtain ⟨i, hCollide, hEarlier⟩ := collide_of_firstOverlap hOverlap
    obtain ⟨first, second, hFirst, hSecond, hMessage⟩ := exists_names_of_message o
    exact ⟨i, o.left, o.right, first, second, hCollide, hEarlier, hFirst, hSecond, hMessage⟩

/-- A data segment that begins inside the text, and one behind the text that was opened before. -/
def collidingEdits : List Edit :=
  [.openText 0, .extendText 0x20, .openData 0x20, .extendData 0x30, .openData 0x1C,
    .extendData 0x24]

theorem surveyed_colliding :
    ((ofCapacity 0 .little).edited collidingEdits).overlap?.map Overlap.message =
      some "text segment [0x00000000, 0x00000020) overlaps data segment [0x0000001C, 0x00000024)" ∧
    ((ofCapacity 0 .little).edited collidingEdits).Surveyed
      [(.text, 0), (.data, 0x20), (.data, 0x1C)] := by
  have hData : ((ofCapacity 0 .little).edited collidingEdits).data.entries =
      [⟨.ofBounds 0x1C 0x24, 3⟩, ⟨.ofBounds 0x20 0x30, 2⟩] := by decide +kernel
  have hText : ((ofCapacity 0 .little).edited collidingEdits).text.entries =
      [⟨.ofBounds 0 0x20, 1⟩] := by decide +kernel
  have hLayout : ((ofCapacity 0 .little).edited collidingEdits).layout =
      [(.text, .ofBounds 0 0x20), (.data, .ofBounds 0x1C 0x24), (.data, .ofBounds 0x20 0x30)] := by
    rw [layout, hData, hText, List.map_cons, List.map_singleton, List.map_singleton,
      List.cons_merge_cons, if_neg (by decide), List.merge_right]
    rfl
  refine ⟨?_, surveyed_of_edits 0 .little collidingEdits⟩
  rw [overlap?, hLayout]
  decide +kernel

end MipsAsm.Memory.Image
