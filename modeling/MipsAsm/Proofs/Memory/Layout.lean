import MipsAsm.Memory.Image
import MipsAsm.Proofs.Memory.Track
import Mathlib.Data.List.Pairwise

/-! # Layouts without overlap

Only neighbours of the layout are compared, but no segment ends before it starts, so an order of
neighbours is an order of all. Segments are told apart by the rank that they got when they were
opened.
-/

namespace MipsAsm.Memory.Image

def track (m : Image) : SegmentKind → Track
  | .data => m.data
  | .text => m.text

/-- Segments of either kind that hold an address are never lost, moved or cut. -/
def Grows (m m' : Image) : Prop :=
  ∀ kind, (m.track kind).Grows (m'.track kind)

theorem Grows.refl (m : Image) : m.Grows m :=
  fun kind => Track.Grows.refl (m.track kind)

theorem Grows.trans {m₁ m₂ m₃ : Image} (hFirst : m₁.Grows m₂) (hSecond : m₂.Grows m₃) :
    m₁.Grows m₃ :=
  fun kind => (hFirst kind).trans (hSecond kind)

/-! ## The layout -/

def Apart (a b : SegmentKind × Opened) : Prop :=
  a.2.segment.stop.toNat ≤ b.2.segment.start.toNat ∨
    b.2.segment.stop.toNat ≤ a.2.segment.start.toNat

instance : Std.Symm Apart :=
  ⟨fun _ _ => Or.symm⟩

theorem pairwise_of_firstOverlap_eq_none (segments : List (SegmentKind × Segment))
    (hNone : firstOverlap segments = none) :
    segments.Pairwise fun a b => a.2.stop.toNat ≤ b.2.start.toNat := by
  fun_induction firstOverlap segments with
  | case1 a b rest hOverlap => cases hNone
  | case2 a b rest hOverlap ih =>
    have hTail := ih hNone
    have hFirst : a.2.stop.toNat ≤ b.2.start.toNat :=
      Nat.le_of_not_lt fun hLt => hOverlap (UInt32.lt_iff_toNat_lt.mpr hLt)
    refine List.pairwise_cons.mpr ⟨?_, hTail⟩
    intro c hMem
    rcases List.mem_cons.mp hMem with rfl | hRest
    · exact hFirst
    · have hNext := List.rel_of_pairwise_cons hTail hRest
      have hOrder := UInt32.le_iff_toNat_le.mp b.2.start_le_stop
      omega
  | case3 segments hShort =>
    match segments, hShort with
    | [], _ => exact List.Pairwise.nil
    | [a], _ => exact List.pairwise_singleton _ a
    | a :: b :: rest, hShort => exact absurd rfl (hShort a b rest)

def ranking (m : Image) : List (SegmentKind × Opened) :=
  List.merge (m.data.entries.map fun o => (.data, o)) (m.text.entries.map fun o => (.text, o))
    precedes

theorem mem_ranking {m : Image} {kind : SegmentKind} {o : Opened}
    (hEntry : o ∈ (m.track kind).entries) : (kind, o) ∈ m.ranking := by
  rw [ranking, (List.merge_perm_append precedes).mem_iff, List.mem_append]
  cases kind with
  | data => exact Or.inl (List.mem_map.mpr ⟨o, hEntry, rfl⟩)
  | text => exact Or.inr (List.mem_map.mpr ⟨o, hEntry, rfl⟩)

/-- Without an overlap between neighbours, any two segments of different ranks are apart. -/
theorem apart_of_overlap?_eq_none {m : Image} (hNone : m.overlap? = none) {k₁ k₂ : SegmentKind}
    {o₁ o₂ : Opened} (hEntry₁ : o₁ ∈ (m.track k₁).entries) (hEntry₂ : o₂ ∈ (m.track k₂).entries)
    (hSerial : o₁.serial ≠ o₂.serial) : Apart (k₁, o₁) (k₂, o₂) := by
  have hLayout := pairwise_of_firstOverlap_eq_none m.layout hNone
  have hRanking : m.ranking.Pairwise Apart := (List.pairwise_map.mp hLayout).imp Or.inl
  have hDistinct : (k₁, o₁) ≠ (k₂, o₂) := by
    rintro ⟨⟩
    exact hSerial rfl
  exact hRanking.forall (mem_ranking hEntry₁) (mem_ranking hEntry₂) hDistinct

theorem layout_of_singletons {m : Image} {data text : Opened} (hData : m.data.entries = [data])
    (hText : m.text.entries = [text]) : m.layout =
      if precedes (.data, data) (.text, text) then [(.data, data.segment), (.text, text.segment)]
      else [(.text, text.segment), (.data, data.segment)] := by
  rw [layout, hData, hText, List.map_singleton, List.map_singleton, List.cons_merge_cons]
  split
  · rw [List.nil_merge]
    rfl
  · rw [List.merge_right]
    rfl

end MipsAsm.Memory.Image
