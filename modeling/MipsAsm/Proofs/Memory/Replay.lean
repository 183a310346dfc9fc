import MipsAsm.Proofs.Memory.Edit
import Mathlib.Data.List.Basic
import Mathlib.Data.List.Induction
import Mathlib.Data.List.TakeWhile

/-! # Tracks rebuilt from lists

A track is rebuilt when the segments of a list are opened one after the other and each is extended
to its end. No address is lost that way, but an empty segment goes as soon as another is opened
behind it. Of a list in the order of starts, all segments that hold an address and the last one are
found again in their places.
-/

namespace MipsAsm.Memory

namespace Segment

theorem extend_emptyAt (s : Segment) : (emptyAt s.start).extend s.stop = s := by
  obtain ⟨start, stop, hOrder⟩ := s
  rw [emptyAt, extend, mk.injEq]
  exact ⟨rfl, if_pos hOrder⟩

theorem not_contains_of_isEmpty {s : Segment} (hEmpty : s.isEmpty = true) (address : UInt32) :
    ¬ s.contains address = true := by
  rw [isEmpty_iff] at hEmpty
  rw [contains_iff, hEmpty]
  omega

end Segment

namespace Track

/-! ## One segment -/

/-- Opens a segment and extends it to its end. -/
def restore (t : Track) (s : Segment) (serial : Nat) : Track :=
  (t.openAt s.start serial).extend s.stop

theorem restore_eq (t : Track) (s : Segment) (serial : Nat) :
    t.restore s serial = ⟨t.settle, some ⟨s, serial⟩⟩ := by
  simp only [restore, openAt, extend, Option.map_some, Segment.extend_emptyAt]

theorem entries_restore (t : Track) (s : Segment) (serial : Nat) :
    (t.restore s serial).entries = insert ⟨s, serial⟩ t.settle := by
  rw [restore_eq]
  rfl

theorem settle_restore (t : Track) (s : Segment) (serial : Nat) :
    (t.restore s serial).settle =
      if s.isEmpty then t.settle else insert ⟨s, serial⟩ t.settle := by
  rw [restore_eq]
  rfl

theorem contains_iff {t : Track} {address : UInt32} :
    t.contains address = true ↔ ∃ o ∈ t.entries, o.segment.contains address = true := by
  simp [contains, segments]

theorem contains_restore {t : Track} {s : Segment} {serial : Nat} {address : UInt32} :
    (t.restore s serial).contains address = true ↔
      s.contains address = true ∨ t.contains address = true := by
  rw [contains_iff, contains_iff, entries_restore]
  constructor
  · rintro ⟨o, hEntry, hContains⟩
    rcases mem_insert.mp hEntry with rfl | hSettled
    · exact Or.inl hContains
    · exact Or.inr ⟨o, t.settle_sublist_entries.subset hSettled, hContains⟩
  · rintro (hContains | ⟨o, hEntry, hContains⟩)
    · exact ⟨_, mem_insert.mpr (Or.inl rfl), hContains⟩
    · have hNonempty : ¬ o.segment.isEmpty = true :=
        fun hEmpty => Segment.not_contains_of_isEmpty hEmpty address hContains
      exact ⟨o, mem_insert.mpr (Or.inr (mem_settle_of_mem_entries hEntry hNonempty)), hContains⟩

/-! ## Any segments -/

/-- Restores segments one after the other, under the ranks behind `rank`. -/
def replay (t : Track) (rank : Nat) : List Segment → Track
  | [] => t
  | s :: rest => (t.restore s (rank + 1)).replay (rank + 1) rest

theorem contains_replay {t : Track} {rank : Nat} {list : List Segment} {address : UInt32} :
    (t.replay rank list).contains address = true ↔
      (∃ s ∈ list, s.contains address = true) ∨ t.contains address = true := by
  induction list generalizing t rank with
  | nil => simp [replay]
  | cons s list ih =>
    rw [replay, ih, contains_restore, List.exists_mem_cons_iff, or_assoc, or_left_comm]

theorem serial_of_mem_replay {t : Track} {rank : Nat} {list : List Segment} {o : Opened}
    (hEntry : o ∈ (t.replay rank list).entries) :
    o ∈ t.entries ∨ (rank < o.serial ∧ o.serial ≤ rank + list.length) := by
  induction list generalizing t rank with
  | nil => exact Or.inl hEntry
  | cons s list ih =>
    rw [List.length_cons]
    rcases ih hEntry with hFirst | hLater
    · rw [entries_restore, mem_insert] at hFirst
      rcases hFirst with rfl | hSettled
      · exact Or.inr ⟨by simp, by simp⟩
      · exact Or.inl (t.settle_sublist_entries.subset hSettled)
    · exact Or.inr ⟨by omega, by omega⟩

theorem replay_concat (t : Track) (rank : Nat) (list : List Segment) (s : Segment) :
    t.replay rank (list ++ [s]) = (t.replay rank list).restore s (rank + list.length + 1) := by
  induction list generalizing t rank with
  | nil => rfl
  | cons r list ih =>
    rw [List.cons_append, replay, ih, replay, List.length_cons, Nat.add_right_comm rank 1]
    rfl

/-! ## Segments in the order of starts -/

/-- What is found again of a list in order. -/
def survivors (list : List Segment) : List Segment :=
  list.dropLast.filter (fun s => !s.isEmpty) ++ list.getLast?.toList

theorem insert_of_forall_le {o : Opened} {list : List Opened}
    (hBehind : ∀ x ∈ list, x.segment.start ≤ o.segment.start) : insert o list = list ++ [o] := by
  have hAll : ∀ x ∈ list, decide (x.segment.start ≤ o.segment.start) = true :=
    fun x hMem => decide_eq_true (hBehind x hMem)
  rw [insert, List.takeWhile_eq_self_iff.mpr hAll, List.dropWhile_eq_nil_iff.mpr hAll]

theorem map_segment_insert {o : Opened} {list : List Opened} {found : List Segment}
    (hFound : list.map Opened.segment = found)
    (hBehind : ∀ s ∈ found, s.start ≤ o.segment.start) :
    (insert o list).map Opened.segment = found ++ [o.segment] := by
  rw [insert_of_forall_le, List.map_append, List.map_singleton, hFound]
  intro x hMem
  exact hBehind _ (hFound ▸ List.mem_map_of_mem hMem)

theorem map_segment_settle_replay (rank : Nat) (list : List Segment)
    (hSorted : list.Pairwise fun a b => a.start ≤ b.start) :
    (empty.replay rank list).settle.map Opened.segment = list.filter fun s => !s.isEmpty := by
  -- every segment is put at the end, as none of those before it starts later
  induction list using List.reverseRecOn with
  | nil => rfl
  | append_singleton list s ih =>
    obtain ⟨hFront, _, hLast⟩ := List.pairwise_append.mp hSorted
    have hSettle := ih hFront
    rw [replay_concat, settle_restore, List.filter_append]
    split
    · rename_i hEmpty
      simpa [hEmpty] using hSettle
    · rename_i hNonempty
      rw [map_segment_insert hSettle]
      · simp [hNonempty]
      · intro r hMem
        exact hLast r (List.mem_of_mem_filter hMem) s List.mem_cons_self

theorem survivors_concat (list : List Segment) (s : Segment) :
    survivors (list ++ [s]) = list.filter (fun s => !s.isEmpty) ++ [s] := by
  simp [survivors]

theorem segments_replay (rank : Nat) {list : List Segment}
    (hSorted : list.Pairwise fun a b => a.start ≤ b.start) :
    (empty.replay rank list).segments = survivors list := by
  rcases List.eq_nil_or_concat' list with rfl | ⟨front, s, rfl⟩
  · rfl
  · obtain ⟨hFront, _, hLast⟩ := List.pairwise_append.mp hSorted
    have hSettle := map_segment_settle_replay rank front hFront
    rw [replay_concat, segments, entries_restore, map_segment_insert hSettle, survivors_concat]
    intro r hMem
    exact hLast r (List.mem_of_mem_filter hMem) s List.mem_cons_self

theorem survivors_sublist (list : List Segment) : (survivors list).Sublist list := by
  rcases List.eq_nil_or_concat' list with rfl | ⟨front, s, rfl⟩
  · exact List.Sublist.refl _
  · rw [survivors_concat]
    exact List.filter_sublist.append (List.Sublist.refl _)

theorem mem_survivors {list : List Segment} {s : Segment} :
    s ∈ survivors list ↔ (s ∈ list ∧ ¬ s.isEmpty = true) ∨ list.getLast? = some s := by
  rcases List.eq_nil_or_concat' list with rfl | ⟨front, r, rfl⟩
  · simp [survivors]
  · rw [survivors_concat, List.getLast?_concat, Option.some.injEq, List.mem_append,
      List.mem_append, List.mem_singleton, List.mem_filter]
    grind

theorem survivors_eq_self_iff {list : List Segment} :
    survivors list = list ↔ ∀ s ∈ list.dropLast, ¬ s.isEmpty = true := by
  rcases List.eq_nil_or_concat' list with rfl | ⟨front, s, rfl⟩
  · simp [survivors]
  · rw [survivors_concat, List.append_left_inj, List.filter_eq_self, List.dropLast_concat]
    simp

theorem survivors_middle {front back : List Segment} {s : Segment}
    (hFront : ∀ r ∈ front, ¬ r.isEmpty = true) (hBack : ∀ r ∈ back, ¬ r.isEmpty = true) :
    survivors (front ++ s :: back) = front ++ s :: back ↔
      (s.isEmpty = true → (front ++ s :: back).getLast? = some s) := by
  rw [survivors_eq_self_iff]
  rcases List.eq_nil_or_concat' back with rfl | ⟨middle, last, rfl⟩
  · simpa using hFront
  · have hLast := hBack last (List.mem_append_right _ List.mem_cons_self)
    rw [← List.cons_append, ← List.append_assoc, List.dropLast_concat, List.getLast?_concat]
    constructor
    · intro hNonempty hEmpty
      exact absurd hEmpty (hNonempty s (List.mem_append_right _ List.mem_cons_self))
    · intro hBehind r hMem
      rcases List.mem_append.mp hMem with hFirst | hRest
      · exact hFront r hFirst
      · rcases List.mem_cons.mp hRest with rfl | hMiddle
        · intro hEmpty
          cases hBehind hEmpty
          exact hLast hEmpty
        · exact hBack r (List.mem_append_left _ hMiddle)

/-! ## Tidy tracks -/

/-- Only the latest segment may be empty. -/
def Tidy (t : Track) : Prop :=
  ∀ o ∈ t.settled, ¬ o.segment.isEmpty = true

theorem tidy_empty : empty.Tidy :=
  fun _ hMem => absurd hMem List.not_mem_nil

theorem Tidy.openAt {t : Track} (hTidy : t.Tidy) (start : UInt32) (serial : Nat) :
    (t.openAt start serial).Tidy := by
  intro o hMem
  rcases mem_settle.mp hMem with ⟨_, hNonempty⟩ | hSettled
  · exact hNonempty
  · exact hTidy o hSettled

theorem Tidy.extend {t : Track} (hTidy : t.Tidy) (stop : UInt32) : (t.extend stop).Tidy :=
  hTidy

/-- The latest segment of a tidy track is lost just when it is empty and others come behind it. -/
theorem Tidy.survivors_segments {t : Track} (hTidy : t.Tidy) :
    survivors t.segments = t.segments ↔
      ∀ s, t.current = some s → s.isEmpty = true → t.segments.getLast? = some s := by
  obtain ⟨settled, latest⟩ := t
  have hNonempty : ∀ part : List Opened, part.Sublist settled →
      ∀ s ∈ part.map Opened.segment, ¬ s.isEmpty = true := by
    intro part hPart s hMem
    obtain ⟨o, hListed, rfl⟩ := List.mem_map.mp hMem
    exact hTidy o (hPart.subset hListed)
  cases latest with
  | none =>
    constructor
    · rintro _ s ⟨⟩
    · intro _
      exact survivors_eq_self_iff.mpr fun s hMem =>
        hNonempty settled (List.Sublist.refl _) s (List.dropLast_subset _ hMem)
  | some o =>
    simp only [segments, entries, insert, current, Option.map_some, Option.some.injEq,
      List.map_append, List.map_cons, forall_eq']
    exact survivors_middle (hNonempty _ (List.takeWhile_sublist _))
      (hNonempty _ (List.dropWhile_sublist _))

end Track

end MipsAsm.Memory
