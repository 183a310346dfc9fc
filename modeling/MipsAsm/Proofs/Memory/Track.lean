import MipsAsm.Memory.Track

/-! # What a track keeps

Opening and extending never lose an address: a segment that holds one stays in the track under the
same rank and start, and its end only moves up. Empty segments may go.
-/

namespace MipsAsm.Memory

namespace Segment

theorem isEmpty_iff (s : Segment) : s.isEmpty = true ↔ s.start = s.stop := by
  rw [isEmpty, beq_iff_eq]

theorem stop_extend (s : Segment) (stop : UInt32) :
    (s.extend stop).stop.toNat = max s.stop.toNat stop.toNat := by
  rw [extend]
  split
  · rename_i hLe
    exact (Nat.max_eq_right (UInt32.le_iff_toNat_le.mp hLe)).symm
  · rename_i hLe
    exact (Nat.max_eq_left (Nat.le_of_lt (Nat.lt_of_not_le fun h =>
      hLe (UInt32.le_iff_toNat_le.mpr h)))).symm

theorem contains_iff (s : Segment) (address : UInt32) :
    s.contains address = true ↔
      s.start.toNat ≤ address.toNat ∧ address.toNat < s.stop.toNat := by
  rw [contains, Bool.and_eq_true, decide_eq_true_iff, decide_eq_true_iff,
    UInt32.le_iff_toNat_le, UInt32.lt_iff_toNat_lt]

end Segment

namespace Track

theorem perm_insert (o : Opened) (list : List Opened) : (insert o list).Perm (o :: list) := by
  have hSplit := List.takeWhile_append_dropWhile
    (p := fun x : Opened => decide (x.segment.start ≤ o.segment.start)) (l := list)
  calc
    insert o list = _ := rfl
    List.Perm _ (o :: (list.takeWhile _ ++ list.dropWhile _)) := List.perm_middle
    _ = o :: list := congrArg (List.cons o) hSplit

theorem mem_insert {o p : Opened} {list : List Opened} : p ∈ insert o list ↔ p = o ∨ p ∈ list :=
  (perm_insert o list).mem_iff.trans List.mem_cons

theorem mem_entries {t : Track} {o : Opened} :
    o ∈ t.entries ↔ t.latest = some o ∨ o ∈ t.settled := by
  rw [entries]
  split
  · rename_i hNone
    simp [hNone]
  · rename_i p hSome
    rw [mem_insert, hSome, Option.some.injEq, eq_comm]

theorem mem_settle {t : Track} {o : Opened} :
    o ∈ t.settle ↔ (t.latest = some o ∧ ¬ o.segment.isEmpty = true) ∨ o ∈ t.settled := by
  rw [settle]
  split
  · rename_i hNone
    simp [hNone]
  · rename_i p hSome
    split
    · rename_i hEmpty
      constructor
      · exact Or.inr
      · rintro (⟨hLatest, hNonempty⟩ | hSettled)
        · rw [hSome, Option.some.injEq] at hLatest
          exact absurd (hLatest ▸ hEmpty) hNonempty
        · exact hSettled
    · rename_i hNonempty
      rw [mem_insert, hSome, Option.some.injEq]
      constructor
      · rintro (rfl | hSettled)
        · exact Or.inl ⟨rfl, hNonempty⟩
        · exact Or.inr hSettled
      · rintro (⟨rfl, _⟩ | hSettled)
        · exact Or.inl rfl
        · exact Or.inr hSettled

theorem mem_settle_of_mem_entries {t : Track} {o : Opened} (hEntry : o ∈ t.entries)
    (hNonempty : ¬ o.segment.isEmpty = true) : o ∈ t.settle := by
  rcases mem_entries.mp hEntry with hLatest | hSettled
  · exact mem_settle.mpr (Or.inl ⟨hLatest, hNonempty⟩)
  · exact mem_settle.mpr (Or.inr hSettled)

theorem mem_entries_openAt {t : Track} {start : UInt32} {serial : Nat} {o : Opened} :
    o ∈ (t.openAt start serial).entries ↔ o = ⟨.emptyAt start, serial⟩ ∨ o ∈ t.settle := by
  rw [mem_entries, openAt, Option.some.injEq, eq_comm]

/-- An entry after extending is an old one, or the latest with its end moved. -/
theorem mem_entries_extend {t : Track} {stop : UInt32} {o : Opened} :
    o ∈ (t.extend stop).entries ↔
      (∃ p, t.latest = some p ∧ o = { p with segment := p.segment.extend stop }) ∨
        o ∈ t.settled := by
  rw [mem_entries, extend]
  simp only [Option.map_eq_some_iff]
  constructor
  · rintro (⟨p, hLatest, rfl⟩ | hSettled)
    · exact Or.inl ⟨p, hLatest, rfl⟩
    · exact Or.inr hSettled
  · rintro (⟨p, hLatest, rfl⟩ | hSettled)
    · exact Or.inl ⟨p, hLatest, rfl⟩
    · exact Or.inr hSettled

theorem settle_sublist_entries (t : Track) : t.settle.Sublist t.entries := by
  obtain ⟨settled, latest⟩ := t
  cases latest with
  | none => exact List.Sublist.refl _
  | some o =>
    simp only [settle, entries]
    split
    · have hSplit := List.takeWhile_append_dropWhile
        (p := fun x : Opened => decide (x.segment.start ≤ o.segment.start)) (l := settled)
      conv => lhs; rw [← hSplit]
      exact List.Sublist.append (List.Sublist.refl _) (List.sublist_cons_self _ _)
    · exact List.Sublist.refl _

/-! ## Growth -/

/-- Segments that hold an address are never lost, moved or cut. -/
def Grows (t u : Track) : Prop :=
  ∀ o ∈ t.entries, ¬ o.segment.isEmpty = true → ∃ p ∈ u.entries, p.serial = o.serial ∧
    p.segment.start = o.segment.start ∧ o.segment.stop.toNat ≤ p.segment.stop.toNat

theorem Grows.refl (t : Track) : t.Grows t :=
  fun o hEntry _ => ⟨o, hEntry, rfl, rfl, Nat.le_refl _⟩

theorem grows_openAt (t : Track) (start : UInt32) (serial : Nat) :
    t.Grows (t.openAt start serial) := by
  intro o hEntry hNonempty
  refine ⟨o, ?_, rfl, rfl, Nat.le_refl _⟩
  exact mem_entries_openAt.mpr (Or.inr (mem_settle_of_mem_entries hEntry hNonempty))

theorem grows_extend (t : Track) (stop : UInt32) : t.Grows (t.extend stop) := by
  intro o hEntry _
  rcases mem_entries.mp hEntry with hLatest | hSettled
  · refine ⟨_, mem_entries_extend.mpr (Or.inl ⟨o, hLatest, rfl⟩), rfl, rfl, ?_⟩
    rw [Segment.stop_extend]
    exact Nat.le_max_left _ _
  · exact ⟨o, mem_entries_extend.mpr (Or.inr hSettled), rfl, rfl, Nat.le_refl _⟩

/-- An end that is moved does not empty a segment, so growing twice is growing. -/
theorem Grows.trans {t u v : Track} (hFirst : t.Grows u) (hSecond : u.Grows v) : t.Grows v := by
  intro o hEntry hNonempty
  obtain ⟨p, hMiddle, hSerial, hStart, hStop⟩ := hFirst o hEntry hNonempty
  have hMiddleNonempty : ¬ p.segment.isEmpty = true := by
    intro hEmpty
    apply hNonempty
    rw [Segment.isEmpty_iff] at hEmpty ⊢
    have hOrder := UInt32.le_iff_toNat_le.mp o.segment.start_le_stop
    apply UInt32.toNat.inj
    rw [← hEmpty, hStart] at hStop
    omega
  obtain ⟨q, hLast, hSerial', hStart', hStop'⟩ := hSecond p hMiddle hMiddleNonempty
  exact ⟨q, hLast, hSerial'.trans hSerial, hStart'.trans hStart, Nat.le_trans hStop hStop'⟩

end Track

end MipsAsm.Memory
