import MipsAsm.Proofs.Program.Image

/-! # Programs without overlapping segments

The check of a layout compares neighbouring segments only. As every item lies in one segment and
two items of the same segment follow each other, a layout that passes keeps all items apart, and
each of them can be read back.
-/

namespace MipsAsm

open Memory (Image)

theorem Item.Apart.symm {a b : Item} (hApart : a.Apart b) : b.Apart a :=
  fun index hBoth => hApart index ⟨hBoth.2, hBoth.1⟩

theorem Separated.apart {m : Image} {p q : Section × Item} (hSeparated : Separated m p q)
    (hNone : m.overlap? = none) : p.2.Apart q.2 := by
  rintro index ⟨hFirst, hSecond⟩
  rcases hSeparated hFirst.size_pos hSecond.size_pos with
    hBefore | ⟨o₁, hEntry₁, o₂, hEntry₂, hHolds₁, hHolds₂, hNe⟩
  · exact absurd hFirst.2 (Nat.not_lt.mpr (Nat.le_trans hBefore hSecond.1))
  · -- an address of both items would lie in two segments of different ranks
    have hApart := Image.apart_of_overlap?_eq_none hNone hEntry₁ hEntry₂ hNe
    have hLower := Nat.le_trans hHolds₁.1 hFirst.1
    have hUpper := Nat.lt_of_lt_of_le hFirst.2 hHolds₁.2
    have hLower' := Nat.le_trans hHolds₂.1 hSecond.1
    have hUpper' := Nat.lt_of_lt_of_le hSecond.2 hHolds₂.2
    rcases hApart with hLeft | hRight
    · exact absurd hUpper (Nat.not_lt.mpr (Nat.le_trans hLeft hLower'))
    · exact absurd hUpper' (Nat.not_lt.mpr (Nat.le_trans hRight hLower))

theorem Item.apart_of_pairwise {items : Array Item} (hApart : items.toList.Pairwise Item.Apart)
    {i j : Nat} {a b : Item} (hFirst : items[i]? = some a) (hSecond : items[j]? = some b)
    (hNe : i ≠ j) : a.Apart b := by
  rw [← Array.getElem?_toList] at hFirst hSecond
  obtain ⟨hI, rfl⟩ := List.getElem?_eq_some_iff.mp hFirst
  obtain ⟨hJ, rfl⟩ := List.getElem?_eq_some_iff.mp hSecond
  rcases Nat.lt_or_gt_of_ne hNe with hLt | hGt
  · exact List.pairwise_iff_getElem.mp hApart i j hI hJ hLt
  · exact (List.pairwise_iff_getElem.mp hApart j i hJ hI hGt).symm

namespace Run

theorem checkLayout_ok {options : Options} {memory : Image} {warnings : List Memory.Overlap}
    (hCheck : checkLayout options memory = .ok warnings) :
    (warnings = [] → memory.overlap? = none) ∧ (options.strict = true → warnings = []) := by
  rw [checkLayout] at hCheck
  split at hCheck
  · rename_i hNone
    cases hCheck
    exact ⟨fun _ => hNone, fun _ => rfl⟩
  · split at hCheck
    · cases hCheck
    · rename_i hLoose
      cases hCheck
      exact ⟨fun hNil => absurd hNil (List.cons_ne_nil _ _), fun hStrict => absurd hStrict hLoose⟩

namespace Reached

variable {options : Options} {r : Run} {log : List (Section × Item)} {program : Program}

theorem pairwise_apart (hReached : Reached options r log) (hFinish : r.finish = .ok program)
    (hWarnings : program.warnings = []) : program.items.toList.Pairwise Item.Apart := by
  obtain ⟨memory, hStore, hMemory, _, hItems, _, hCheck⟩ := finish_ok hFinish
  have hNone : r.assembly.memory.overlap? = none := by
    have hFinal := (checkLayout_ok hCheck).1 hWarnings
    rw [hMemory, Store.items_eq hStore] at hFinal
    exact hFinal
  rw [hItems]
  refine List.Pairwise.sublist hReached.items (List.pairwise_map.mpr ?_)
  exact hReached.sound.separated.imp fun hSeparated => hSeparated.apart hNone

theorem readBytes (hReached : Reached options r log) (hFinish : r.finish = .ok program)
    (hApart : program.items.toList.Pairwise Item.Apart) {it : Item} (hMem : it ∈ program.items)
    (hSize : 0 < it.size) {bs : List UInt8}
    (hBytes : it.encoding program.labels options.endian = .ok bs) (hLength : bs.length = it.size) :
    program.memory.readBytes it.address it.size = some bs := by
  have hWithin := hReached.within hFinish hMem hSize
  obtain ⟨before, after, hParts⟩ := List.append_of_mem (Array.mem_toList_iff.mpr hMem)
  rw [hParts, List.pairwise_append, List.pairwise_cons] at hApart
  rw [← hLength] at hWithin ⊢
  apply Image.readBytes_eq_some hWithin
  intro k hIndex
  have hCovers : it.Covers (it.address.toNat + k) :=
    ⟨Nat.le_add_right _ _, Nat.add_lt_add_left (hLength ▸ hIndex) _⟩
  obtain ⟨_, hBytes', hByte⟩ := hReached.covered hFinish hParts hCovers
    fun later hLater hOther => hApart.2.1.1 later hLater _ ⟨hCovers, hOther⟩
  cases hBytes.symm.trans hBytes'
  rw [hByte, Nat.add_sub_cancel_left]

end Reached

end Run

/-- No item of a program is written over by another one. -/
structure Intact (options : Options) (program : Program) : Prop where
  apart : ∀ (i j : Nat) (a b : Item), program.items[i]? = some a → program.items[j]? = some b →
    i ≠ j → a.Apart b
  reads : ∀ it ∈ program.items, ∃ bs, it.encoding program.labels options.endian = .ok bs ∧
    bs.length = it.size ∧ (0 < it.size → program.memory.readBytes it.address it.size = some bs)

/-- **No silent overwrite.** Where there are no warnings, as is so in every strict run, any two
items keep to addresses of their own and are found in the memory as they are encoded. -/
theorem intact_of_no_warnings (options : Options) (calls : List (String × Option String))
    (program : Program)
    (hFinish : ((Run.start options).addAll calls).finish = .ok program) :
    (options.strict = true → program.warnings = []) ∧
      (program.warnings = [] → Intact options program) := by
  obtain ⟨log, hReached⟩ := Run.exists_reached options calls
  obtain ⟨_, _, _, _, _, _, hCheck⟩ := Run.finish_ok hFinish
  rw [hReached.options_eq] at hCheck
  refine ⟨(Run.checkLayout_ok hCheck).2, ?_⟩
  intro hWarnings
  have hApart := hReached.pairwise_apart hFinish hWarnings
  constructor
  · intro i j a b hFirst hSecond hNe
    exact Item.apart_of_pairwise hApart hFirst hSecond hNe
  · intro it hMem
    obtain ⟨bs, hBytes, hLength⟩ := hReached.encoding hFinish hMem
    exact ⟨bs, hBytes, hLength, fun hSize =>
      hReached.readBytes hFinish hApart hMem hSize hBytes hLength⟩

/-- Text and data that touch without overlapping, from three sources one of which fails. -/
def abutting : Run :=
  (Run.start ⟨.little, 4, 0, 4, true⟩).addAll
    [("a", some "main: j main\n.data\n.half 0x102\n"), ("b", some ".oops"),
      ("c", some ".ascii \"hi\"")]

def abuttingMemory : Image :=
  ⟨#[0, 0, 0, 8, 2, 1, 104, 105, 0, 0, 0, 0, 0, 0, 0, 0], .little, 0,
    ⟨[], some ⟨.ofBounds 4 8, 2⟩⟩, ⟨[], some ⟨.ofBounds 0 4, 1⟩⟩, 2⟩

theorem intact_abutting : ∃ program, abutting.finish = .ok program ∧ program.items.size = 3 ∧
    program.warnings = [] ∧ program.memory = abuttingMemory ∧
      Intact ⟨.little, 4, 0, 4, true⟩ program := by
  have hStore : Store.items abutting.assembly.labels abutting.items.toList
      abutting.assembly.memory = .ok () abuttingMemory := by
    decide +kernel
  have hOptions : abutting.options = ⟨.little, 4, 0, 4, true⟩ :=
    Run.options_addAll _ _
  have hCheck : Run.checkLayout ⟨.little, 4, 0, 4, true⟩ abuttingMemory = .ok [] :=
    Run.checkLayout_of_singletons rfl rfl rfl
  have hFinish := Run.finish_eq_ok hStore (by decide +kernel) (hOptions ▸ hCheck)
  obtain ⟨hStrict, hIntact⟩ := intact_of_no_warnings _ _ _ hFinish
  exact ⟨_, hFinish, by decide +kernel, hStrict rfl, rfl, hIntact rfl⟩

end MipsAsm
