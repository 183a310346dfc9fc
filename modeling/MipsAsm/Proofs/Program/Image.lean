import MipsAsm.Proofs.Program.Run

/-! # The image of a finished run

The memory of a program is made of its items and of nothing else. An item is encoded alone, against
the final label table; the last item that takes an address gives its byte, and every other byte is 0.
-/

namespace MipsAsm

/-- What the memory of a program holds. -/
structure Renders (options : Options) (program : Program) : Prop where
  endian : program.memory.endian = options.endian
  capacity_le : options.capacity ≤ program.memory.capacity
  entry : program.labels.address? "main" = some program.memory.entry
  /-- The size that decided the layout is the number of bytes written. -/
  encoding : ∀ it ∈ program.items, ∃ bs,
    it.encoding program.labels options.endian = .ok bs ∧ bs.length = it.size
  words : ∀ it ∈ program.items, ∀ i, it.payload = .code i → ∃ ws,
    i.encode it.address program.labels = .ok ws ∧ i.size = 4 * ws.length
  within : ∀ it ∈ program.items, 0 < it.size →
    it.address.toNat + it.size ≤ program.memory.capacity
  covered : ∀ before it after index, program.items.toList = before ++ it :: after →
    it.Covers index → (∀ later ∈ after, ¬ later.Covers index) → ∃ bs,
      it.encoding program.labels options.endian = .ok bs ∧
        program.memory.bytes[index]? = bs[index - it.address.toNat]?
  uncovered : ∀ index < program.memory.capacity, (∀ it ∈ program.items, ¬ it.Covers index) →
    program.memory.bytes[index]? = some 0

namespace Run

variable {options : Options} {r : Run} {log : List (Section × Item)} {program : Program}

namespace Reached

/-- A finished run has stored its items, in the order of staging, into a blank image. -/
theorem exists_store (hReached : Reached options r log) (hFinish : r.finish = .ok program) :
    ∃ blank memory, Blank options.capacity options.endian blank ∧
      Store.items program.labels program.items.toList blank = .ok () memory ∧
      program.memory.bytes = memory.bytes := by
  obtain ⟨memory, hStore, hMemory, hLabels, hItems, _, _⟩ := finish_ok hFinish
  rw [← hLabels, ← hItems] at hStore
  exact ⟨r.assembly.memory, memory, hReached.blank, hStore, congrArg (·.bytes) hMemory⟩

theorem fits_of_finish (hReached : Reached options r log) (hFinish : r.finish = .ok program) :
    ∀ it ∈ program.items.toList, it.address.toNat + it.size < 0x100000000 := by
  obtain ⟨_, _, _, _, hItems, _, _⟩ := finish_ok hFinish
  rw [hItems]
  exact hReached.fits

theorem encoding (hReached : Reached options r log) (hFinish : r.finish = .ok program)
    {it : Item} (hMem : it ∈ program.items) :
    ∃ bs, it.encoding program.labels options.endian = .ok bs ∧ bs.length = it.size := by
  obtain ⟨blank, memory, hBlank, hStore, _⟩ := hReached.exists_store hFinish
  obtain ⟨before, after, hParts⟩ := List.append_of_mem (Array.mem_toList_iff.mpr hMem)
  rw [hParts] at hStore
  obtain ⟨_, bs, hBytes, hLength, _⟩ := Store.items_split hStore
  exact ⟨bs, hBlank.2 ▸ hBytes, hLength⟩

theorem words (hReached : Reached options r log) (hFinish : r.finish = .ok program)
    {it : Item} (hMem : it ∈ program.items) {i : Instruction} (hCode : it.payload = .code i) :
    ∃ ws, i.encode it.address program.labels = .ok ws ∧ i.size = 4 * ws.length := by
  obtain ⟨bs, hBytes, _⟩ := hReached.encoding hFinish hMem
  simp only [Item.encoding, hCode] at hBytes
  obtain ⟨ws, hWords, _⟩ := Outcome.map_eq_ok.mp hBytes
  exact ⟨ws, hWords, Instruction.size_eq_of_encode hWords⟩

theorem within (hReached : Reached options r log) (hFinish : r.finish = .ok program)
    {it : Item} (hMem : it ∈ program.items) (hSize : 0 < it.size) :
    it.address.toNat + it.size ≤ program.memory.capacity := by
  obtain ⟨blank, memory, _, hStore, hMemory⟩ := hReached.exists_store hFinish
  have hFits := hReached.fits_of_finish hFinish it (Array.mem_toList_iff.mpr hMem)
  obtain ⟨before, after, hParts⟩ := List.append_of_mem (Array.mem_toList_iff.mpr hMem)
  rw [hParts] at hStore
  rw [Memory.Image.capacity, hMemory]
  exact Store.le_capacity_items hStore hFits hSize

theorem covered (hReached : Reached options r log) (hFinish : r.finish = .ok program)
    {before after : List Item} {it : Item} {index : Nat}
    (hParts : program.items.toList = before ++ it :: after) (hCovers : it.Covers index)
    (hLast : ∀ later ∈ after, ¬ later.Covers index) :
    ∃ bs, it.encoding program.labels options.endian = .ok bs ∧
      program.memory.bytes[index]? = bs[index - it.address.toNat]? := by
  obtain ⟨blank, memory, hBlank, hStore, hMemory⟩ := hReached.exists_store hFinish
  have hFits := hReached.fits_of_finish hFinish
  have hMem : it ∈ program.items := by
    rw [← Array.mem_toList_iff, hParts]
    exact List.mem_append_right _ List.mem_cons_self
  have hIndex : index < memory.capacity := by
    have hWithin := hReached.within hFinish hMem hCovers.size_pos
    rw [Memory.Image.capacity, hMemory] at hWithin
    exact Nat.lt_of_lt_of_le hCovers.2 hWithin
  rw [hParts] at hStore hFits
  obtain ⟨bs, hBytes, hByte⟩ := Store.byteAt_items_of_covers hStore hFits hCovers hLast
  refine ⟨bs, hBlank.2 ▸ hBytes, ?_⟩
  rw [hMemory, Memory.Image.getElem?_of_lt_capacity _ hIndex, hByte]

theorem uncovered (hReached : Reached options r log) (hFinish : r.finish = .ok program)
    {index : Nat} (hIndex : index < program.memory.capacity)
    (hFree : ∀ it ∈ program.items, ¬ it.Covers index) :
    program.memory.bytes[index]? = some 0 := by
  obtain ⟨blank, memory, hBlank, hStore, hMemory⟩ := hReached.exists_store hFinish
  have hFits := hReached.fits_of_finish hFinish
  rw [Memory.Image.capacity, hMemory] at hIndex
  rw [hMemory, Memory.Image.getElem?_of_lt_capacity _ hIndex,
    Store.byteAt_items_of_not_covers hStore hFits fun it hMem =>
      hFree it (Array.mem_toList_iff.mp hMem), hBlank.byteAt]

theorem renders (hReached : Reached options r log) (hFinish : r.finish = .ok program) :
    Renders options program where
  endian := by
    obtain ⟨memory, hStore, hMemory, _⟩ := finish_ok hFinish
    rw [hMemory, Store.items_eq hStore]
    exact hReached.blank.2
  capacity_le := by
    obtain ⟨blank, memory, hBlank, hStore, hMemory⟩ := hReached.exists_store hFinish
    calc
      options.capacity = blank.capacity := by
        rw [Memory.Image.capacity, hBlank.1, Array.size_replicate]
      _ ≤ memory.capacity := Store.capacity_le_items hStore
      _ = program.memory.capacity := congrArg Array.size hMemory.symm
  entry := by
    obtain ⟨_, _, _, _, _, hEntry, _⟩ := finish_ok hFinish
    exact hEntry
  encoding _ hMem := hReached.encoding hFinish hMem
  words _ hMem _ hCode := hReached.words hFinish hMem hCode
  within _ hMem hSize := hReached.within hFinish hMem hSize
  covered _ _ _ _ hParts hCovers hLast := hReached.covered hFinish hParts hCovers hLast
  uncovered _ hIndex hFree := hReached.uncovered hFinish hIndex hFree

end Reached

end Run

/-- **The memory of a program is what its items say**, whatever sources were added and however many
of them failed. No byte is written before the end, so that opening a segment clears nothing. -/
theorem renders_of_finish (options : Options) (calls : List (String × Option String))
    (program : Program)
    (hFinish : ((Run.start options).addAll calls).finish = .ok program) :
    Renders options program ∧
      ((Run.start options).addAll calls).assembly.memory.bytes =
        Array.replicate options.capacity 0 := by
  obtain ⟨log, hReached⟩ := Run.exists_reached options calls
  exact ⟨hReached.renders hFinish, hReached.blank.1⟩

/-- A run with three failing sources and a half-word that is laid over an instruction. -/
def overlaid : Run :=
  (Run.start ⟨.big, 4, 0, 2, false⟩).addAll
    [("a", some "main: j main\n.data 2\n.half 0x102\n"), ("a", some ""), ("b", none),
      ("c", some ".byte 7\n.oops"), ("d", some ".byte 9")]

def overlaidMemory : Memory.Image :=
  -- the instruction keeps its first two bytes, and the byte of the failing source is 0
  ⟨#[8, 0, 1, 2, 0, 9, 0, 0, 0, 0, 0, 0, 0, 0, 0, 0], .big, 0,
    ⟨[], some ⟨.ofBounds 2 6, 2⟩⟩, ⟨[], some ⟨.ofBounds 0 4, 1⟩⟩, 2⟩

theorem renders_overlaid : ∃ program, overlaid.finish = .ok program ∧
    program.memory = overlaidMemory ∧ Renders ⟨.big, 4, 0, 2, false⟩ program := by
  have hStore : Store.items overlaid.assembly.labels overlaid.items.toList
      overlaid.assembly.memory = .ok () overlaidMemory := by
    decide +kernel
  have hOptions : overlaid.options = ⟨.big, 4, 0, 2, false⟩ :=
    Run.options_addAll _ _
  -- The merge of two tracks is by well-founded recursion, so it is rewritten before evaluation.
  have hCheck : Run.checkLayout ⟨.big, 4, 0, 2, false⟩ overlaidMemory =
      .ok [⟨(.text, .ofBounds 0 4), (.data, .ofBounds 2 6)⟩] := by
    rw [Run.checkLayout, Memory.Image.overlap?, Memory.Image.layout_of_singletons rfl rfl]
    rfl
  have hFinish := Run.finish_eq_ok hStore (by decide +kernel) (hOptions ▸ hCheck)
  exact ⟨_, hFinish, rfl, (renders_of_finish _ _ _ hFinish).1⟩

end MipsAsm
