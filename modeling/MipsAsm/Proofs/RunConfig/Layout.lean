import MipsAsm.Proofs.Program.Segments
import MipsAsm.Proofs.RunConfig.Reload

/-! # Layouts of reloaded programs

Building the memory of a program again from its configuration opens all text segments before all
data segments, each kind in the order of starts. Two things can change. An empty segment that is
not the last of its kind is lost. An empty data segment that came before a text segment at the same
start comes behind it, and then the layout overlaps although that of the program does not.
-/

namespace MipsAsm

open Memory (Image Opened Segment SegmentKind Track)

theorem Memory.Segment.isEmpty_iff_stop_le (s : Segment) :
    s.isEmpty = true ↔ s.stop ≤ s.start := by
  rw [isEmpty_iff]
  constructor
  · exact fun hEq => UInt32.le_of_eq hEq.symm
  · exact fun hLe => UInt32.le_antisymm s.start_le_stop hLe

/-! ## Layouts without overlap -/

namespace Memory.Image.Charted

variable {m : Image} {log : List (SegmentKind × UInt32)}

theorem pairwise_segments (hCharted : m.Charted log) (hNone : m.overlap? = none)
    (kind : SegmentKind) :
    (m.track kind).segments.Pairwise fun a b => a.stop ≤ b.start := by
  refine List.pairwise_map.mpr ((hCharted.ordered kind).entries.imp_of_mem ?_)
  intro a b hFirst hSecond hBefore
  exact hCharted.overlap?_eq_none_iff.mp hNone kind kind a hFirst b hSecond hBefore

/-- Of two segments of different kinds at one start, the first is empty. -/
theorem isEmpty_of_start_eq (hCharted : m.Charted log) (hNone : m.overlap? = none) {d t : Segment}
    (hData : d ∈ m.data.segments) (hText : t ∈ m.text.segments) (hStart : t.start = d.start) :
    d.isEmpty = true ∨ t.isEmpty = true := by
  obtain ⟨a, hFirst, rfl⟩ := List.mem_map.mp hData
  obtain ⟨b, hSecond, rfl⟩ := List.mem_map.mp hText
  have hStops := hCharted.overlap?_eq_none_iff.mp hNone
  have hKinds : SegmentKind.data ≠ SegmentKind.text := by
    decide
  have hSerial := hCharted.serial_ne_of_kind_ne hKinds hFirst hSecond
  rw [Segment.isEmpty_iff_stop_le, Segment.isEmpty_iff_stop_le]
  rcases Nat.lt_or_gt_of_ne hSerial with hLt | hGt
  · left
    rw [← hStart]
    exact hStops .data .text a hFirst b hSecond (Or.inr ⟨hStart.symm, hLt⟩)
  · right
    rw [hStart]
    exact hStops .text .data b hSecond a hFirst (Or.inr ⟨hStart, hGt⟩)

theorem stop_le_of_start_lt (hCharted : m.Charted log) (hNone : m.overlap? = none)
    {k₁ k₂ : SegmentKind} {r s : Segment}
    (hFirst : r ∈ (m.track k₁).segments) (hSecond : s ∈ (m.track k₂).segments)
    (hStart : r.start < s.start) : r.stop ≤ s.start := by
  obtain ⟨a, hFirst', rfl⟩ := List.mem_map.mp hFirst
  obtain ⟨b, hSecond', rfl⟩ := List.mem_map.mp hSecond
  exact hCharted.overlap?_eq_none_iff.mp hNone k₁ k₂ a hFirst' b hSecond' (Or.inl hStart)

end Memory.Image.Charted

namespace RunConfig

theorem charted_memory (c : RunConfig) (bytes : Array UInt8) :
    ∃ log, (c.memory bytes).Charted log := by
  rw [memory_eq_edited]
  exact ⟨_, (Image.charted_ofCapacity bytes.size c.endian).edited (c.edits bytes)⟩

theorem serial_text_le {c : RunConfig} {bytes : Array UInt8} {o : Opened}
    (hEntry : o ∈ (c.memory bytes).text.entries) : o.serial ≤ c.text.length := by
  rw [memory_eq] at hEntry
  rcases Track.serial_of_mem_replay hEntry with hNone | ⟨_, hLe⟩
  · exact absurd hNone List.not_mem_nil
  · rwa [Nat.zero_add] at hLe

theorem lt_serial_data {c : RunConfig} {bytes : Array UInt8} {o : Opened}
    (hEntry : o ∈ (c.memory bytes).data.entries) : c.text.length < o.serial := by
  rw [memory_eq] at hEntry
  rcases Track.serial_of_mem_replay hEntry with hNone | ⟨hLt, _⟩
  · exact absurd hNone List.not_mem_nil
  · exact hLt

/-! ## Programs -/

/-- The memory of a program, built again from its configuration. -/
def reloaded (program : Program) (binary : String) (settings : Settings) : Image :=
  (ofProgram program binary settings).memory program.memory.bytes

theorem reloaded_eq (program : Program) (binary : String) (settings : Settings) :
    reloaded program binary settings =
      ⟨program.memory.bytes, program.memory.endian, program.memory.entry,
        Track.empty.replay program.memory.text.segments.length program.memory.data.segments,
        Track.empty.replay 0 program.memory.text.segments,
        program.memory.text.segments.length + program.memory.data.segments.length⟩ :=
  memory_eq _ _

theorem segments_reloaded {program : Program} (hKempt : program.memory.Kempt) (binary : String)
    (settings : Settings) (kind : SegmentKind) :
    ((reloaded program binary settings).track kind).segments =
      Track.survivors (program.memory.track kind).segments := by
  rw [reloaded_eq]
  cases kind with
  | data => exact Track.segments_replay _ (hKempt.pairwise_start_le .data)
  | text => exact Track.segments_replay _ (hKempt.pairwise_start_le .text)

section

variable {program : Program} {binary : String} {settings : Settings}

theorem mem_survivors_of_entry (hKempt : program.memory.Kempt) {kind : SegmentKind} {o : Opened}
    (hEntry : o ∈ ((reloaded program binary settings).track kind).entries) :
    o.segment ∈ Track.survivors (program.memory.track kind).segments :=
  segments_reloaded hKempt binary settings kind ▸ List.mem_map_of_mem hEntry

theorem exists_entry_of_survivor (hKempt : program.memory.Kempt) (kind : SegmentKind)
    {s : Segment} (hSurvivor : s ∈ Track.survivors (program.memory.track kind).segments) :
    ∃ o ∈ ((reloaded program binary settings).track kind).entries, o.segment = s := by
  rw [← segments_reloaded hKempt binary settings kind] at hSurvivor
  exact List.mem_map.mp hSurvivor

/-- Segments of one kind keep the order that they had. -/
theorem stop_le_of_before (hKempt : program.memory.Kempt) (hNone : program.memory.overlap? = none)
    {kind : SegmentKind} {a b : Opened}
    (hFirst : a ∈ ((reloaded program binary settings).track kind).entries)
    (hSecond : b ∈ ((reloaded program binary settings).track kind).entries)
    (hBefore : a.Before b) : a.segment.stop ≤ b.segment.start := by
  obtain ⟨log, hCharted⟩ := hKempt.charted
  obtain ⟨log', hReloaded⟩ :=
    charted_memory (ofProgram program binary settings) program.memory.bytes
  have hSegments : ((reloaded program binary settings).track kind).segments.Pairwise
      fun a b => a.stop ≤ b.start := by
    rw [segments_reloaded hKempt binary settings kind]
    exact (hCharted.pairwise_segments hNone kind).sublist (Track.survivors_sublist _)
  exact Image.rel_of_pairwise (fun _ _ hLess => hLess.asymm) (hReloaded.ordered kind).entries
    (List.pairwise_map.mp hSegments) hFirst hSecond hBefore

/-- A data segment comes behind a text segment at the same start. -/
theorem before_of_start_eq {a b : Opened}
    (hText : a ∈ ((reloaded program binary settings).track .text).entries)
    (hData : b ∈ ((reloaded program binary settings).track .data).entries)
    (hStart : a.segment.start = b.segment.start) : a.Before b := by
  have hFirst := serial_text_le hText
  have hSecond := lt_serial_data hData
  exact Or.inr ⟨hStart, by omega⟩

/-- No text segment starts where the last data segment is empty, unless it is empty too. -/
def Steady (program : Program) : Prop :=
  ∀ d, program.memory.data.segments.getLast? = some d → d.isEmpty = true →
    ∀ t ∈ program.memory.text.segments, t.start = d.start → t.isEmpty = true

theorem steady_of_overlap?_reloaded (hKempt : program.memory.Kempt)
    (hReloaded : (reloaded program binary settings).overlap? = none) : Steady program := by
  obtain ⟨log, hCharted⟩ :=
    charted_memory (ofProgram program binary settings) program.memory.bytes
  intro d hLast hEmpty t hText hStart
  by_contra hNonempty
  obtain ⟨a, hFirst, rfl⟩ : ∃ a ∈ ((reloaded program binary settings).track .text).entries,
      a.segment = t :=
    exists_entry_of_survivor hKempt .text (Track.mem_survivors.mpr (Or.inl ⟨hText, hNonempty⟩))
  obtain ⟨b, hSecond, rfl⟩ : ∃ b ∈ ((reloaded program binary settings).track .data).entries,
      b.segment = d :=
    exists_entry_of_survivor hKempt .data (Track.mem_survivors.mpr (Or.inr hLast))
  have hBefore := before_of_start_eq hFirst hSecond hStart
  have hStop := hCharted.overlap?_eq_none_iff.mp hReloaded .text .data a hFirst b hSecond hBefore
  rw [← hStart] at hStop
  exact hNonempty ((Segment.isEmpty_iff_stop_le _).mpr hStop)

theorem isEmpty_of_steady {log : List (SegmentKind × UInt32)}
    (hCharted : program.memory.Charted log) (hNone : program.memory.overlap? = none)
    (hSteady : Steady program) {d t : Segment}
    (hData : d ∈ Track.survivors program.memory.data.segments)
    (hText : t ∈ program.memory.text.segments) (hStart : t.start = d.start) :
    t.isEmpty = true := by
  have hListed := (Track.survivors_sublist _).subset hData
  rcases hCharted.isEmpty_of_start_eq hNone hListed hText hStart with hEmpty | hEmpty
  · rcases Track.mem_survivors.mp hData with ⟨_, hNonempty⟩ | hLast
    · exact absurd hEmpty hNonempty
    · exact hSteady d hLast hEmpty t hText hStart
  · exact hEmpty

theorem overlap?_reloaded_of_steady (hKempt : program.memory.Kempt)
    (hNone : program.memory.overlap? = none) (hSteady : Steady program) :
    (reloaded program binary settings).overlap? = none := by
  obtain ⟨log, hCharted⟩ := hKempt.charted
  obtain ⟨log', hCharted'⟩ :=
    charted_memory (ofProgram program binary settings) program.memory.bytes
  apply hCharted'.overlap?_eq_none_iff.mpr
  intro k₁ k₂ a hFirst b hSecond hBefore
  have hLeft := mem_survivors_of_entry hKempt hFirst
  have hRight := mem_survivors_of_entry hKempt hSecond
  have hLeft' := (Track.survivors_sublist _).subset hLeft
  have hRight' := (Track.survivors_sublist _).subset hRight
  rcases hBefore with hLt | ⟨hStart, hSerial⟩
  · exact hCharted.stop_le_of_start_lt hNone hLeft' hRight' hLt
  · -- at one start only a text segment in front of a data segment is new
    cases k₁ with
    | data =>
      cases k₂ with
      | data => exact stop_le_of_before hKempt hNone hFirst hSecond (Or.inr ⟨hStart, hSerial⟩)
      | text =>
        have hAfter := before_of_start_eq hSecond hFirst hStart.symm
        exact absurd (Or.inr ⟨hStart, hSerial⟩) hAfter.asymm
    | text =>
      cases k₂ with
      | text => exact stop_le_of_before hKempt hNone hFirst hSecond (Or.inr ⟨hStart, hSerial⟩)
      | data =>
        have hEmpty := isEmpty_of_steady hCharted hNone hSteady hRight hLeft' hStart
        rw [← hStart]
        exact (Segment.isEmpty_iff_stop_le _).mp hEmpty

end

/-! ## Segments that survive -/

/-- **All but stranded segments survive**: each kind comes back without its empty segments in front
of others. So the lists are the same just when the current segment, if it is empty, is the last. -/
theorem segments_of_reload (options : Options) (calls : List (String × Option String))
    (program : Program) (binary : String) (settings : Settings)
    (hFinish : ((Run.start options).addAll calls).finish = .ok program) (kind : SegmentKind) :
    ((reloaded program binary settings).track kind).segments =
        Track.survivors (program.memory.track kind).segments ∧
      (((reloaded program binary settings).track kind).segments =
          (program.memory.track kind).segments ↔
        ∀ s, (program.memory.track kind).current = some s → s.isEmpty = true →
          (program.memory.track kind).segments.getLast? = some s) := by
  have hKempt := Run.kempt_of_finish hFinish
  have hSegments := segments_reloaded hKempt binary settings kind
  refine ⟨hSegments, ?_⟩
  rw [hSegments]
  exact (hKempt.tidy kind).survivors_segments

/-- An empty segment in front of the other one is lost. -/
theorem stranded_segment_lost : ∃ program, stranded.finish = .ok program ∧
    program.memory.text.segments = [.emptyAt 0, .ofBounds 4 8] ∧
    ∀ binary settings, (reloaded program binary settings).text.segments = [.ofBounds 4 8] := by
  obtain ⟨program, hFinish, hMemory, _⟩ := finish_stranded
  refine ⟨program, hFinish, ?_, ?_⟩
  · rw [hMemory]
    decide
  · intro binary settings
    rw [reloaded_eq, hMemory]
    decide

/-- The segment opened last is empty and comes behind the other one. -/
def trailing : Run :=
  (Run.start ⟨.big, 4, 0, 0x1000, false⟩).addAll [("a.s", some "main: nop\n.text 8\n")]

def trailingMemory : Image :=
  ⟨#[0, 0, 0, 0], .big, 0, .empty, ⟨[⟨.ofBounds 0 4, 1⟩], some ⟨.emptyAt 8, 2⟩⟩, 2⟩

theorem segments_trailing : ∃ program, trailing.finish = .ok program ∧
    program.memory.text.segments = [.ofBounds 0 4, .emptyAt 8] ∧
    (reloaded program "a.bin" .default).text.segments = program.memory.text.segments := by
  have hStore : Store.items trailing.assembly.labels trailing.items.toList
      trailing.assembly.memory = .ok () trailingMemory := by
    decide +kernel
  have hCheck : Run.checkLayout trailing.options trailingMemory = .ok [] := by
    rw [Run.checkLayout, Image.overlap?, Image.layout,
      show trailingMemory.data.entries = [] from rfl, List.map_nil, List.nil_merge]
    decide
  have hFinish := Run.finish_eq_ok hStore (by decide +kernel) hCheck
  refine ⟨_, hFinish, by decide, ?_⟩
  apply (segments_of_reload _ _ _ "a.bin" .default hFinish .text).2.mpr
  decide

/-! ## Overlaps that appear -/

/-- **A clean layout stays clean just when it is steady**: only an empty data segment that falls
behind a text segment at its start can make an overlap. -/
theorem overlap_of_reload (options : Options) (calls : List (String × Option String))
    (program : Program) (binary : String) (settings : Settings)
    (hFinish : ((Run.start options).addAll calls).finish = .ok program)
    (hNone : program.memory.overlap? = none) :
    (reloaded program binary settings).overlap? = none ↔ Steady program := by
  have hKempt := Run.kempt_of_finish hFinish
  constructor
  · exact steady_of_overlap?_reloaded hKempt
  · exact overlap?_reloaded_of_steady hKempt hNone

/-- An empty data segment, then text at the same start. -/
def pinched : Run :=
  (Run.start ⟨.little, 4, 0, 0x1000, true⟩).addAll
    [("a.s", some ".data 0\n.text 0\nmain: nop\n")]

def pinchedMemory : Image :=
  ⟨#[0, 0, 0, 0], .little, 0, ⟨[], some ⟨.emptyAt 0, 1⟩⟩, ⟨[], some ⟨.ofBounds 0 4, 2⟩⟩, 2⟩

/-- A strict run accepts the program, and its memory overlaps when it is built again. -/
theorem pinched_overlap : ∃ program, pinched.finish = .ok program ∧
    program.memory.overlap? = none ∧ ∀ binary settings,
      (reloaded program binary settings).overlap? =
        some ⟨(.text, .ofBounds 0 4), (.data, .emptyAt 0)⟩ := by
  have hStore : Store.items pinched.assembly.labels pinched.items.toList
      pinched.assembly.memory = .ok () pinchedMemory := by
    decide +kernel
  have hNone : pinchedMemory.overlap? = none := by
    rw [Image.overlap?, Image.layout_of_singletons rfl rfl]
    decide
  have hCheck : Run.checkLayout pinched.options pinchedMemory = .ok [] := by
    rw [Run.checkLayout, hNone]
  refine ⟨_, Run.finish_eq_ok hStore (by decide +kernel) hCheck, hNone, ?_⟩
  intro binary settings
  rw [reloaded_eq, Image.overlap?, Image.layout_of_singletons rfl rfl]
  decide

/-- The empty data segment is in front of another one, so that it is lost. -/
def propped : Run :=
  (Run.start ⟨.little, 12, 0, 0x1000, true⟩).addAll
    [("a.s", some ".data 8\n.byte 1\n.data 0\n.text 0\nmain: nop\n")]

def proppedMemory : Image :=
  ⟨#[0, 0, 0, 0, 0, 0, 0, 0, 1, 0, 0, 0], .little, 0,
    ⟨[⟨.ofBounds 8 9, 1⟩], some ⟨.emptyAt 0, 2⟩⟩, ⟨[], some ⟨.ofBounds 0 4, 3⟩⟩, 3⟩

theorem overlap_propped : ∃ program, propped.finish = .ok program ∧
    program.memory.overlap? = none ∧ (reloaded program "a.bin" .default).overlap? = none := by
  have hStore : Store.items propped.assembly.labels propped.items.toList
      propped.assembly.memory = .ok () proppedMemory := by
    decide +kernel
  have hLayout : proppedMemory.layout =
      [(.data, .emptyAt 0), (.text, .ofBounds 0 4), (.data, .ofBounds 8 9)] := by
    rw [Image.layout,
      show proppedMemory.data.entries = [⟨.emptyAt 0, 2⟩, ⟨.ofBounds 8 9, 1⟩] from rfl,
      show proppedMemory.text.entries = [⟨.ofBounds 0 4, 3⟩] from rfl]
    simp only [List.map_cons, List.map_nil]
    rw [List.cons_merge_cons, if_pos (by decide), List.cons_merge_cons, if_neg (by decide),
      List.merge_right]
    rfl
  have hNone : proppedMemory.overlap? = none := by
    rw [Image.overlap?, hLayout]
    decide
  have hCheck : Run.checkLayout propped.options proppedMemory = .ok [] := by
    rw [Run.checkLayout, hNone]
  have hFinish := Run.finish_eq_ok hStore (by decide +kernel) hCheck
  refine ⟨_, hFinish, hNone, ?_⟩
  apply (overlap_of_reload _ _ _ "a.bin" .default hFinish hNone).mpr
  intro d hLast hEmpty
  have hLast' : proppedMemory.data.segments.getLast? = some (.ofBounds 8 9) := by
    decide
  cases hLast'.symm.trans hLast
  exact absurd hEmpty (by decide)

end RunConfig

end MipsAsm
