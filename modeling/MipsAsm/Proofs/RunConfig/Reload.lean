import MipsAsm.Proofs.Assembly.Invariant
import MipsAsm.Proofs.Memory.Replay
import MipsAsm.Proofs.Program.Run
import MipsAsm.Proofs.RunConfig.RoundTrip

/-! # Images built from configurations

An image is built from a configuration by opening and extending its text segments, then its data
segments, and by copying the bytes over the buffer at the end. Opening a text segment clears
bytes, so the order matters. Whatever the segments, the image holds just the given bytes, and an
address is in a segment just when the configuration says so.
-/

namespace MipsAsm

open Memory (Edit Endian Image Segment Track)

namespace Memory.Image

/-! ## Segments one after the other -/

def textEdits (s : Segment) : List Edit :=
  [.openText s.start.toNat, .extendText s.stop]

def dataEdits (s : Segment) : List Edit :=
  [.openData s.start.toNat, .extendData s.stop]

theorem edited_textEdits (list : List Segment) (m : Image) :
    ∃ bytes : Array UInt8, bytes.size = m.bytes.size ∧ m.edited (list.flatMap textEdits) =
      ⟨bytes, m.endian, m.entry, m.data, m.text.replay m.opened list, m.opened + list.length⟩ := by
  induction list generalizing m with
  | nil => exact ⟨m.bytes, rfl, rfl⟩
  | cons s list ih =>
    obtain ⟨bytes, hSize, hEdited⟩ := ih (m.edited (textEdits s))
    refine ⟨bytes, hSize.trans (size_clearFrom _ _), ?_⟩
    rw [List.flatMap_cons, edited_append, hEdited, List.length_cons, Track.replay]
    simp only [edited, textEdits, List.foldl_cons, List.foldl_nil, Edit.apply, openText, extendText,
      clampAddress_toNat, Track.restore]
    congr 1
    omega

theorem edited_dataEdits (list : List Segment) (m : Image) :
    m.edited (list.flatMap dataEdits) =
      { m with data := m.data.replay m.opened list, opened := m.opened + list.length } := by
  induction list generalizing m with
  | nil => rfl
  | cons s list ih =>
    rw [List.flatMap_cons, edited_append, ih, List.length_cons, Track.replay]
    simp only [edited, dataEdits, List.foldl_cons, List.foldl_nil, Edit.apply, openData, extendData,
      clampAddress_toNat, Track.restore]
    congr 1
    omega

theorem load_of_size_eq {m : Image} {bytes : Array UInt8} (hSize : m.bytes.size = bytes.size) :
    m.load bytes = { m with bytes } := by
  rw [load, hSize, Array.extract_empty_of_stop_le_start (Nat.le_refl _), Array.append_empty]

/-! ## What can be observed -/

/-- Two images that agree in all that is read from them. -/
structure Mirrors (m m' : Image) : Prop where
  readByte : ∀ address, m.readByte address = m'.readByte address
  readHalf : ∀ address, m.readHalf address = m'.readHalf address
  readWord : ∀ address, m.readWord address = m'.readWord address
  entry : m.entry = m'.entry
  endian : m.endian = m'.endian
  contains : ∀ kind address, (m.track kind).contains address = (m'.track kind).contains address

theorem readNumber_congr {m m' : Image} (hBytes : m.bytes = m'.bytes)
    (hEndian : m.endian = m'.endian) (address : UInt32) (width : Nat) :
    m.readNumber address width = m'.readNumber address width := by
  rw [readNumber, readNumber, readBytes, readBytes, hBytes, hEndian]

end Memory.Image

namespace RunConfig

open Text (FitsLine)
open Memory.Image (textEdits dataEdits edited_append edited_textEdits edited_dataEdits)

def edits (c : RunConfig) (bytes : Array UInt8) : List Edit :=
  c.text.flatMap textEdits ++ (c.data.flatMap dataEdits ++ [.load bytes, .setEntry c.entryPoint])

theorem memory_eq_edited (c : RunConfig) (bytes : Array UInt8) :
    c.memory bytes = (Image.ofCapacity bytes.size c.endian).edited (c.edits bytes) := by
  rw [memory, edits, edited_append, edited_append, Image.edited, Image.edited, Image.edited,
    List.foldl_flatMap, List.foldl_flatMap]
  rfl

theorem memory_eq (c : RunConfig) (bytes : Array UInt8) :
    c.memory bytes = ⟨bytes, c.endian, c.entryPoint, Track.empty.replay c.text.length c.data,
      Track.empty.replay 0 c.text, c.text.length + c.data.length⟩ := by
  obtain ⟨cleared, hSize, hText⟩ := edited_textEdits c.text (.ofCapacity bytes.size c.endian)
  have hCapacity : cleared.size = bytes.size := by
    rw [hSize, Image.ofCapacity, Array.size_replicate]
  rw [memory_eq_edited, edits, edited_append, hText, edited_append, edited_dataEdits]
  simp only [Image.edited, List.foldl_cons, List.foldl_nil, Edit.apply]
  rw [Image.load_of_size_eq hCapacity]
  simp only [Image.ofCapacity, Nat.zero_add]

/-! ## What is restored -/

/-- An image that holds what a configuration says, around given bytes. -/
structure Restores (m : Image) (c : RunConfig) (bytes : Array UInt8) : Prop where
  bytes_eq : m.bytes = bytes
  capacity_eq : m.capacity = bytes.size
  endian_eq : m.endian = c.endian
  entry_eq : m.entry = c.entryPoint
  text_iff : ∀ address, m.text.contains address = true ↔
    ∃ s ∈ c.text, s.contains address = true
  data_iff : ∀ address, m.data.contains address = true ↔
    ∃ s ∈ c.data, s.contains address = true

theorem contains_replay_empty {rank : Nat} {list : List Segment} {address : UInt32} :
    (Track.empty.replay rank list).contains address = true ↔
      ∃ s ∈ list, s.contains address = true := by
  rw [Track.contains_replay, or_iff_left]
  simp [Track.contains, Track.segments, Track.entries, Track.empty]

theorem restores_memory (c : RunConfig) (bytes : Array UInt8) :
    Restores (c.memory bytes) c bytes := by
  rw [memory_eq]
  constructor
  · rfl
  · rfl
  · rfl
  · rfl
  · intro address
    exact contains_replay_empty
  · intro address
    exact contains_replay_empty

theorem Restores.mirrors {m : Image} {program : Program} {binary : String} {settings : Settings}
    (hRestores : Restores m (ofProgram program binary settings) program.memory.bytes) :
    m.Mirrors program.memory := by
  have hNumber := Image.readNumber_congr hRestores.bytes_eq hRestores.endian_eq
  constructor
  · intro address
    rw [Image.readByte, Image.readByte, hRestores.bytes_eq]
  · intro address
    rw [Image.readHalf, Image.readHalf, hNumber]
  · intro address
    rw [Image.readWord, Image.readWord, hNumber]
  · exact hRestores.entry_eq
  · exact hRestores.endian_eq
  · rintro (_ | _) address
    · exact Bool.eq_iff_iff.mpr ((hRestores.data_iff address).trans List.any_eq_true.symm)
    · exact Bool.eq_iff_iff.mpr ((hRestores.text_iff address).trans List.any_eq_true.symm)

/-- **What can be observed survives**: an image holds what its configuration says, and the written
configuration of a program with the bytes of its memory gives back a memory that cannot be told
from it by reading. -/
theorem mirrors_of_reload :
    (∀ (c : RunConfig) (bytes : Array UInt8), Restores (c.memory bytes) c bytes) ∧
      ∀ (program : Program) (binary : String) (settings : Settings),
        FitsLine binary → FitsLine settings.output → FitsLine settings.log →
        (ofProgram program binary settings).Numbered →
        ∃ c, parse (ofProgram program binary settings).render = .ok c ∧
          (c.memory program.memory.bytes).Mirrors program.memory := by
  refine ⟨restores_memory, ?_⟩
  intro program binary settings hBinary hOutput hLog hNumbered
  have hIsa : FitsLine Isa.isaName := by
    decide
  have hStorable : (ofProgram program binary settings).Storable := ⟨hBinary, hIsa, hOutput, hLog⟩
  exact ⟨_, parse_render hStorable hNumbered, (restores_memory _ _).mirrors⟩

/-- The segment opened last is empty and comes before the other one. -/
def stranded : Run :=
  (Run.start ⟨.little, 8, 0, 0x1000, true⟩).addAll [("a.s", some ".text 4\nmain: nop\n.text 0\n")]

def strandedMemory : Image :=
  ⟨#[0, 0, 0, 0, 0, 0, 0, 0], .little, 4, .empty,
    ⟨[⟨.ofBounds 4 8, 1⟩], some ⟨.emptyAt 0, 2⟩⟩, 2⟩

theorem layout_strandedMemory :
    strandedMemory.layout = [(.text, .emptyAt 0), (.text, .ofBounds 4 8)] := by
  rw [Image.layout, show strandedMemory.data.entries = [] from rfl, List.map_nil, List.nil_merge]
  decide

theorem finish_stranded : ∃ program, stranded.finish = .ok program ∧
    program.memory = strandedMemory ∧ program.warnings = [] := by
  have hStore : Store.items stranded.assembly.labels stranded.items.toList
      stranded.assembly.memory = .ok () { strandedMemory with entry := 0 } := by
    decide +kernel
  have hCheck : Run.checkLayout stranded.options strandedMemory = .ok [] := by
    rw [Run.checkLayout, Image.overlap?, layout_strandedMemory]
    decide
  exact ⟨_, Run.finish_eq_ok hStore (by decide +kernel) hCheck, rfl, rfl⟩

theorem mirrors_stranded : ∃ program, stranded.finish = .ok program ∧
    ∃ c, parse (ofProgram program "a=b #c" .default).render = .ok c ∧
      (c.memory program.memory.bytes).Mirrors program.memory := by
  obtain ⟨program, hFinish, hMemory, _⟩ := finish_stranded
  have hNumbered : (ofProgram program "a=b #c" .default).Numbered := by
    constructor
    · rw [ofProgram, hMemory]
      decide
    · rw [ofProgram, hMemory]
      decide
  exact ⟨program, hFinish, mirrors_of_reload.2 program _ _ (by decide) (by decide) (by decide)
    hNumbered⟩

end RunConfig

end MipsAsm
