import MipsAsm.Proofs.Program.Alike
import MipsAsm.Proofs.Program.Disjoint

/-! # Byte order

Two runs whose byte orders differ fail alike or give programs of the same layout. Unless segments
overlap, the programs hold the same content: in either order, a number that is read where it was
written is the one written.
-/

namespace MipsAsm

open Memory (Endian Image)
open Outcome (Agree map_eq_ok)

/-! ## Content in units -/

/-- How content is divided: words of code, the values of a data directive, or single bytes. -/
def Payload.unit : Payload → Width
  | .code _ => .word
  | .data width _ => width
  | .bytes _ | .space _ => .byte

/-- The number that a reader of the width finds. Half-words are read as signed. -/
def Width.read (width : Width) (m : Image) (address : UInt32) : Option Int :=
  match width with
  | .byte => (m.readByte address).map fun b => b.toNat
  | .half => m.readHalf address
  | .word => (m.readWord address).map fun w => w.toNat

/-- What is read at the units of an item, in order. -/
def Item.readings (m : Image) (it : Item) : List (Option Int) :=
  (List.range (it.size / it.payload.unit.bytes)).map fun k =>
    it.payload.unit.read m (it.address + UInt32.ofNat (it.payload.unit.bytes * k))

/-- The numbers that an item stands for, without a byte order. -/
def Item.numbers (labels : LabelTable) (it : Item) : Except Cause (List Nat) :=
  match it.payload with
  | .code i => (i.encode it.address labels).map fun ws => ws.map fun w => w.toWord.toNat
  | .data width vs => vs.mapM (width.number labels)
  | .bytes content => .ok (content.map UInt8.toNat)
  | .space count => .ok (List.replicate count 0)

theorem Memory.Endian.flatMap_encode_one (endian : Endian) (bs : List UInt8) :
    ((bs.map UInt8.toNat).flatMap fun n => endian.encode 1 n) = bs := by
  have hByte : ∀ b : UInt8, endian.encode 1 b.toNat = [b] := by
    intro b
    cases endian <;> simp [encode, arrange, littleBytes]
  rw [List.flatMap_map]
  simp only [hByte, List.flatMap_singleton']

theorem Item.encoding_eq (labels : LabelTable) (endian : Endian) (it : Item) :
    it.encoding labels endian = (it.numbers labels).map fun ns =>
      ns.flatMap fun n => endian.encode it.payload.unit.bytes n := by
  obtain ⟨address, pos, payload⟩ := it
  cases payload with
  | code i =>
    simp only [encoding, numbers]
    cases i.encode address labels with
    | error cause => rfl
    | ok ws => exact congrArg Except.ok (List.flatMap_map _ _ ws).symm
  | data width vs => rfl
  | bytes content => exact congrArg Except.ok (endian.flatMap_encode_one content).symm
  | space count =>
    have hZeros := endian.flatMap_encode_one (List.replicate count 0)
    rw [List.map_replicate] at hZeros
    exact congrArg Except.ok hZeros.symm

/-! ## Numbers read back -/

/-- The number read back, given the bits that were written. -/
def Width.shown : Width → Nat → Int
  | .byte, n => n
  | .half, n => if (n : Int) < 0x8000 then n else n - 0x10000
  | .word, n => (UInt32.ofNat n).toNat

theorem Width.read_of_readNumber {width : Width} {m : Image} {address : UInt32} {n : Nat}
    (hRead : m.readNumber address width.bytes = some n) :
    width.read m address = some (width.shown n) := by
  cases width with
  | byte =>
    change m.readNumber address 1 = some n at hRead
    rw [Image.readNumber] at hRead
    obtain ⟨bs, hBlock, hValue⟩ := Option.map_eq_some_iff.mp hRead
    obtain ⟨b, rfl, hByte⟩ := Image.readBytes_one hBlock
    have hOne : m.endian.decode [b] = b.toNat := by
      cases m.endian <;> simp [Endian.decode, Endian.arrange, Memory.littleValue]
    rw [read, hByte, Option.map_some, ← hValue, hOne]
    rfl
  | half =>
    change m.readNumber address 2 = some n at hRead
    change m.readHalf address = some (half.shown n)
    rw [Image.readHalf, hRead]
    rfl
  | word =>
    change m.readNumber address 4 = some n at hRead
    change (m.readWord address).map _ = some (word.shown n)
    rw [Image.readWord, hRead]
    rfl

/-! ## Programs without overlaps -/

theorem Run.Reached.readings {options : Options} {r : Run} {log : List (Section × Item)}
    {program : Program} (hReached : Reached options r log) (hFinish : r.finish = .ok program)
    (hWarnings : program.warnings = []) {it : Item} (hMem : it ∈ program.items) :
    ∃ ns, it.numbers program.labels = .ok ns ∧
      it.readings program.memory = ns.map fun n =>
        some (it.payload.unit.shown (n % 1 <<< (8 * it.payload.unit.bytes))) := by
  obtain ⟨bs, hBytes, hLength⟩ := hReached.encoding hFinish hMem
  have hEndian := (hReached.renders hFinish).endian
  have hBlock : 0 < it.size → _ := fun hSize => hReached.readBytes hFinish
    (hReached.pairwise_apart hFinish hWarnings) hMem hSize hBytes hLength
  rw [Item.encoding_eq] at hBytes
  obtain ⟨ns, hNumbers, rfl⟩ := map_eq_ok.mp hBytes
  refine ⟨ns, hNumbers, ?_⟩
  rw [Store.length_flatMap_encode _ _ (fun n => n)] at hLength
  have hFits := hReached.fits_of_finish hFinish it (Array.mem_toList_iff.mpr hMem)
  rw [← hLength] at hBlock hFits
  rw [Item.readings, ← hLength, Nat.mul_div_cancel_left _ it.payload.unit.bytes_pos]
  apply List.ext_getElem?
  intro k
  rw [List.getElem?_map, List.getElem?_map]
  cases hNumber : ns[k]? with
  | none =>
    have hPast := List.getElem?_eq_none_iff.mp hNumber
    rw [List.getElem?_eq_none (by simpa using hPast)]
    rfl
  | some n =>
    obtain ⟨hIndex, _⟩ := List.getElem?_eq_some_iff.mp hNumber
    have hSome : 0 < it.payload.unit.bytes * ns.length :=
      Nat.mul_pos it.payload.unit.bytes_pos (Nat.zero_lt_of_lt hIndex)
    have hRead := hBlock hSome
    rw [← hEndian] at hRead
    rw [List.getElem?_range hIndex, Option.map_some, Option.map_some,
      Width.read_of_readNumber (Image.readNumber_of_readBytes hFits hRead hNumber)]

/-! ## Two byte orders -/

/-- Programs that agree in everything but the order of bytes. -/
structure Program.SameLayout (p q : Program) : Prop where
  labels : p.labels = q.labels
  items : p.items = q.items
  warnings : p.warnings = q.warnings
  capacity : p.memory.capacity = q.memory.capacity
  entry : p.memory.entry = q.memory.entry
  data : p.memory.data = q.memory.data
  text : p.memory.text = q.memory.text
  segments : p.memory.layout = q.memory.layout

theorem Program.Alike.sameLayout {e e' : Endian} {p q : Program} (hAlike : p.Alike Eq e e' q) :
    p.SameLayout q := by
  have hData := hAlike.memory.data
  have hText := hAlike.memory.text
  refine ⟨?_, ?_, hAlike.warnings, hAlike.memory.size, hAlike.memory.entry, hData, hText, ?_⟩
  · have hLabels : p.labels.labels = q.labels.labels := by
      rw [← List.forall₂_eq_eq_eq]
      refine hAlike.labels.imp ?_
      rintro ⟨name, pos, address⟩ ⟨name', pos', address'⟩ ⟨rfl, rfl, rfl⟩
      rfl
    exact congrArg LabelTable.mk hLabels
  · apply Array.toList_inj.mp
    rw [← List.forall₂_eq_eq_eq]
    refine hAlike.items.imp ?_
    rintro ⟨address, pos, payload⟩ ⟨address', pos', payload'⟩ ⟨rfl, rfl, rfl⟩
    rfl
  · rw [Image.layout, Image.layout, hData, hText]

theorem exists_reached_of_assemble {options : Options} {sources : List (String × String)}
    {program : Program} (hAssemble : assemble options sources = .ok program) :
    ∃ r log, Run.Reached options r log ∧ r.finish = .ok program := by
  obtain ⟨r, hTexts, hFinish⟩ := Outcome.bind_eq_ok.mp hAssemble
  obtain ⟨log, hReached⟩ := (Run.reached_start options).addTexts sources hTexts
  exact ⟨r, log, hReached, hFinish⟩

theorem assemble_alike (options : Options) (e e' : Endian) (sources : List (String × String)) :
    Agree (Error.Alike Eq) (Program.Alike Eq e e') (assemble { options with endian := e } sources)
      (assemble { options with endian := e' } sources) :=
  (Run.Alike.addTexts sources (fun _ _ _ => rfl) (Run.start_alike options e e')).bind
    fun _ _ hRun => hRun.finish

/-- **Byte order is order only.** Assembling for two byte orders fails with the same error, or gives
the same layout; without overlaps every unit of every item is read as the same number. -/
theorem assemble_byte_orders (options : Options) (e e' : Endian)
    (sources : List (String × String)) :
    (∃ error, assemble { options with endian := e } sources = .error error ∧
      assemble { options with endian := e' } sources = .error error) ∨
    ∃ p q, assemble { options with endian := e } sources = .ok p ∧
      assemble { options with endian := e' } sources = .ok q ∧ p.SameLayout q ∧
      (p.warnings = [] → ∀ it ∈ p.items, ∃ values : List Int,
        it.readings p.memory = values.map some ∧ it.readings q.memory = values.map some) := by
  have hAgree := assemble_alike options e e' sources
  cases hLeft : assemble { options with endian := e } sources with
  | error error =>
    obtain ⟨_, hRight, hError⟩ := hAgree.exists_of_error hLeft
    exact Or.inl ⟨error, rfl, hError.eq ▸ hRight⟩
  | ok p =>
    obtain ⟨q, hRight, hAlike⟩ := hAgree.exists_of_ok hLeft
    have hLayout := hAlike.sameLayout
    refine Or.inr ⟨p, q, rfl, hRight, hLayout, fun hWarnings it hMem => ?_⟩
    obtain ⟨r, log, hReached, hFinish⟩ := exists_reached_of_assemble hLeft
    obtain ⟨r', log', hReached', hFinish'⟩ := exists_reached_of_assemble hRight
    obtain ⟨ns, hNumbers, hReadings⟩ := hReached.readings hFinish hWarnings hMem
    obtain ⟨ns', hNumbers', hReadings'⟩ := hReached'.readings hFinish'
      (hLayout.warnings ▸ hWarnings) (hLayout.items ▸ hMem)
    rw [← hLayout.labels, hNumbers] at hNumbers'
    cases hNumbers'
    exact ⟨_, hReadings.trans (List.map_map).symm, hReadings'.trans (List.map_map).symm⟩

/-- Code, a negative half-word, a byte and a text, in both orders. -/
def mixedSources : List (String × String) :=
  [("a", "main: j main\n.data\n.half -2\n.byte 7\n.ascii \"hi\"\n")]

def mixedOptions : Options :=
  ⟨.little, 4, 0, 4, true⟩

def mixedRun (endian : Endian) : Run :=
  (Run.start { mixedOptions with endian }).addAll
    (mixedSources.map fun named => (named.1, some named.2))

def mixedBytes : Endian → Array UInt8
  | .little => #[0, 0, 0, 8, 254, 255, 7, 104, 105, 0, 0, 0, 0, 0, 0, 0]
  | .big => #[8, 0, 0, 0, 255, 254, 7, 104, 105, 0, 0, 0, 0, 0, 0, 0]

def mixedMemory (endian : Endian) : Image :=
  ⟨mixedBytes endian, endian, 0, ⟨[], some ⟨.ofBounds 4 9, 2⟩⟩, ⟨[], some ⟨.ofBounds 0 4, 1⟩⟩, 2⟩

theorem assemble_mixed (endian : Endian) : ∃ p,
    assemble { mixedOptions with endian } mixedSources = .ok p ∧ p.warnings = [] ∧
      p.items.size = 4 ∧ p.memory = mixedMemory endian := by
  have hTexts : (Run.start { mixedOptions with endian }).addTexts mixedSources =
      .ok (mixedRun endian) := by
    cases endian <;> decide +kernel
  have hStore : Store.items (mixedRun endian).assembly.labels (mixedRun endian).items.toList
      (mixedRun endian).assembly.memory = .ok () (mixedMemory endian) := by
    cases endian <;> decide +kernel
  have hOptions : (mixedRun endian).options = { mixedOptions with endian } :=
    Run.options_addAll _ _
  have hCheck : Run.checkLayout { mixedOptions with endian } (mixedMemory endian) = .ok [] :=
    Run.checkLayout_of_singletons rfl rfl rfl
  have hEntry : (mixedRun endian).assembly.labels.address? entryLabel = some 0 := by
    cases endian <;> decide +kernel
  have hFinish := Run.finish_eq_ok hStore hEntry (hOptions ▸ hCheck)
  have hItems : (mixedRun endian).items.size = 4 := by
    cases endian <;> decide +kernel
  exact ⟨_, Outcome.bind_eq_ok.mpr ⟨mixedRun endian, hTexts, hFinish⟩, rfl, hItems, rfl⟩

theorem assemble_byte_orders_mixed : ∃ p q, assemble mixedOptions mixedSources = .ok p ∧
    assemble { mixedOptions with endian := .big } mixedSources = .ok q ∧ p.warnings = [] ∧
    p.items.size = 4 ∧ p.memory = mixedMemory .little ∧ q.memory = mixedMemory .big ∧
    ∀ it ∈ p.items, ∃ values : List Int,
      it.readings p.memory = values.map some ∧ it.readings q.memory = values.map some := by
  obtain ⟨p, hLeft, hWarnings, hItems, hMemory⟩ := assemble_mixed .little
  obtain ⟨q, hRight, _, _, hMemory'⟩ := assemble_mixed .big
  rcases assemble_byte_orders mixedOptions .little .big mixedSources with
    ⟨error, hFail, _⟩ | ⟨p', q', hLeft', hRight', _, hReadings⟩
  · cases hFail.symm.trans hLeft
  · cases hLeft'.symm.trans hLeft
    cases hRight'.symm.trans hRight
    exact ⟨p, q, hLeft, hRight, hWarnings, hItems, hMemory, hMemory', hReadings hWarnings⟩

end MipsAsm
