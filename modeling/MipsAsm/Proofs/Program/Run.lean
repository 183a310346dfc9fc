import MipsAsm.Program
import MipsAsm.Proofs.Assembly.Invariant

/-! # Runs over many sources

Sources are added one after the other and any of them may fail. The layout stays sound, the buffer
stays as it was made, and the items of the run are staged items in their order. Bytes are written
only when the run is finished.
-/

namespace MipsAsm

open Memory (Image)

/-- Lines change the memory only by opening and extending segments. -/
theorem Lasting.of_memory {Q : Image → Prop}
    (hOpen : ∀ {m}, Q m → ∀ s address, Q (Assembly.openSegment s m address))
    (hExtend : ∀ {m}, Q m → ∀ s stop, Q (Assembly.extendSegment s m stop)) :
    Lasting fun a _ => Q a.memory := by
  constructor
  · intro a log h labels pending
    exact h
  · intro a b log h hEffect
    cases hEffect with
    | idle => exact h
    | moved pc hPc =>
      rw [Assembly.movedTo, Assembly.memory_withCursor]
      exact h
    | switched target address =>
      cases address with
      | none => exact h
      | some v =>
        rw [Assembly.switch, Assembly.memory_withCursor]
        exact hOpen h target v
    | staged item stop hStart hStop hPlaced =>
      rw [Assembly.place_movedTo, Assembly.memory_withCursor]
      refine hExtend ?_ a.active stop
      rw [Assembly.readied]
      split
      · exact h
      · exact hOpen h _ _

/-! ## The buffer before the end of a run -/

theorem Memory.Image.clearFrom_replicate (capacity start : Nat) :
    clearFrom (Array.replicate capacity 0) start = Array.replicate capacity 0 := by
  rw [clearFrom, Array.extract_replicate, Array.size_replicate, Array.replicate_append_replicate]
  congr 1
  omega

/-- The buffer holds zeros only and has its first size; the byte order is the first one. -/
def Blank (capacity : Nat) (endian : Memory.Endian) (m : Image) : Prop :=
  m.bytes = Array.replicate capacity 0 ∧ m.endian = endian

namespace Blank

variable {capacity : Nat} {endian : Memory.Endian} {m : Image}

theorem openSegment (hBlank : Blank capacity endian m) (s : Section) (address : Int) :
    Blank capacity endian (Assembly.openSegment s m address) := by
  obtain ⟨hBytes, hEndian⟩ := hBlank
  cases s with
  | text =>
    refine ⟨?_, hEndian⟩
    change Image.clearFrom m.bytes _ = _
    rw [hBytes, Image.clearFrom_replicate]
  | data => exact ⟨hBytes, hEndian⟩

theorem extendSegment (hBlank : Blank capacity endian m) (s : Section) (stop : UInt32) :
    Blank capacity endian (Assembly.extendSegment s m stop) := by
  cases s <;> exact hBlank

theorem lasting : Lasting fun a _ => Blank capacity endian a.memory :=
  .of_memory (fun hBlank => hBlank.openSegment) (fun hBlank => hBlank.extendSegment)

theorem parse {a : Assembly} (hBlank : Blank capacity endian a.memory) (source : Nat)
    (ls : List Token.RawLine) : Blank capacity endian (a.parse source ls).2.memory :=
  @Lasting.parse _ lasting (fun h => h) a [] hBlank source ls

theorem byteAt {m : Image} (hBlank : Blank capacity endian m) (index : Nat) :
    m.byteAt index = 0 := by
  rw [Image.byteAt, hBlank.1, Array.getElem?_replicate]
  split <;> rfl

end Blank

/-! ## Adding sources -/

namespace Run

/-- The run after sources were added under names, each of which may have failed; `none` stands for
bytes that are no text. -/
def addAll (r : Run) : List (String × Option String) → Run
  | [] => r
  | (name, text) :: rest => (r.addSource name text).2.addAll rest

/-- A call parses a source under a new name, or leaves the run as it was. -/
theorem addSource_induction {I : Run → Prop} {r : Run}
    (hParse : ∀ name text, r.sources.contains name = false → I (r.parseSource name text).2)
    (hRun : I r) (name : String) (text : Option String) : I (r.addSource name text).2 := by
  cases text with
  | none =>
    rw [addSource]
    split <;> exact hRun
  | some text =>
    rw [addSource]
    split
    · exact hRun
    · rename_i hNew
      exact hParse name text (Bool.eq_false_iff.mpr hNew)

/-- Induction over the sources that calls add; all other calls leave the run as it was. -/
theorem addAll_induction {I : Run → Prop}
    (hParse : ∀ r name text, r.sources.contains name = false → I r → I (r.parseSource name text).2)
    (calls : List (String × Option String)) : ∀ {r : Run}, I r → I (r.addAll calls) := by
  induction calls with
  | nil =>
    intro r hRun
    exact hRun
  | cons call calls ih =>
    intro r hRun
    apply ih
    exact addSource_induction (fun name text hNew => hParse r name text hNew hRun) hRun call.1 call.2

/-- What holds of a run that has not been finished, with every item ever staged. -/
structure Reached (options : Options) (r : Run) (log : List (Section × Item)) : Prop where
  options_eq : r.options = options
  sound : Sound r.assembly log
  blank : Blank options.capacity options.endian r.assembly.memory
  items : r.items.toList.Sublist (log.map Prod.snd)

theorem reached_start (options : Options) : Reached options (start options) [] :=
  ⟨rfl, Sound.ofBases _ _ _ _, ⟨rfl, rfl⟩, List.Sublist.refl _⟩

theorem Reached.parseSource {options : Options} {r : Run} {log : List (Section × Item)}
    (hReached : Reached options r log) (name text : String) :
    ∃ log', Reached options (r.parseSource name text).2 log' := by
  have hSound := Sound.lasting.parse Sound.clear hReached.sound r.sources.length
    (Token.linesOfText text)
  have hBlank := hReached.blank.parse r.sources.length (Token.linesOfText text)
  refine ⟨log ++ r.assembly.log r.sources.length (Token.linesOfText text), ?_⟩
  rw [Run.parseSource]
  split
  · rename_i items assembly hParse
    rw [hParse] at hSound hBlank
    refine ⟨hReached.options_eq, hSound, hBlank, ?_⟩
    rw [Array.toList_append, List.map_append, Assembly.map_snd_log_of_ok hParse]
    exact hReached.items.append (List.Sublist.refl _)
  · rename_i e assembly hParse
    rw [hParse] at hSound hBlank
    refine ⟨hReached.options_eq, hSound, hBlank, ?_⟩
    rw [List.map_append]
    exact hReached.items.trans (List.sublist_append_left _ _)

theorem Reached.addSource {options : Options} {r : Run} {log : List (Section × Item)}
    (hReached : Reached options r log) (name : String) (text : Option String) :
    ∃ log', Reached options (r.addSource name text).2 log' :=
  addSource_induction (I := fun r => ∃ log, Reached options r log)
    (fun name text _ => hReached.parseSource name text) ⟨log, hReached⟩ name text

theorem exists_reached (options : Options) (calls : List (String × Option String)) :
    ∃ log, Reached options ((start options).addAll calls) log :=
  addAll_induction (I := fun r => ∃ log, Reached options r log)
    (fun _ name text _ ⟨_, hReached⟩ => hReached.parseSource name text) calls
    ⟨[], reached_start options⟩

theorem options_addAll (options : Options) (calls : List (String × Option String)) :
    ((start options).addAll calls).options = options := by
  obtain ⟨_, hReached⟩ := exists_reached options calls
  exact hReached.options_eq

theorem Reached.addTexts {options : Options} (texts : List (String × String)) :
    ∀ {r s : Run} {log : List (Section × Item)}, Reached options r log → r.addTexts texts = .ok s →
      ∃ log', Reached options s log' := by
  induction texts with
  | nil =>
    intro r s log hReached hTexts
    cases hTexts
    exact ⟨log, hReached⟩
  | cons named texts ih =>
    intro r s log hReached hTexts
    obtain ⟨name, text⟩ := named
    obtain ⟨log', hNext⟩ := hReached.addSource name (some text)
    rw [Run.addTexts] at hTexts
    split at hTexts
    · rename_i next hSource
      rw [hSource] at hNext
      exact ih hNext hTexts
    · cases hTexts

theorem Reached.fits {options : Options} {r : Run} {log : List (Section × Item)}
    (hReached : Reached options r log) :
    ∀ it ∈ r.items.toList, it.address.toNat + it.size < 0x100000000 := by
  intro it hMem
  obtain ⟨p, hLog, rfl⟩ := List.mem_map.mp (hReached.items.subset hMem)
  exact (hReached.sound.placed p hLog).fits

/-! ## Finishing -/

theorem finish_ok {r : Run} {program : Program} (hFinish : r.finish = .ok program) :
    ∃ memory, Store.items r.assembly.labels r.items.toList r.assembly.memory = .ok () memory ∧
      program.memory = { memory with entry := program.memory.entry } ∧
      program.labels = r.assembly.labels ∧ program.items = r.items ∧
      program.labels.address? entryLabel = some program.memory.entry ∧
      checkLayout r.options program.memory = .ok program.warnings := by
  rw [finish] at hFinish
  split at hFinish
  · cases hFinish
  · rename_i memory hStore
    split at hFinish
    · cases hFinish
    · rename_i entry hEntry
      obtain ⟨warnings, hCheck, hProgram⟩ := Outcome.bind_eq_ok.mp hFinish
      cases Outcome.pure_eq_ok.mp hProgram
      exact ⟨memory, hStore, rfl, rfl, rfl, hEntry, hCheck⟩

/-- The merge of two tracks does not evaluate, so it is rewritten where each has one segment. -/
theorem checkLayout_of_singletons {options : Options} {m : Image} {data text : Memory.Opened}
    (hData : m.data.entries = [data]) (hText : m.text.entries = [text])
    (hNone : Image.firstOverlap (if Image.precedes (.data, data) (.text, text) then
        [(.data, data.segment), (.text, text.segment)]
      else [(.text, text.segment), (.data, data.segment)]) = none) :
    checkLayout options m = .ok [] := by
  rw [checkLayout, Image.overlap?, Image.layout_of_singletons hData hText, hNone]

theorem finish_eq_ok {r : Run} {memory : Image} {entry : UInt32}
    {warnings : List Memory.Overlap}
    (hStore : Store.items r.assembly.labels r.items.toList r.assembly.memory = .ok () memory)
    (hEntry : r.assembly.labels.address? entryLabel = some entry)
    (hCheck : checkLayout r.options { memory with entry } = .ok warnings) :
    r.finish =
      .ok ⟨{ memory with entry }, r.assembly.labels, r.sources, r.items, warnings⟩ := by
  simp only [finish, hStore, hEntry, hCheck]
  rfl

end Run

end MipsAsm
