import MipsAsm.Proofs.Assembly.Provenance
import MipsAsm.Proofs.Program.Alike
import MipsAsm.Proofs.Program.Run
import MipsAsm.Proofs.Text.Lines

/-! # Positions and the sources of a run

The lines that a run records are cut from a text in one way and the lines that it scans in another,
and sources may fail while labels of theirs go on waiting. Still every position that a run reports
lies in a recorded line, and that line is the one that was scanned under the position's source and
number.
-/

namespace MipsAsm

open Assemble (streamOptions)

/-! ## Added sources -/

/-- A call adds a source unless its name is taken or its bytes are no text. -/
def enlist (added : List (String × String)) : String × Option String → List (String × String)
  | (name, some text) => if added.any fun s => s.1 == name then added else added ++ [(name, text)]
  | (_, none) => added

/-- The sources that calls add to a new run, in their order. -/
def enlisted (calls : List (String × Option String)) : List (String × String) :=
  calls.foldl enlist []

/-- A source with its lines as they are shown. -/
def recorded (source : String × String) : String × List String :=
  (source.1, Text.shownLines source.2)

theorem contains_map_recorded (added : List (String × String)) (name : String) :
    SourceTable.contains (added.map recorded) name = added.any fun s => s.1 == name := by
  rw [SourceTable.contains, List.any_map]
  rfl

/-! ## Positions of scanned lines -/

/-- The position marks a line of an added source. -/
def Traced (added : List (String × String)) (p : Position) : Prop :=
  ∃ source cs, added[p.source]? = some source ∧
    (Token.linesOfText source.2)[p.line]? = some (.text cs) ∧
    Token.Marks streamOptions p.source p.line cs p

theorem Traced.mono {added more : List (String × String)} {p : Position} (hTraced : Traced added p)
    (hPrefix : added <+: more) : Traced more p := by
  obtain ⟨source, cs, hSource, hLine⟩ := hTraced
  obtain ⟨tail, rfl⟩ := hPrefix
  obtain ⟨hIndex, _⟩ := List.getElem?_eq_some_iff.mp hSource
  exact ⟨source, cs, (List.getElem?_append_left hIndex).trans hSource, hLine⟩

theorem traced_of_marks {added : List (String × String)} {name text : String} {k : Nat}
    {cs : List Char} {p : Position} (hLine : (Token.linesOfText text)[k]? = some (.text cs))
    (hMarks : Token.Marks streamOptions added.length k cs p) :
    Traced (added ++ [(name, text)]) p := by
  obtain ⟨hSource, hIndex, _⟩ := hMarks.bounds
  refine ⟨(name, text), cs, ?_, hIndex ▸ hLine, ?_⟩
  · rw [hSource]
    exact List.getElem?_concat_length
  · rw [hSource, hIndex]
    exact hMarks

/-- The position lies in a recorded line, and what is left of the line without carriage returns at
its end was scanned there and marked with the position. -/
inductive Cited (added : List (String × String)) (sources : SourceTable) (p : Position) :
    Prop where
  | mk (name text line : String) (lines : List String)
      (hAdded : added[p.source]? = some (name, text))
      (hSource : sources[p.source]? = some (name, lines)) (hLine : lines[p.line]? = some line)
      (hCol : p.col ≤ line.length)
      (hScanned : (Token.linesOfText text)[p.line]? =
        some (.text (Text.dropTrailing (· == '\r') line.toList)))
      (hMarks : Token.Marks streamOptions p.source p.line
        (Text.dropTrailing (· == '\r') line.toList) p)

theorem Traced.cited {added : List (String × String)} {p : Position} (hTraced : Traced added p) :
    Cited added (added.map recorded) p := by
  obtain ⟨⟨name, text⟩, cs, hSource, hRaw, hMarks⟩ := hTraced
  rw [Token.linesOfText, List.getElem?_map] at hRaw
  obtain ⟨line, hLine, hText⟩ := Option.map_eq_some_iff.mp hRaw
  have hScanned : Text.dropTrailing (· == '\r') (String.ofList line.shown).toList = cs := by
    rw [String.toList_ofList, Text.dropTrailing_shown]
    exact Token.RawLine.text.inj hText
  have hLength : cs.length ≤ (String.ofList line.shown).length := by
    rw [← hScanned, ← String.length_toList]
    exact (Text.prefix_dropTrailing _ _).length_le
  refine ⟨name, text, String.ofList line.shown, Text.shownLines text, hSource, ?_, ?_,
    Nat.le_trans hMarks.bounds.2.2 hLength, ?_, ?_⟩
  · rw [List.getElem?_map, hSource]
    rfl
  · rw [Text.shownLines, List.getElem?_map, hLine]
    rfl
  · rw [hScanned, Token.linesOfText, List.getElem?_map, hLine, Option.map_some, hText]
  · rw [hScanned]
    exact hMarks

/-! ## Runs -/

namespace Run

variable {r : Run} {added : List (String × String)}

/-- The run has recorded the added sources, and its positions mark lines of theirs. -/
structure Sourced (added : List (String × String)) (r : Run) : Prop where
  sources : r.sources = added.map recorded
  assembly : r.assembly.Within (Traced added)
  items : ∀ item ∈ r.items.toList, Traced added item.pos

theorem sourced_start (options : Options) : Sourced [] (start options) := by
  refine ⟨rfl, ⟨?_, ?_, ?_⟩, ?_⟩ <;> intro x hMem <;> cases hMem

namespace Sourced

theorem length_eq (hSourced : Sourced added r) : r.sources.length = added.length := by
  rw [hSourced.sources, List.length_map]

theorem contains_eq (hSourced : Sourced added r) (name : String) :
    r.sources.contains name = added.any fun s => s.1 == name := by
  rw [hSourced.sources, contains_map_recorded]

theorem insert_eq (hSourced : Sourced added r) {name : String} (text : String)
    (hNew : ¬(added.any fun s => s.1 == name) = true) :
    r.sources.insert name (Text.shownLines text) = (added ++ [(name, text)]).map recorded := by
  rw [SourceTable.insert, hSourced.contains_eq, if_neg hNew, hSourced.sources, List.map_append]
  rfl

theorem parseSource (hSourced : Sourced added r) {name : String} (text : String)
    (hNew : ¬(added.any fun s => s.1 == name) = true) :
    Sourced (added ++ [(name, text)]) (r.parseSource name text).2 ∧
      ∀ e p, (r.parseSource name text).1 = .error e → e.pos? = some p →
        Traced (added ++ [(name, text)]) p := by
  have hGrown : ∀ p, Traced added p → Traced (added ++ [(name, text)]) p :=
    fun p hTraced => hTraced.mono (List.prefix_append _ _)
  have hMarked : ∀ k cs p, (Token.linesOfText text)[k]? = some (.text cs) →
      Token.Marks streamOptions r.sources.length (0 + k) cs p →
        Traced (added ++ [(name, text)]) p := by
    intro k cs p hLine hMarks
    rw [hSourced.length_eq, Nat.zero_add] at hMarks
    exact traced_of_marks hLine hMarks
  obtain ⟨hError, hItems, hState⟩ := Assembly.Content.parse
    (hSourced.assembly.mono (fun _ => hGrown _) (fun _ => hGrown _) fun _ => hGrown _) hMarked
  have hSources := hSourced.insert_eq text hNew
  have hOld : ∀ item ∈ r.items.toList, Traced (added ++ [(name, text)]) item.pos :=
    fun item hMem => hGrown _ (hSourced.items item hMem)
  rw [Run.parseSource]
  cases hParse : r.assembly.parse r.sources.length (Token.linesOfText text) with
  | mk outcome assembly =>
    rw [hParse] at hError hItems hState
    cases outcome with
    | ok items =>
      refine ⟨⟨hSources, hState, ?_⟩, fun e p hFail => by cases hFail⟩
      rw [Array.toList_append, List.forall_mem_append]
      exact ⟨hOld, hItems items rfl⟩
    | error e =>
      refine ⟨⟨hSources, hState, hOld⟩, ?_⟩
      rintro _ p ⟨⟩ hPos
      exact hError e p rfl hPos

/-- A call keeps positions traced, and so is the position of its error. -/
theorem addSource (hSourced : Sourced added r) (name : String) (text : Option String) :
    Sourced (enlist added (name, text)) (r.addSource name text).2 ∧
      ∀ e p, (r.addSource name text).1 = .error e → e.pos? = some p →
        Traced (enlist added (name, text)) p := by
  have hStays : ∀ e, Error.pos? e = none → Sourced added r ∧
      ∀ e' p, (Except.error e : Except Error Unit) = .error e' → e'.pos? = some p →
        Traced added p := by
    intro e hNone
    refine ⟨hSourced, ?_⟩
    rintro _ p ⟨⟩ hPos
    cases hNone.symm.trans hPos
  cases text with
  | none =>
    rw [Run.addSource]
    split
    · exact hStays _ rfl
    · exact hStays _ rfl
  | some text =>
    rw [Run.addSource, hSourced.contains_eq, enlist]
    split
    · exact hStays _ rfl
    · rename_i hNew
      exact hSourced.parseSource text hNew

theorem addAll (calls : List (String × Option String)) :
    ∀ {r : Run} {added : List (String × String)}, Sourced added r →
      Sourced (calls.foldl enlist added) (r.addAll calls) := by
  induction calls with
  | nil =>
    intro r added hSourced
    exact hSourced
  | cons call calls ih =>
    intro r added hSourced
    exact ih (hSourced.addSource call.1 call.2).1

theorem finish (hSourced : Sourced added r) {e : Error} {p : Position}
    (hFinish : r.finish = .error e) (hPos : e.pos? = some p) : Traced added p := by
  have hAlike : Run.Alike (Confined (Traced added)) r.assembly.memory.endian
      r.assembly.memory.endian r r :=
    ⟨rfl, hSourced.assembly.alike, items_alike_self hSourced.items, rfl⟩
  obtain ⟨_, _, hError⟩ := hAlike.finish.exists_of_error hFinish
  exact hError.confined hPos

end Sourced

theorem sourced_addAll (options : Options) (calls : List (String × Option String)) :
    Sourced (enlisted calls) ((start options).addAll calls) :=
  Sourced.addAll calls (sourced_start options)

theorem sources_of_finish {r : Run} {program : Program} (hFinish : r.finish = .ok program) :
    program.sources = r.sources := by
  rw [Run.finish] at hFinish
  split at hFinish
  · cases hFinish
  · split at hFinish
    · cases hFinish
    · obtain ⟨warnings, _, hProgram⟩ := Outcome.bind_eq_ok.mp hFinish
      cases Outcome.pure_eq_ok.mp hProgram
      rfl

end Run

/-- **Reported positions exist.** After any calls, the errors of a further call and of finishing,
and all items and labels, have positions in the lines that the run has recorded by then. -/
theorem positions_cited (options : Options) (calls : List (String × Option String)) :
    let r := (Run.start options).addAll calls
    r.sources = (enlisted calls).map recorded ∧
      (∀ name text e p, (r.addSource name text).1 = .error e → e.pos? = some p →
        Cited (enlisted (calls ++ [(name, text)])) (r.addSource name text).2.sources p) ∧
      (∀ e p, r.finish = .error e → e.pos? = some p → Cited (enlisted calls) r.sources p) ∧
      (∀ item ∈ r.items.toList, Cited (enlisted calls) r.sources item.pos) ∧
      (∀ label ∈ r.assembly.labels.labels, Cited (enlisted calls) r.sources label.pos) ∧
      (∀ program, r.finish = .ok program → program.sources = r.sources ∧
        program.items = r.items ∧ program.labels = r.assembly.labels) := by
  intro r
  have hSourced := Run.sourced_addAll options calls
  have hCited : ∀ p, Traced (enlisted calls) p → Cited (enlisted calls) r.sources p := by
    intro p hTraced
    rw [hSourced.sources]
    exact hTraced.cited
  refine ⟨hSourced.sources, ?_, ?_, ?_, ?_, ?_⟩
  · intro name text e p hError hPos
    obtain ⟨hNext, hTraced⟩ := hSourced.addSource name text
    rw [hNext.sources, enlisted, List.foldl_append]
    exact (hTraced e p hError hPos).cited
  · intro e p hError hPos
    exact hCited p (hSourced.finish hError hPos)
  · intro item hMem
    exact hCited _ (hSourced.items item hMem)
  · intro label hMem
    exact hCited _ (hSourced.assembly.labels label hMem)
  · intro program hFinish
    obtain ⟨_, _, _, hLabels, hItems, _⟩ := Run.finish_ok hFinish
    exact ⟨Run.sources_of_finish hFinish, hItems, hLabels⟩

/-- The label of a source that fails is still waiting when the next source is added, and is refused
there because an earlier source has defined it. -/
theorem positions_cited_waiting :
    let r := (Run.start .default).addAll
      [("a", some "x: nop\n"), ("b", none), ("c", some "x:\r\r\n?")]
    (r.addSource "d" (some "nop")).1 =
        .error ((Cause.redefinedLabel "x").located ⟨1, 0, 0⟩) ∧
      Cited [("a", "x: nop\n"), ("c", "x:\r\r\n?"), ("d", "nop")]
        [("a", ["x: nop"]), ("c", ["x:\r", "?"]), ("d", ["nop"])] ⟨1, 0, 0⟩ := by
  intro r
  have hError : (r.addSource "d" (some "nop")).1 =
      .error ((Cause.redefinedLabel "x").located ⟨1, 0, 0⟩) := by
    decide +kernel
  have hSources : (r.addSource "d" (some "nop")).2.sources =
      [("a", ["x: nop"]), ("c", ["x:\r", "?"]), ("d", ["nop"])] := by
    decide +kernel
  have hCited := (positions_cited .default _).2.1 "d" (some "nop") _ _ hError rfl
  rw [hSources] at hCited
  exact ⟨hError, hCited⟩

end MipsAsm
