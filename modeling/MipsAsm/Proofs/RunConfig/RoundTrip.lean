import MipsAsm.Proofs.RunConfig.Reading
import Mathlib.Data.List.Perm.Subperm

/-! # Configurations written and read back

A configuration that is written and read comes back unchanged just when each of its texts fits a
line. Reading never gives a configuration of another kind, so that what was accepted once can be
written and accepted again.
-/

namespace MipsAsm.RunConfig

open Memory (Segment Endian)
open Outcome (bind_eq_ok pure_eq_ok mapError_eq_ok)
open Text (FitsLine Trimmed isBlank natural?)

/-- Each text of the configuration fits a line. -/
structure Storable (c : RunConfig) : Prop where
  binary : FitsLine c.binary
  isa : FitsLine c.isa
  output : FitsLine c.settings.output
  log : FitsLine c.settings.log

/-- The segments of either kind have indices of 64 bits, as those of any list held in memory. -/
structure Numbered (c : RunConfig) : Prop where
  text : c.text.length ≤ indexLimit
  data : c.data.length ≤ indexLimit

/-! ## Lines of assignments -/

def IsKey (key : String) : Prop :=
  ∀ c ∈ key.toList, isBlank c = false ∧ c ≠ '=' ∧ c ≠ '#'

instance decidableIsKey (key : String) : Decidable (IsKey key) :=
  List.decidableBAll (fun c => isBlank c = false ∧ c ≠ '=' ∧ c ≠ '#') key.toList

def assignmentLine (pair : String × String) : List Char :=
  pair.1.toList ++ '=' :: pair.2.toList

def headerLine (isa : String) : List Char :=
  ("# run configuration for the " ++ isa ++ " pipeline").toList

namespace Draft

/-- A carriage return in front of the newline makes no difference. -/
theorem readLine_shown (d : Draft) (line : Text.Line Char) :
    d.readLine line.shown = d.readLine line.content := by
  rw [readLine, readLine, Text.trim_shown]

theorem readLine_header (d : Draft) (isa : String) : d.readLine (headerLine isa) = .ok d := by
  have hTrimmed : Trimmed (headerLine isa) := by
    have hSplit : headerLine isa =
        ("# run configuration for the " ++ isa ++ " ").toList ++ 'p' :: "ipeline".toList := by
      simp [headerLine]
    rw [hSplit]
    have hRest : Trimmed "ipeline".toList := by
      decide
    refine Text.trimmed_append_cons ?_ (by decide) hRest.2
    intro c hHead
    simp only [String.toList_append, List.append_assoc] at hHead
    cases hHead
    decide
  rw [readLine, Text.trim_of_trimmed hTrimmed, headerLine, String.append_assoc,
    String.toList_append]
  rfl

theorem readLine_assignmentLine (d : Draft) {key value : String} (hKey : IsKey key)
    (hValue : FitsLine value) :
    d.readLine (assignmentLine (key, value)) = d.assign key value := by
  have hKeyTrimmed : Trimmed key.toList := Text.trimmed_of_forall fun c hMem => (hKey c hMem).1
  have hTrimmed : Trimmed (assignmentLine (key, value)) :=
    Text.trimmed_append_cons hKeyTrimmed.1 (by decide) hValue.2.2
  have hFirst : (assignmentLine (key, value)).head? ≠ some '#' := by
    rw [assignmentLine, List.head?_append]
    cases hHead : key.toList.head? with
    | none => simp
    | some c =>
      have hNot := (hKey c (List.mem_of_mem_head? hHead)).2.2
      simpa using hNot
  have hSplit : splitOnce '=' (assignmentLine (key, value)) = some (key.toList, value.toList) :=
    splitOnce_append (fun hMem => (hKey '=' hMem).2.1 rfl) _
  rw [readLine, Text.trim_of_trimmed hTrimmed]
  have hSome : (assignmentLine (key, value)).isEmpty = false := by simp [assignmentLine]
  rw [hSome, Bool.false_or, if_neg (by simpa using hFirst), hSplit]
  simp only [Text.trim_of_trimmed hKeyTrimmed, Text.trim_of_trimmed hValue.2, String.ofList_toList]

theorem readLines_cons {d e : Draft} {content : List Char} (hLine : d.readLine content = .ok e)
    (number : Nat) (rest : List (Text.Line Char)) :
    d.readLines number (⟨content, true⟩ :: rest) = e.readLines (number + 1) rest := by
  rw [readLines, readLine_shown, hLine]
  rfl

theorem readLines_of_assignAll {pairs : List (String × String)}
    (hPairs : ∀ pair ∈ pairs, IsKey pair.1 ∧ FitsLine pair.2) :
    ∀ {d e : Draft} (number : Nat), d.assignAll pairs = .ok e →
      d.readLines number (pairs.map fun pair => ⟨assignmentLine pair, true⟩) = .ok e := by
  induction pairs with
  | nil =>
    intro d e number hAssign
    cases pure_eq_ok.mp hAssign
    rfl
  | cons pair pairs ih =>
    intro d e number hAssign
    rw [assignAll, List.foldlM_cons] at hAssign
    obtain ⟨next, hFirst, hRest⟩ := bind_eq_ok.mp hAssign
    obtain ⟨hKey, hValue⟩ := hPairs pair List.mem_cons_self
    rw [← readLine_assignmentLine d hKey hValue] at hFirst
    rw [List.map_cons, readLines_cons hFirst]
    exact ih (fun other hMem => hPairs other (List.mem_cons_of_mem _ hMem)) _ hRest

end Draft

/-! ## What is written fits lines -/

theorem fitsLine_of_natural? {base n : Nat} {digits : String}
    (hDigits : natural? base digits.toList = some n) : FitsLine digits := by
  apply Text.fitsLine_of_forall
  intro c hMem
  obtain ⟨d, hDigit⟩ := Text.exists_digit?_of_natural? hDigits c hMem
  exact Text.isBlank_of_digit? hDigit

theorem fitsLine_hex {n : Nat} {digits : String} (hDigits : natural? 16 digits.toList = some n) :
    FitsLine ("0x" ++ digits) := by
  apply Text.fitsLine_of_forall
  intro c hMem
  rw [String.toList_append, List.mem_append] at hMem
  have hMark : IsKey "0x" := by
    decide
  rcases hMem with hFront | hDigit
  · exact (hMark c hFront).1
  · obtain ⟨d, hDigit⟩ := Text.exists_digit?_of_natural? hDigits c hDigit
    exact Text.isBlank_of_digit? hDigit

theorem isKey_boundKey (s : Section) (bound : Bound) (index : Nat) :
    IsKey (boundKey s bound index) := by
  have hFront : IsKey (sectionWord s ++ ("_" ++ boundWord bound ++ "_")) := by
    cases s <;> cases bound <;> decide
  intro c hMem
  rw [boundKey, String.toList_append, List.mem_append] at hMem
  rcases hMem with hWord | hDigit
  · exact hFront c hWord
  · obtain ⟨d, hDigit⟩ :=
      Text.exists_digit?_of_natural? (Text.natural?_toString index) c hDigit
    have hRanges := Text.ranges_of_digit? hDigit
    refine ⟨Text.isBlank_of_digit? hDigit, ?_, ?_⟩ <;> rintro rfl <;> revert hRanges <;> decide

theorem writable_segmentAssignments (s : Section) (segments : List Segment) :
    ∀ pair ∈ segmentAssignments (sectionWord s) segments, IsKey pair.1 ∧ FitsLine pair.2 := by
  induction segments using List.reverseRecOn with
  | nil => simp [segmentAssignments]
  | append_singleton segments last ih =>
    rw [segmentAssignments_concat]
    simp only [List.forall_mem_append, List.forall_mem_cons]
    refine ⟨ih, ⟨isKey_boundKey _ _ _, ?_⟩, ⟨isKey_boundKey _ _ _, ?_⟩, by simp⟩
    · exact fitsLine_hex (Text.natural?_paddedHex 8 _)
    · exact fitsLine_hex (Text.natural?_paddedHex 8 _)

theorem Storable.writable {c : RunConfig} (hStorable : c.Storable) :
    ∀ pair ∈ c.assignments, IsKey pair.1 ∧ FitsLine pair.2 := by
  have hFlag : ∀ b, FitsLine (flagText b) := by decide
  have hEndian : FitsLine c.endian.name := by cases c.endian <;> decide
  have hPredictor : FitsLine c.settings.branchPredictor.name := by
    cases c.settings.branchPredictor <;> decide
  have hNumber : ∀ n : Nat, FitsLine (toString n) :=
    fun n => fitsLine_of_natural? (Text.natural?_toString n)
  simp only [assignments, List.forall_mem_append, List.forall_mem_cons]
  refine ⟨⟨⟨?_, writable_segmentAssignments .text c.text⟩,
    writable_segmentAssignments .data c.data⟩, ?_⟩
  · have hStart : FitsLine ("0x" ++ Text.upperHex c.codeStart.toNat) :=
      fitsLine_hex (Text.natural?_upperHex _)
    have hEntry : FitsLine (Text.addressText c.entryPoint) :=
      fitsLine_hex (Text.natural?_paddedHex 8 _)
    exact ⟨⟨by decide, hStorable.binary⟩, ⟨by decide, hStart⟩, ⟨by decide, hEntry⟩,
      ⟨by decide, hEndian⟩, by simp⟩
  · exact ⟨⟨by decide, hStorable.output⟩, ⟨by decide, hStorable.log⟩, ⟨by decide, hStorable.isa⟩,
      ⟨by decide, hFlag _⟩, ⟨by decide, hFlag _⟩, ⟨by decide, hFlag _⟩, ⟨by decide, hPredictor⟩,
      ⟨by decide, hNumber _⟩, ⟨by decide, hNumber _⟩, ⟨by decide, hNumber _⟩, by simp⟩

theorem toList_line (pair : String × String) :
    (pair.1 ++ "=" ++ pair.2 ++ "\n").toList = assignmentLine pair ++ ['\n'] := by
  rw [String.toList_append, String.toList_append, String.toList_append, List.append_assoc,
    List.append_assoc, assignmentLine, List.append_assoc]
  rfl

theorem toList_header (isa : String) :
    ("# run configuration for the " ++ isa ++ " pipeline\n").toList = headerLine isa ++ ['\n'] := by
  have hEnd : " pipeline\n".toList = " pipeline".toList ++ ['\n'] := rfl
  simp only [headerLine, String.toList_append, hEnd, List.append_assoc]

theorem toList_render (c : RunConfig) : c.render.toList =
    (headerLine c.isa :: c.assignments.map assignmentLine).flatMap (· ++ ['\n']) := by
  have hLines :
      (String.join (c.assignments.map fun pair => pair.1 ++ "=" ++ pair.2 ++ "\n")).toList =
        (c.assignments.map assignmentLine).flatMap (· ++ ['\n']) := by
    rw [String.toList_join, List.flatMap_map, List.flatMap_map]
    exact congrArg (c.assignments.flatMap ·) (funext toList_line)
  rw [List.flatMap_cons, ← toList_header, ← hLines, ← String.toList_append]
  rfl

theorem newline_not_mem_assignmentLine {pair : String × String} (hKey : IsKey pair.1)
    (hValue : FitsLine pair.2) : '\n' ∉ assignmentLine pair := by
  rw [assignmentLine, List.mem_append, List.mem_cons]
  rintro (hMem | hEq | hMem)
  · exact absurd (hKey _ hMem).1 (by decide)
  · exact absurd hEq (by decide)
  · exact hValue.1 hMem

theorem newline_not_mem_headerLine {isa : String} (hIsa : FitsLine isa) :
    '\n' ∉ headerLine isa := by
  rw [headerLine, String.toList_append, String.toList_append, List.mem_append, List.mem_append]
  rintro ((hMem | hMem) | hMem)
  · revert hMem
    decide
  · exact hIsa.1 hMem
  · revert hMem
    decide

theorem Storable.lines_render {c : RunConfig} (hStorable : c.Storable) :
    Text.lines c.render.toList = ⟨headerLine c.isa, true⟩ ::
      c.assignments.map fun pair => ⟨assignmentLine pair, true⟩ := by
  rw [toList_render, Text.lines_flatMap, List.map_cons, List.map_map]
  · rfl
  · rw [List.forall_mem_cons]
    refine ⟨newline_not_mem_headerLine hStorable.isa, ?_⟩
    intro line hMem
    obtain ⟨pair, hPair, rfl⟩ := List.mem_map.mp hMem
    obtain ⟨hKey, hValue⟩ := hStorable.writable pair hPair
    exact newline_not_mem_assignmentLine hKey hValue

/-! ## Reading what was written -/

/-- What the lines of a written configuration set. -/
def draft (c : RunConfig) : Draft where
  binary := some c.binary
  entryPoint := some c.entryPoint
  codeStart := c.codeStart
  endian := c.endian
  isa := c.isa
  settings := c.settings
  text := Bounds.ofSegments c.text
  data := Bounds.ofSegments c.data

theorem finish_draft (c : RunConfig) : c.draft.finish = .ok c := by
  simp only [draft, Draft.finish, Bounds.mapM_segment_ofSegments, Draft.required]
  rfl

/-- What the lines in front of the segments set. -/
def frontDraft (c : RunConfig) : Draft :=
  { c.draft with isa := Isa.isaName, settings := .default, text := [], data := [] }

theorem Numbered.assignAll {c : RunConfig} (hNumbered : c.Numbered) :
    Draft.empty.assignAll c.assignments = .ok c.draft := by
  have hText := Draft.assignAll_segmentAssignments c.frontDraft .text hNumbered.text
  have hData := Draft.assignAll_segmentAssignments
    (c.frontDraft.withBounds .text (Bounds.ofSegments c.text)) .data hNumbered.data
  refine Draft.assignAll_append (Draft.assignAll_append (Draft.assignAll_append ?_ hText) hData) ?_
  · simp only [Draft.assignAll, List.foldlM_cons, Draft.assign, address_upperHex,
      address_addressText, Endian.ofName?_name]
    rfl
  · simp only [Draft.assignAll, List.foldlM_cons, Draft.assign, flag_flagText,
      Predictor.ofName?_name, smallNumber_toString, number_toString]
    rfl

theorem parse_render {c : RunConfig} (hStorable : c.Storable) (hNumbered : c.Numbered) :
    parse c.render = .ok c := by
  have hLines : Draft.empty.readLines 1 (Text.lines c.render.toList) = .ok c.draft := by
    rw [hStorable.lines_render, Draft.readLines_cons (Draft.readLine_header _ c.isa)]
    exact Draft.readLines_of_assignAll hStorable.writable _ hNumbered.assignAll
  rw [parse, hLines]
  change c.draft.finish.mapError _ = _
  rw [finish_draft]
  rfl

/-! ## What reading can give -/

namespace Bounds

/-- Indices go up and have 64 bits. -/
def Ascending (list : List Bounds) : Prop :=
  list.Pairwise (·.index < ·.index) ∧ ∀ b ∈ list, b.index < indexLimit

theorem index_assign (b : Bounds) (bound : Bound) (a : UInt32) :
    (b.assign bound a).index = b.index := by
  cases bound <;> rfl

theorem index_of_mem_insert {index : Nat} {bound : Bound} {a : UInt32} {list : List Bounds}
    {b : Bounds} (hMem : b ∈ insert index bound a list) :
    b.index = index ∨ ∃ c ∈ list, c.index = b.index := by
  induction list with
  | nil =>
    cases List.mem_singleton.mp hMem
    exact Or.inl (index_assign _ _ _)
  | cons c list ih =>
    rw [insert] at hMem
    split at hMem
    · rcases List.mem_cons.mp hMem with rfl | hRest
      · exact Or.inr ⟨b, List.mem_cons_self, rfl⟩
      · rcases ih hRest with hNew | ⟨d, hOld, hIndex⟩
        · exact Or.inl hNew
        · exact Or.inr ⟨d, List.mem_cons_of_mem _ hOld, hIndex⟩
    · split at hMem
      · rename_i hIndex
        rcases List.mem_cons.mp hMem with rfl | hRest
        · exact Or.inl ((index_assign _ _ _).trans hIndex)
        · exact Or.inr ⟨b, List.mem_cons_of_mem _ hRest, rfl⟩
      · rcases List.mem_cons.mp hMem with rfl | hRest
        · exact Or.inl (index_assign _ _ _)
        · exact Or.inr ⟨b, hRest, rfl⟩

theorem pairwise_insert {index : Nat} {bound : Bound} {a : UInt32} {list : List Bounds}
    (hOrder : list.Pairwise (·.index < ·.index)) :
    (insert index bound a list).Pairwise (·.index < ·.index) := by
  induction list with
  | nil => exact List.pairwise_singleton _ _
  | cons c list ih =>
    obtain ⟨hFirst, hRest⟩ := List.pairwise_cons.mp hOrder
    rw [insert]
    split
    · rename_i hLower
      refine List.pairwise_cons.mpr ⟨?_, ih hRest⟩
      intro b hMem
      rcases index_of_mem_insert hMem with hNew | ⟨d, hOld, hIndex⟩
      · rw [hNew]
        exact hLower
      · rw [← hIndex]
        exact hFirst d hOld
    · split
      · refine List.pairwise_cons.mpr ⟨?_, hRest⟩
        rw [index_assign]
        exact hFirst
      · rename_i hNotLower hNotSame
        have hAbove : index < c.index := by omega
        refine List.pairwise_cons.mpr ⟨?_, hOrder⟩
        intro b hMem
        rw [index_assign]
        rcases List.mem_cons.mp hMem with rfl | hBehind
        · exact hAbove
        · exact Nat.lt_trans hAbove (hFirst b hBehind)

theorem Ascending.insert {list : List Bounds} (hAscending : Ascending list) {index : Nat}
    (hIndex : index < indexLimit) (bound : Bound) (a : UInt32) :
    Ascending (insert index bound a list) := by
  refine ⟨pairwise_insert hAscending.1, ?_⟩
  intro b hMem
  rcases index_of_mem_insert hMem with hNew | ⟨c, hOld, hSame⟩
  · rw [hNew]
    exact hIndex
  · rw [← hSame]
    exact hAscending.2 c hOld

theorem Ascending.length_le {list : List Bounds} (hAscending : Ascending list) :
    list.length ≤ indexLimit := by
  have hNodup : (list.map index).Nodup :=
    List.pairwise_map.mpr (hAscending.1.imp Nat.ne_of_lt)
  have hSubset : list.map index ⊆ List.range indexLimit := by
    intro n hMem
    obtain ⟨b, hBounds, rfl⟩ := List.mem_map.mp hMem
    exact List.mem_range.mpr (hAscending.2 b hBounds)
  have hLength := (List.subperm_of_subset hNodup hSubset).length_le
  rwa [List.length_map, List.length_range] at hLength

end Bounds

theorem index_lt_of_segmentKey? {key : String} {s : Section} {bound : Bound} {index : Nat}
    (hKey : segmentKey? key = some (s, bound, index)) : index < indexLimit := by
  simp only [segmentKey?, Option.bind_eq_bind, Option.bind_eq_some_iff] at hKey
  obtain ⟨_, _, _, _, _, _, _, _, n, hDigits, hResult⟩ := hKey
  cases hResult
  exact Text.lt_of_unsigned? hDigits

namespace Draft

theorem required_eq_ok {α : Type} {key : String} {value : Option α} {a : α} :
    required key value = .ok a ↔ value = some a := by
  cases value <;> simp [required]

structure Kept (d : Draft) : Prop where
  binary : ∀ s ∈ d.binary, FitsLine s
  isa : FitsLine d.isa
  output : FitsLine d.settings.output
  log : FitsLine d.settings.log
  text : Bounds.Ascending d.text
  data : Bounds.Ascending d.data

theorem kept_empty : empty.Kept where
  binary s hMem := by cases hMem
  isa := by decide
  output := by decide
  log := by decide
  text := ⟨List.Pairwise.nil, by simp [empty]⟩
  data := ⟨List.Pairwise.nil, by simp [empty]⟩

namespace Kept

variable {d e : Draft}

theorem assignBound (hKept : d.Kept) {key value : String}
    (hAssign : d.assignBound key value = .ok e) : e.Kept := by
  rw [Draft.assignBound] at hAssign
  split at hAssign
  · cases hAssign
  · rename_i bound index hKey
    obtain ⟨a, _, hDraft⟩ := bind_eq_ok.mp hAssign
    cases pure_eq_ok.mp hDraft
    exact { hKept with text := hKept.text.insert (index_lt_of_segmentKey? hKey) bound a }
  · rename_i bound index hKey
    obtain ⟨a, _, hDraft⟩ := bind_eq_ok.mp hAssign
    cases pure_eq_ok.mp hDraft
    exact { hKept with data := hKept.data.insert (index_lt_of_segmentKey? hKey) bound a }

/-- Of the texts an assignment sets at most one, and that to the value read. -/
theorem assign (hKept : d.Kept) {key value : String} (hValue : FitsLine value)
    (hAssign : d.assign key value = .ok e) : e.Kept := by
  unfold Draft.assign at hAssign
  split at hAssign
  case h_1 =>
    cases hAssign
    exact { hKept with binary := fun s hMem => by cases hMem; exact hValue }
  case h_4 | h_11 =>
    split at hAssign
    · cases hAssign
      exact { hKept with }
    · cases hAssign
  case h_5 =>
    cases hAssign
    exact { hKept with isa := hValue }
  case h_6 =>
    cases hAssign
    exact { hKept with output := hValue }
  case h_7 =>
    cases hAssign
    exact { hKept with log := hValue }
  case h_15 => exact hKept.assignBound hAssign
  all_goals
    obtain ⟨v, _, hDraft⟩ := bind_eq_ok.mp hAssign
    cases pure_eq_ok.mp hDraft
    exact { hKept with }

theorem readLine (hKept : d.Kept) {line : List Char} (hLine : '\n' ∉ line)
    (hRead : d.readLine line = .ok e) : e.Kept := by
  rw [Draft.readLine] at hRead
  split at hRead
  · cases hRead
    exact hKept
  · split at hRead
    · cases hRead
    · rename_i key value hSplit
      obtain ⟨c, hParts⟩ := splitOnce_eq_some hSplit
      refine hKept.assign (Text.fitsLine_trim fun hMem => hLine ?_) hRead
      apply Text.mem_of_mem_trim
      rw [hParts]
      exact List.mem_append_right _ (List.mem_cons_of_mem _ hMem)

theorem readLines {lines : List (Text.Line Char)} (hLines : ∀ line ∈ lines, '\n' ∉ line.content) :
    ∀ {d : Draft} {number : Nat}, d.Kept → d.readLines number lines = .ok e → e.Kept := by
  induction lines with
  | nil =>
    intro d number hKept hRead
    cases hRead
    exact hKept
  | cons line lines ih =>
    intro d number hKept hRead
    obtain ⟨next, hFirst, hRest⟩ := bind_eq_ok.mp hRead
    obtain ⟨hHead, hTail⟩ := List.forall_mem_cons.mp hLines
    refine ih hTail (hKept.readLine ?_ (mapError_eq_ok.mp hFirst)) hRest
    exact fun hMem => hHead ((Text.prefix_shown line).subset hMem)

theorem finish (hKept : d.Kept) {c : RunConfig} (hFinish : d.finish = .ok c) :
    c.Storable ∧ c.Numbered := by
  obtain ⟨binary, hBinary, hRest⟩ := bind_eq_ok.mp hFinish
  obtain ⟨entry, _, hRest⟩ := bind_eq_ok.mp hRest
  obtain ⟨text, hText, hRest⟩ := bind_eq_ok.mp hRest
  obtain ⟨data, hData, hRest⟩ := bind_eq_ok.mp hRest
  cases pure_eq_ok.mp hRest
  have hName := hKept.binary binary (required_eq_ok.mp hBinary)
  refine ⟨⟨hName, hKept.isa, hKept.output, hKept.log⟩, ?_, ?_⟩
  · change text.length ≤ indexLimit
    rw [Outcome.length_of_mapM_eq_ok hText]
    exact hKept.text.length_le
  · change data.length ≤ indexLimit
    rw [Outcome.length_of_mapM_eq_ok hData]
    exact hKept.data.length_le

end Kept

end Draft

theorem storable_of_parse {text : String} {c : RunConfig} (hParse : parse text = .ok c) :
    c.Storable ∧ c.Numbered := by
  obtain ⟨d, hRead, hFinish⟩ := bind_eq_ok.mp hParse
  have hLines : ∀ line ∈ Text.lines text.toList, '\n' ∉ line.content :=
    fun line hMem => Text.newline_not_mem_of_mem_lines hMem
  have hKept := Draft.Kept.readLines hLines Draft.kept_empty hRead
  exact hKept.finish (mapError_eq_ok.mp hFinish)

/-- **Writing and reading are inverse** on the configurations whose texts fit lines, and reading
gives no others: what was accepted is accepted again, as the same configuration. -/
theorem round_trip (c : RunConfig) :
    (parse c.render = .ok c ↔ c.Storable ∧ c.Numbered) ∧
      ∀ text, parse text = .ok c → c.Storable ∧ parse c.render = .ok c := by
  constructor
  · constructor
    · exact storable_of_parse
    · rintro ⟨hStorable, hNumbered⟩
      exact parse_render hStorable hNumbered
  · intro text hParse
    obtain ⟨hStorable, hNumbered⟩ := storable_of_parse hParse
    exact ⟨hStorable, parse_render hStorable hNumbered⟩

/-- Indices out of order, an end below its start, and a value with a blank, `=` and `#` in it. -/
def shuffled : String :=
  "binary= a=b #c\n\n#\nentry_point=16\r\ntext_begin_10 = 16\ntext_end_10=0x20\n" ++
    "text_end_2=4\ntext_begin_2=010"

def shuffledConfig : RunConfig where
  binary := "a=b #c"
  codeStart := 0
  entryPoint := 16
  endian := .little
  text := [.emptyAt 8, .ofBounds 16 32]
  data := []
  isa := "MIPS32"
  settings := .default

theorem round_trip_shuffled : parse shuffled = .ok shuffledConfig ∧ shuffledConfig.Storable ∧
    parse shuffledConfig.render = .ok shuffledConfig := by
  have hParse : parse shuffled = .ok shuffledConfig := by
    decide +kernel
  exact ⟨hParse, (round_trip shuffledConfig).2 shuffled hParse⟩

end MipsAsm.RunConfig
