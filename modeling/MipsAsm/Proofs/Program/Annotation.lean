import MipsAsm.Proofs.Assembly.Labels
import MipsAsm.Proofs.Program.Alike
import MipsAsm.Proofs.Program.Run
import MipsAsm.Proofs.Text.Lines
import MipsAsm.Proofs.Token.Continuation

/-! # Comments and blank lines

Putting comments behind lines and idle lines between them changes nothing but the line numbers of
positions.
-/

namespace MipsAsm

open Memory (Endian)
open Outcome (Agree AgreeAt mapError_eq_ok run_bind_eq_ok)
open Token (Idle RawLine scanLine)

/-! ## Annotated texts -/

/-- A line, and the same one with idle text behind its content. Carriage returns at the end of a line
may belong to the content or follow it. -/
def AnnotatedLine (cs ds : List Char) : Prop :=
  ∃ content remark returns, cs = content ++ returns ∧ ds = content ++ (remark ++ returns) ∧
    Idle remark ∧ ∀ c ∈ returns, c = '\r'

/-- Lines, and the same ones annotated with idle lines among them. -/
inductive Annotated : List (List Char) → List (List Char) → Prop where
  | nil : Annotated [] []
  | keep {cs ds : List Char} {rest rest' : List (List Char)} (hLine : AnnotatedLine cs ds)
      (hRest : Annotated rest rest') : Annotated (cs :: rest) (ds :: rest')
  | insert {ds : List Char} {rest rest' : List (List Char)} (hIdle : Idle ds)
      (hRest : Annotated rest rest') : Annotated rest (ds :: rest')

def contentsOf (text : String) : List (List Char) :=
  (Text.lines text.toList).map Text.Line.content

/-- Named texts under the same names, annotated one by one. -/
def AnnotatedSource (source source' : String × String) : Prop :=
  source.1 = source'.1 ∧ Annotated (contentsOf source.2) (contentsOf source'.2)

/-- The same place but for the number of the line. -/
def SameColumn (p q : Position) : Prop :=
  p.source = q.source ∧ p.col = q.col

theorem linesOfText_eq (text : String) :
    Token.linesOfText text = (contentsOf text).map RawLine.ofChars := by
  rw [Token.linesOfText, contentsOf, List.map_map]
  rfl

/-! ## Lines -/

/-- The part of a line that is scanned. -/
def scanned (cs : List Char) : List Char :=
  Text.dropTrailing (· == '\r') cs

theorem isBlank_of_return {cs : List Char} (hReturns : ∀ c ∈ cs, c = '\r') :
    ∀ c ∈ cs, Text.isBlank c = true := by
  intro c hMem
  rw [hReturns c hMem]
  rfl

theorem scanned_append_returns (cs : List Char) {returns : List Char}
    (hReturns : ∀ c ∈ returns, c = '\r') : scanned (cs ++ returns) = scanned cs := by
  have hNone : returns.reverse.dropWhile (· == '\r') = [] := by
    rw [List.dropWhile_eq_nil_iff]
    intro c hMem
    rw [hReturns c (List.mem_reverse.mp hMem)]
    rfl
  rw [scanned, Text.dropTrailing_append, if_pos]
  · rfl
  · rw [Text.dropTrailing, hNone]
    rfl

theorem idle_scanned {cs : List Char} (hIdle : Idle cs) : Idle (scanned cs) := by
  obtain ⟨cut, hCut, _⟩ := Text.exists_append_dropTrailing (· == '\r') cs
  rw [hCut] at hIdle
  exact hIdle.of_append

/-- What is scanned of an annotated line is what is scanned of the line, with idle text behind. -/
theorem AnnotatedLine.exists_idle {cs ds : List Char} (hLine : AnnotatedLine cs ds) :
    ∃ tail, Idle tail ∧ scanned ds = scanned cs ++ tail := by
  obtain ⟨content, remark, returns, rfl, rfl, hRemark, hReturns⟩ := hLine
  have hTail : Idle (scanned (remark ++ returns)) :=
    idle_scanned (hRemark.append_blanks (isBlank_of_return hReturns))
  rw [scanned_append_returns content hReturns, scanned, scanned, Text.dropTrailing_append]
  split
  · exact ⟨[], .of_blanks (by simp), (List.append_nil _).symm⟩
  · obtain ⟨inner, hContent, hInner⟩ := Text.exists_append_dropTrailing (· == '\r') content
    have hBlank := isBlank_of_return fun c hMem => eq_of_beq (hInner c hMem)
    refine ⟨_, Idle.blanks_append hBlank hTail, ?_⟩
    rw [← List.append_assoc, ← hContent]
    rfl

namespace Assemble

variable {o : Origin} {source : Nat}

theorem scanLine_annotated {cs ds : List Char} {ts : List Token} (hLine : AnnotatedLine cs ds)
    (index index' : Nat) (hScan : scanLine streamOptions source index (scanned cs) = .ok ts) :
    ∃ us, scanLine streamOptions source index' (scanned ds) = .ok us ∧
      List.Forall₂ (Token.Alike SameColumn) ts us := by
  have hMoved : Agree (Error.Alike SameColumn) (List.Forall₂ (Token.Alike SameColumn))
      ((scanLine streamOptions source index (scanned cs)).mapError Error.lexical)
      ((scanLine streamOptions source index' (scanned cs)).mapError Error.lexical) :=
    Token.scanLine_alike (fun _ => ⟨rfl, rfl⟩) (scanned cs)
  obtain ⟨us, hOther, hAlike⟩ := hMoved.exists_of_ok (mapError_eq_ok.mpr hScan)
  obtain ⟨tail, hIdle, hSplit⟩ := hLine.exists_idle
  rw [hSplit]
  exact ⟨us, Token.scanLine_append_idle rfl (mapError_eq_ok.mp hOther) hIdle, hAlike⟩

theorem line_nil (a : Assembly) : line [] a = .ok () a := by
  obtain ⟨active, text, data, pending, labels, memory, staged⟩ := a
  change EStateM.Result.ok () (Assembly.mk active text data (pending ++ []) labels memory staged) = _
  rw [List.append_nil]

/-- A line that scans and runs, as the first of many. -/
theorem lines_cons_ok {index : Nat} {cs : List Char} {rest : List RawLine} {a c : Assembly} :
    lines source index (.ofChars cs :: rest) a = .ok () c ↔
      ∃ ts b, scanLine streamOptions source index (scanned cs) = .ok ts ∧ line ts a = .ok () b ∧
        lines source (index + 1) rest b = .ok () c := by
  rw [RawLine.ofChars, lines, run_bind_eq_ok]
  constructor
  · rintro ⟨ts, a', hLift, hRest⟩
    obtain ⟨hScan, rfl⟩ := liftExcept_ok hLift
    obtain ⟨_, b, hLine, hLines⟩ := run_bind_eq_ok.mp hRest
    exact ⟨ts, b, mapError_eq_ok.mp hScan, hLine, hLines⟩
  · rintro ⟨ts, b, hScan, hLine, hLines⟩
    refine ⟨ts, a, ?_, run_bind_eq_ok.mpr ⟨(), b, hLine, hLines⟩⟩
    rw [← scanned, mapError_eq_ok.mpr hScan]
    rfl

theorem lines_annotated {contents contents' : List (List Char)}
    (hAnnotated : Annotated contents contents') :
    ∀ (index index' : Nat) {a b c : Assembly}, a.Alike SameColumn o b →
      lines source index (contents.map RawLine.ofChars) a = .ok () c →
        ∃ d, lines source index' (contents'.map RawLine.ofChars) b = .ok () d ∧
          c.Alike SameColumn o d := by
  induction hAnnotated with
  | nil =>
    intro index index' a b c hState hRun
    obtain ⟨_, d, hDefine, _, hEnd⟩ := (define_keeps .nil a b hState).exists_of_ok hRun
    exact ⟨d, hDefine, hEnd⟩
  | keep hLine _ ih =>
    intro index index' a b c hState hRun
    obtain ⟨ts, a', hScan, hFirst, hRest⟩ := lines_cons_ok.mp hRun
    obtain ⟨us, hScan', hTokens⟩ := scanLine_annotated hLine index index' hScan
    obtain ⟨_, b', hFirst', _, hNext⟩ := (line_keeps hTokens a b hState).exists_of_ok hFirst
    obtain ⟨d, hRest', hEnd⟩ := ih _ _ hNext hRest
    exact ⟨d, lines_cons_ok.mpr ⟨us, b', hScan', hFirst', hRest'⟩, hEnd⟩
  | insert hIdle _ ih =>
    intro index index' a b c hState hRun
    obtain ⟨d, hRest, hEnd⟩ := ih _ _ hState hRun
    exact ⟨d, lines_cons_ok.mpr ⟨[], b, Token.Scanner.tokens_of_idle rfl (idle_scanned hIdle),
      line_nil b, hRest⟩, hEnd⟩

end Assemble

/-! ## Sources -/

theorem Assembly.parse_annotated {e e' : Endian} {a b c : Assembly} {source : Nat}
    {text text' : String} {is : Array Item} (hState : a.Alike SameColumn (.ofOrders e e') b)
    (hAnnotated : Annotated (contentsOf text) (contentsOf text'))
    (hParse : a.parse source (Token.linesOfText text) = (.ok is, c)) :
    ∃ js d, b.parse source (Token.linesOfText text') = (.ok js, d) ∧
      List.Forall₂ (Item.Alike SameColumn) is.toList js.toList ∧
      c.Alike SameColumn (.ofOrders e e') d := by
  rw [parse_eq, linesOfText_eq] at hParse
  cases hRun : Assemble.lines source 0 ((contentsOf text).map RawLine.ofChars)
      { a with staged := #[] } with
  | error error a' =>
    rw [hRun] at hParse
    cases hParse
  | ok _ a' =>
    rw [hRun] at hParse
    cases hParse
    obtain ⟨b', hRun', hEnd⟩ := Assemble.lines_annotated hAnnotated 0 0 hState.cleared hRun
    refine ⟨b'.staged, { b' with staged := #[] }, ?_, hEnd.staged.forall₂, hEnd.cleared⟩
    rw [parse_eq, linesOfText_eq, hRun']
    rfl

namespace Run

theorem parseSource_annotated {e e' : Endian} {r s next : Run} {name text text' : String}
    (hRun : Alike SameColumn e e' r s) (hNew : r.sources.contains name = false)
    (hAnnotated : Annotated (contentsOf text) (contentsOf text'))
    (hSource : r.parseSource name text = (.ok (), next)) :
    ∃ next', s.parseSource name text' = (.ok (), next') ∧ Alike SameColumn e e' next next' := by
  rw [parseSource] at hSource ⊢
  cases hParse : r.assembly.parse r.sources.length (Token.linesOfText text) with
  | mk outcome a =>
    rw [hParse] at hSource
    cases outcome with
    | error error => cases hSource
    | ok is =>
      cases hSource
      rw [hRun.sources_length] at hParse
      obtain ⟨js, b, hParse', hItems, hState⟩ :=
        Assembly.parse_annotated hRun.assembly hAnnotated hParse
      rw [hParse']
      exact ⟨_, rfl, hRun.extended hNew _ _ hState hItems⟩

theorem addTexts_annotated {e e' : Endian} {sources sources' : List (String × String)}
    (hAnnotated : List.Forall₂ AnnotatedSource sources sources') :
    ∀ {r s last : Run}, Alike SameColumn e e' r s → r.addTexts sources = .ok last →
      ∃ last', s.addTexts sources' = .ok last' ∧ Alike SameColumn e e' last last' := by
  induction hAnnotated with
  | nil =>
    intro r s last hRun hTexts
    cases hTexts
    exact ⟨s, rfl, hRun⟩
  | @cons source source' sources sources' hSource _ ih =>
    intro r s last hRun hTexts
    obtain ⟨name, text⟩ := source
    obtain ⟨name', text'⟩ := source'
    obtain ⟨rfl, hLines⟩ : name = name' ∧ Annotated (contentsOf text) (contentsOf text') := hSource
    rw [addTexts, addSource] at hTexts ⊢
    rw [← SourceTable.contains_of_names hRun.names]
    cases hNew : r.sources.contains name with
    | true =>
      rw [hNew] at hTexts
      cases hTexts
    | false =>
      rw [hNew] at hTexts
      simp only [Bool.false_eq_true, if_false] at hTexts ⊢
      cases hFirst : r.parseSource name text with
      | mk outcome next =>
        rw [hFirst] at hTexts
        cases outcome with
        | error error => cases hTexts
        | ok _ =>
          obtain ⟨next', hFirst', hNext⟩ := parseSource_annotated hRun hNew hLines hFirst
          rw [hFirst']
          exact ih hNext hTexts

end Run

/-- **Comments and blank lines are inert.** A program assembles from annotated texts as it does from
the plain ones; only lines of positions differ. -/
theorem assemble_annotated (options : Options) (sources sources' : List (String × String))
    (program : Program) (hAnnotated : List.Forall₂ AnnotatedSource sources sources')
    (hAssemble : assemble options sources = .ok program) :
    ∃ program', assemble options sources' = .ok program' ∧
      program'.memory = program.memory ∧ program'.warnings = program.warnings ∧
      List.Forall₂ (Label.Alike SameColumn) program.labels.labels program'.labels.labels ∧
      List.Forall₂ (Item.Alike SameColumn) program.items.toList program'.items.toList := by
  obtain ⟨last, hTexts, hFinish⟩ := Outcome.bind_eq_ok.mp hAssemble
  obtain ⟨last', hTexts', hRun⟩ := Run.addTexts_annotated hAnnotated
    (Run.start_alike options options.endian options.endian) hTexts
  obtain ⟨program', hFinish', hAlike⟩ := hRun.finish.exists_of_ok hFinish
  exact ⟨program', Outcome.bind_eq_ok.mpr ⟨last', hTexts', hFinish'⟩, hAlike.memory.eq.symm,
    hAlike.warnings.symm, hAlike.labels, hAlike.items⟩

def plainSources : List (String × String) :=
  [("a", "main: j b\nb:\r\nnop"), ("b", ".data\n.byte '#'\n")]

/-- Idle lines in front and behind, one between a waiting label and its statement, and comments in
front of a carriage return and behind a quoted number sign. -/
def annotatedSources : List (String × String) :=
  [("a", "\t\n# x\nmain: j b# go\nb:#\r\n  # y: z\nnop\n\n"), ("b", "\r\n.data\n.byte '#' #'\n")]

def plainOptions : Options :=
  ⟨.big, 4, 0, 8, true⟩

def plainRun : Run :=
  (Run.start plainOptions).addAll (plainSources.map fun named => (named.1, some named.2))

def plainMemory : Memory.Image :=
  ⟨#[8, 0, 0, 1, 0, 0, 0, 0, 35, 0, 0, 0, 0, 0, 0, 0], .big, 0,
    ⟨[], some ⟨.ofBounds 8 9, 2⟩⟩, ⟨[], some ⟨.ofBounds 0 8, 1⟩⟩, 2⟩

theorem assemble_annotated_plain :
    List.Forall₂ AnnotatedSource plainSources annotatedSources ∧
    ∃ program program', assemble plainOptions plainSources = .ok program ∧
      assemble plainOptions annotatedSources = .ok program' ∧ program'.memory = plainMemory ∧
      List.Forall₂ (Item.Alike SameColumn) program.items.toList program'.items.toList := by
  have hFirst : Annotated ["main: j b".toList, "b:\r".toList, "nop".toList]
      ["\t".toList, "# x".toList, "main: j b# go".toList, "b:#\r".toList, "  # y: z".toList,
        "nop".toList, []] := by
    refine .insert (by decide) (.insert (by decide) (.keep ?_ (.keep ?_ (.insert (by decide)
      (.keep ?_ (.insert (by decide) .nil))))))
    · exact ⟨"main: j b".toList, "# go".toList, [], by decide, by decide, by decide, by simp⟩
    · exact ⟨"b:".toList, "#".toList, ['\r'], by decide, by decide, by decide, by simp⟩
    · exact ⟨"nop".toList, [], [], by decide, by decide, by decide, by simp⟩
  have hSecond : Annotated [".data".toList, ".byte '#'".toList]
      ["\r".toList, ".data".toList, ".byte '#' #'".toList] := by
    refine .insert (by decide) (.keep ?_ (.keep ?_ .nil))
    · exact ⟨".data".toList, [], [], by decide, by decide, by decide, by simp⟩
    · exact ⟨".byte '#'".toList, " #'".toList, [], by decide, by decide, by decide, by simp⟩
  have hAnnotated : List.Forall₂ AnnotatedSource plainSources annotatedSources := by
    refine .cons ⟨rfl, ?_⟩ (.cons ⟨rfl, ?_⟩ .nil)
    · convert hFirst using 1 <;> decide +kernel
    · convert hSecond using 1 <;> decide +kernel
  have hTexts : (Run.start plainOptions).addTexts plainSources = .ok plainRun := by
    decide +kernel
  have hStore : Store.items plainRun.assembly.labels plainRun.items.toList
      plainRun.assembly.memory = .ok () plainMemory := by
    decide +kernel
  have hOptions : plainRun.options = plainOptions :=
    Run.options_addAll _ _
  have hCheck : Run.checkLayout plainOptions plainMemory = .ok [] :=
    Run.checkLayout_of_singletons rfl rfl rfl
  have hFinish := Run.finish_eq_ok hStore (by decide +kernel) (hOptions ▸ hCheck)
  obtain ⟨program', hAssemble', hMemory, _, _, hItems⟩ := assemble_annotated plainOptions
    plainSources annotatedSources _ hAnnotated (Outcome.bind_eq_ok.mpr ⟨plainRun, hTexts, hFinish⟩)
  exact ⟨hAnnotated, _, program', Outcome.bind_eq_ok.mpr ⟨plainRun, hTexts, hFinish⟩, hAssemble',
    hMemory, hItems⟩

end MipsAsm
