import MipsAsm.Proofs.Assembly.Rejection
import MipsAsm.Proofs.Assembly.Streams
import MipsAsm.Proofs.Token.Phrase
import MipsAsm.Proofs.Token.StringText

/-! # Strings in memory

A string directive stages the UTF-8 encoding of its literal's text, character after character, and
the bytes that its name adds. Since texts have one body each, every text that can be written at all
is written in one way.
-/

namespace MipsAsm

open Token (Unescapes Paired Scanner linesOfText)
open Outcome (run_bind_of_ok run_bind_of_error)

/-- The directives that stage a string, each with the bytes that it puts behind. -/
def stringDirectives : List (String × List UInt8) :=
  [(".ascii", []), (".asciiz", [0])]

def utf8 (text : String) : List UInt8 :=
  text.toList.flatMap String.utf8EncodeChar

theorem utf8_eq (text : String) : text.toUTF8.data.toList = utf8 text := by
  have hBytes : text.toByteArray = text.toList.utf8Encode := by
    rw [← String.toByteArray_ofList, String.ofList_toList]
  rw [String.toUTF8_eq_toByteArray, hBytes, List.utf8Encode, List.data_toByteArray, utf8]

/-! ## Staging -/

/-- A step on `a` binds the labels that wait and `names`, and stages one item and nothing else. It
fails only if one of the labels is there already or the item does not fit behind its address, and
then nothing is staged. -/
inductive StagesAlone (a : Assembly) (names : List Token) (item : Item) :
    EStateM.Result Error Assembly Unit → Prop where
  | staged (b : Assembly) (hStaged : b.staged = a.staged.push item)
      (hCursor : b.pc.toNat = item.address.toNat + item.size)
      (hPlaced : b = (a.flush names).place item b.pc) : StagesAlone a names item (.ok () b)
  | redefined (e : Error) (b : Assembly) (hNames : a.pending ++ names ≠ [])
      (hError : e.IsRedefinition) (hKept : b.staged = a.staged) :
      StagesAlone a names item (.error e b)
  | overflown (e : Error) (b : Assembly)
      (hStop : 0x100000000 ≤ item.address.toNat + item.size) (hError : e.IsOverflow)
      (hKept : b.staged = a.staged) : StagesAlone a names item (.error e b)

namespace Assemble

theorem define_eq_of_nil {a : Assembly} {names : List Token} (hNames : a.pending ++ names = []) :
    define names a = .ok () (a.flush names) := by
  rcases define_cases names a with hOk | ⟨e, labels, hError⟩
  · exact hOk
  · have hLabels : defineLabels a.pc (a.pending ++ names) { a with pending := [] } = _ := hError
    rw [hNames] at hLabels
    cases hLabels

theorem le_of_emit_error {pos : Position} {payload : Payload} {a b : Assembly} {e : Error}
    (hRun : emit pos payload a = .error e b) : 0x100000000 ≤ a.pc.toNat + payload.size := by
  by_contra hStop
  cases hRun.symm.trans (if_pos (Nat.lt_of_not_le hStop))

theorem stagesAlone_stage (names : List Token) (pos : Position) (payload : Payload) (a : Assembly) :
    StagesAlone a names ⟨a.pc, pos, payload⟩
      ((do define names; emit pos payload : Assemble Unit) a) := by
  rcases define_cases names a with hDefine | ⟨e, labels, hDefine⟩
  · rw [run_bind_of_ok hDefine]
    rcases emit_cases pos payload (a.flush names) with ⟨stop, hStop, hEmit⟩ | ⟨e, hEmit⟩
    · rw [hEmit]
      refine .staged _ (Effect.staged_place _ _ _) ?_ ?_
      · rw [Assembly.pc_place]
        exact hStop.symm
      · rw [Assembly.pc_place]
        rfl
    · rw [hEmit]
      have hStop : 0x100000000 ≤ (a.flush names).pc.toNat + payload.size := le_of_emit_error hEmit
      exact .overflown e _ hStop (emit_error hEmit).1 rfl
  · rw [run_bind_of_error hDefine]
    refine .redefined e _ ?_ (define_error hDefine) rfl
    intro hNames
    cases (define_eq_of_nil hNames).symm.trans hDefine

/-- Labels that wait at the end of a source have all been bound by then. -/
theorem stagesAlone_define_nil {a : Assembly} {names : List Token} {item : Item}
    {x : Assemble Unit} (hStages : StagesAlone a names item (x a)) :
    StagesAlone a names item ((do x; define [] : Assemble Unit) a) := by
  cases hRun : x a with
  | error e b =>
    rw [run_bind_of_error hRun, ← hRun]
    exact hStages
  | ok u b =>
    rw [hRun] at hStages
    cases hStages with
    | staged _ hStaged hCursor hPlaced =>
      have hPending : b.pending = [] := by
        rw [hPlaced]
        exact Assembly.pending_withCursor _ _
      rw [run_bind_of_ok hRun, define_nil_of_pending hPending]
      exact .staged b hStaged hCursor hPlaced

theorem parse_string {d : String × List UInt8} (hDirective : d ∈ stringDirectives)
    {head literal : Token} (hText : head.text = d.1) (hLiteral : literal.kind = .stringLiteral) :
    Directive.parse head [literal] = .ok (.bytes (utf8 literal.text ++ d.2)) := by
  rw [← utf8_eq]
  obtain ⟨kind, text, pos⟩ := head
  obtain ⟨kind', text', pos'⟩ := literal
  cases hLiteral
  cases hText
  simp only [stringDirectives, List.mem_cons, List.not_mem_nil, or_false] at hDirective
  rcases hDirective with rfl | rfl <;> rfl

theorem line_string {d : String × List UInt8} (hDirective : d ∈ stringDirectives)
    {names : List Token} {head literal : Token} (hNames : ∀ t ∈ names, t.isLabel = true)
    (hHead : head.kind = .directive) (hText : head.text = d.1)
    (hLiteral : literal.kind = .stringLiteral) :
    line (names ++ [head, literal]) =
      (do define names; emit head.pos (.bytes (utf8 literal.text ++ d.2)) : Assemble Unit) := by
  have hPlain : ¬head.isLabel = true := by simp [Token.isLabel, hHead]
  rw [line_eq, List.dropWhile_append_of_pos hNames, List.takeWhile_append_of_pos hNames,
    List.dropWhile_cons_of_neg hPlain, List.takeWhile_cons_of_neg hPlain, List.append_nil]
  dsimp only
  rw [statement, hHead]
  dsimp only
  rw [parse_string hDirective hText hLiteral]
  rfl

end Assemble

/-! ## Lines of text -/

/-- The directive and, behind a blank, the literal with this body. -/
def stringLine (name : String) (body : List Char) : List Char :=
  name.toList ++ ' ' :: '"' :: (body ++ ['"'])

theorem lexeme_of_stringDirective {d : String × List UInt8} (hDirective : d ∈ stringDirectives)
    (operators : Bool) : Token.Lexeme operators .directive d.1.toList d.1.toList := by
  have hLexeme : ∀ letters : List Char, letters.all Token.isDirectiveChar = true →
      Token.Lexeme operators .directive ('.' :: 'a' :: letters) ('.' :: 'a' :: letters) := by
    intro letters hLetters
    refine ⟨?_, rfl⟩
    exact Language.append_mem_mul (Automaton.snoc_mem_mul (Automaton.singleton_mem_one rfl) rfl)
      (Token.mem_kstar_one hLetters)
  simp only [stringDirectives, List.mem_cons, List.not_mem_nil, or_false] at hDirective
  rcases hDirective with rfl | rfl
  · exact hLexeme ['s', 'c', 'i', 'i'] rfl
  · exact hLexeme ['s', 'c', 'i', 'i', 'z'] rfl

theorem not_mem_stringDirective :
    ∀ d ∈ stringDirectives, '#' ∉ d.1.toList ∧ '\n' ∉ d.1.toList := by
  decide

theorem scanLine_stringLine {d : String × List UInt8} (hDirective : d ∈ stringDirectives)
    {body : List Char} {text : String} (hBody : Unescapes body text.toList)
    (options : Token.Options) (source index : Nat) :
    Token.scanLine options source index (stringLine d.1 body) =
      .ok [⟨.directive, d.1, ⟨source, index, 0⟩⟩,
        ⟨.stringLiteral, text, ⟨source, index, 0 + d.1.toList.length + 1⟩⟩] := by
  have hName := Scanner.tokens_of_lexeme source index 0
    (lexeme_of_stringDirective hDirective options.operators)
  have hLexeme : Token.Lexeme options.operators .stringLiteral ('"' :: (body ++ ['"']))
      text.toList := ⟨body, hBody, rfl⟩
  have hLiteral : Scanner.tokens ⟨options, source, index, 0 + d.1.toList.length,
      ' ' :: '"' :: (body ++ ['"'])⟩ = _ :=
    (Scanner.tokens_cons_blank rfl _).trans (Scanner.tokens_of_lexeme source index _ hLexeme)
  refine Scanner.tokens_extended hName hLiteral ?_
    fun hMem => absurd hMem (not_mem_stringDirective d hDirective).1
  simp only [List.head?_cons, Option.mem_some_iff, forall_eq']
  rfl

theorem linesOfText_stringLine {name : String} {body : List Char} (hName : '\n' ∉ name.toList)
    (hBody : '\n' ∉ body) :
    linesOfText (String.ofList (stringLine name body ++ ['\n'])) =
      [.text (stringLine name body)] := by
  have hLine : '\n' ∉ stringLine name body := by simp [stringLine, hName, hBody]
  -- the closing quote keeps what stands in front of it
  have hKept : Text.dropTrailing (· == '\r') (stringLine name body) = stringLine name body := by
    have hSplit : stringLine name body = (name.toList ++ ' ' :: '"' :: body) ++ ['"'] := by
      simp [stringLine]
    rw [hSplit, Text.dropTrailing_append]
    rfl
  rw [linesOfText, String.toList_ofList, Text.lines_append hLine]
  exact congrArg (fun cs => [Token.RawLine.text cs]) hKept

theorem stagesAlone_lines {d : String × List UInt8} (hDirective : d ∈ stringDirectives)
    {body : List Char} {text : String} (hBody : Unescapes body text.toList)
    (hNewline : '\n' ∉ text.toList) (a : Assembly) (source index : Nat) :
    StagesAlone a [] ⟨a.pc, ⟨source, index, 0⟩, .bytes (utf8 text ++ d.2)⟩
      (Assemble.lines source index
        (linesOfText (String.ofList (stringLine d.1 body ++ ['\n']))) a) := by
  have hName := (not_mem_stringDirective d hDirective).2
  rw [linesOfText_stringLine hName (hBody.not_mem_body (by decide) hNewline), Assemble.lines,
    scanLine_stringLine hDirective hBody]
  apply Assemble.stagesAlone_define_nil (x := Assemble.line _)
  rw [← List.nil_append [_, _],
    Assemble.line_string hDirective (List.forall_mem_nil _) rfl rfl rfl]
  exact Assemble.stagesAlone_stage [] _ _ a

/-! ## Denotation -/

/-- String literals stand for texts: which ones, in how many ways, and what they leave in memory. -/
structure StringsDenote : Prop where
  body (s : Scanner) (t : Token) (hNext : s.next.1 = .ok (some t))
    (hKind : t.kind = .stringLiteral) : ∃ body, s.ReadsString body t.text
  unique (s s' : Scanner) (body body' : List Char) (text : String)
    (hReads : s.ReadsString body text) (hReads' : s'.ReadsString body' text) : body = body'
  everywhere (s s' : Scanner) (body rest : List Char) (text : String)
    (hReads : s.ReadsString body text) (hFaces : s'.Faces body rest) : s'.ReadsString body text
  spelled (text : String) :
    (∃ (s : Scanner) (body : List Char), s.ReadsString body text) ↔ Paired text.toList
  line (d : String × List UInt8) (hDirective : d ∈ stringDirectives) (names : List Token)
    (head literal : Token) (hNames : ∀ t ∈ names, t.isLabel = true)
    (hHead : head.kind = .directive) (hText : head.text = d.1)
    (hLiteral : literal.kind = .stringLiteral) (a : Assembly) :
    StagesAlone a names ⟨a.pc, head.pos, .bytes (utf8 literal.text ++ d.2)⟩
      (Assemble.line (names ++ [head, literal]) a)
  source (d : String × List UInt8) (hDirective : d ∈ stringDirectives) (s : Scanner)
    (body : List Char) (text : String) (hReads : s.ReadsString body text)
    (hNewline : '\n' ∉ text.toList) (a : Assembly) (source index : Nat) :
    StagesAlone a [] ⟨a.pc, ⟨source, index, 0⟩, .bytes (utf8 text ++ d.2)⟩
      (Assemble.lines source index
        (linesOfText (String.ofList (stringLine d.1 body ++ ['\n']))) a)

theorem strings_denote_uniquely : StringsDenote where
  body s t hNext hKind := Scanner.exists_readsString hNext hKind
  unique s s' body body' text hReads hReads' := hReads.unescapes.body_unique hReads'.unescapes
  everywhere s s' body rest text hReads hFaces := hFaces.readsString hReads.unescapes
  spelled text := by
    constructor
    · rintro ⟨s, body, hReads⟩
      exact hReads.unescapes.paired
    · intro hPaired
      obtain ⟨body, hBody⟩ := hPaired.exists_unescapes
      obtain ⟨s, hReads⟩ := hBody.exists_scanner
      exact ⟨s, body, hReads⟩
  line d hDirective names head literal hNames hHead hText hLiteral a := by
    rw [Assemble.line_string hDirective hNames hHead hText hLiteral]
    exact Assemble.stagesAlone_stage names head.pos _ a
  source d hDirective s body text hReads hNewline a source index :=
    stagesAlone_lines hDirective hReads.unescapes hNewline a source index

/-- A pair of backslashes in front of an escaped quote, and a character of two bytes. -/
theorem strings_denote_backslashes :
    let a := Assembly.ofBases 0x100 0x1000 (.ofCapacity 0 .little)
    ∃ b, Assemble.lines 0 0 (linesOfText ".asciiz \"a\\\\\\\"é\"\n") a = .ok () b ∧ b.pc = 0x107 ∧
      b.staged = #[⟨0x100, ⟨0, 0, 0⟩, .bytes [0x61, 0x5C, 0x5C, 0x22, 0xC3, 0xA9, 0]⟩] := by
  intro a
  have hBody : Unescapes ['a', '\\', '\\', '\\', '"', 'é'] "a\\\\\"é".toList :=
    .plain (by decide) (by decide) (.pair (by decide) (.quote (.plain (by decide) (by decide) .nil)))
  obtain ⟨s, hReads⟩ := hBody.exists_scanner
  have hStages := strings_denote_uniquely.source (".asciiz", [0]) (by decide) s _ _ hReads
    (by decide) a 0 0
  have hBytes : utf8 "a\\\\\"é" ++ [0] = [0x61, 0x5C, 0x5C, 0x22, 0xC3, 0xA9, 0] := by
    decide +kernel
  rw [hBytes] at hStages
  cases hRun : Assemble.lines 0 0 (linesOfText ".asciiz \"a\\\\\\\"é\"\n") a with
  | ok _ b =>
    cases hRun ▸ hStages with
    | staged _ hStaged hCursor _ => exact ⟨b, rfl, UInt32.toNat.inj hCursor, hStaged⟩
  | error e b =>
    cases hRun ▸ hStages with
    | redefined _ _ hNames => exact absurd rfl hNames
    | overflown _ _ hStop => exact absurd hStop (by decide)

end MipsAsm
