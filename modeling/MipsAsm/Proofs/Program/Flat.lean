import MipsAsm.Proofs.Instruction.Listing
import MipsAsm.Proofs.Program.Order

/-! # Texts without newlines

Names of labels and symbols are words, so that they hold no newline, and neither do the instructions
that a run prints. Paint, padding and numerals add none.
-/

namespace MipsAsm

open Outcome (final)

/-! ## Texts -/

namespace Text

/-- The text has no newline. -/
def Flat (s : String) : Prop :=
  '\n' ∉ s.toList

instance decidableFlat (s : String) : Decidable (Flat s) :=
  inferInstanceAs (Decidable ('\n' ∉ s.toList))

variable {s t : String} {ss : List String} {c : Char}

theorem Flat.append (hFront : Flat s) (hBack : Flat t) : Flat (s ++ t) := by
  rw [Flat, String.toList_append, List.mem_append, not_or]
  exact ⟨hFront, hBack⟩

theorem flat_join (hTexts : ∀ s ∈ ss, Flat s) : Flat (String.join ss) := by
  rw [Flat, String.toList_join]
  intro hMem
  obtain ⟨s, hText, hChar⟩ := List.mem_flatMap.mp hMem
  exact hTexts s hText hChar

theorem Flat.intercalate (hSeparator : Flat s) (hTexts : ∀ t ∈ ss, Flat t) :
    Flat (s.intercalate ss) := by
  rw [Flat, String.toList_intercalate]
  induction ss with
  | nil => exact List.not_mem_nil
  | cons t ss ih =>
    obtain ⟨hFirst, hRest⟩ := List.forall_mem_cons.mp hTexts
    cases ss with
    | nil =>
      rw [List.map_singleton, List.intercalate_singleton]
      exact hFirst
    | cons u ss =>
      rw [List.map_cons, List.map_cons, List.intercalate_cons_cons, ← List.map_cons]
      simp only [List.mem_append, not_or]
      exact ⟨⟨hFirst, hSeparator⟩, ih hRest⟩

theorem newline_not_mem_replicate (n : Nat) (hChar : c ≠ '\n') : '\n' ∉ List.replicate n c :=
  fun hMem => hChar (List.eq_of_mem_replicate hMem).symm

theorem flat_repeated (n : Nat) (hChar : c ≠ '\n') : Flat (repeated n c) := by
  rw [Flat, repeated, String.toList_ofList]
  exact newline_not_mem_replicate n hChar

theorem Flat.padLeft (hText : Flat s) (width : Nat) (hChar : c ≠ '\n') :
    Flat (padLeft width c s) := by
  rw [Flat, Text.padLeft, String.toList_ofList, List.leftpad, List.mem_append, not_or]
  exact ⟨newline_not_mem_replicate _ hChar, hText⟩

theorem Flat.padRight (hText : Flat s) (width : Nat) (hChar : c ≠ '\n') :
    Flat (padRight width c s) := by
  rw [Flat, Text.padRight, String.toList_ofList, List.rightpad, List.mem_append, not_or]
  exact ⟨hText, newline_not_mem_replicate _ hChar⟩

theorem flat_toString (n : Nat) : Flat (toString n) :=
  not_mem_toString rfl n

theorem flat_paddedHex (width n : Nat) : Flat (paddedHex width n) := by
  intro hMem
  obtain ⟨d, hDigit⟩ := exists_digit?_of_natural? (natural?_paddedHex width n) _ hMem
  cases hDigit

theorem flat_escape (code : Nat) : Flat (escape code) := by
  have hOpen : Flat "\x1b[" := by decide
  have hClose : Flat "m" := by decide
  exact (hOpen.append (flat_toString code)).append hClose

theorem Flat.paint (attributes : List Attribute) (hText : Flat s) : Flat (paint attributes s) := by
  have hEscapes : ∀ codes : Attribute → Nat,
      Flat (String.join (attributes.map fun a => escape (codes a))) := by
    intro codes
    apply flat_join
    intro s hMem
    obtain ⟨a, _, rfl⟩ := List.mem_map.mp hMem
    exact flat_escape _
  exact ((hEscapes _).append hText).append (hEscapes _)

theorem Flat.trimmed (hText : Flat s) : Flat (trimmed s) := by
  rw [Flat, Text.trimmed, String.toList_ofList]
  exact fun hMem => hText (mem_of_mem_trim hMem)

end Text

open Text (Flat)

/-! ## Instructions -/

theorem Token.flat_of_mem_word {s : String} (hText : s.toList ∈ word) : Flat s :=
  not_mem_of_mem_word (by decide) hText

theorem Immediate.Legible.flat {v : Immediate} (hLegible : v.Legible) : Flat v.painted := by
  cases v with
  | literal value =>
    have hText : Flat (toString value) :=
      Token.not_mem_of_mem_integer (by decide) rfl (Token.toString_mem_integer value)
    exact hText.paint [.yellow]
  | symbol name => exact (Token.flat_of_mem_word hLegible.1).paint [.green]

namespace Operands

theorem Shape.flat {shape : Shape} {v : shape.Value} (hLegible : shape.Legible v) :
    Flat (shape.painted v) := by
  cases shape with
  | register => exact Token.flat_of_mem_word (Isa.Register.name_mem_word v)
  | immediate => exact Immediate.Legible.flat hLegible
  | memory =>
    have hOffset : Flat v.1.painted := Immediate.Legible.flat hLegible
    have hOpen : Flat "(" := by decide
    have hClose : Flat ")" := by decide
    have hBase := Token.flat_of_mem_word (Isa.Register.name_mem_word v.2)
    exact ((hOffset.append hOpen).append hBase).append hClose

theorem flat_each (shapes : List Shape) :
    ∀ {vs : Values shapes}, AllLegible shapes vs → ∀ s ∈ each Shape.painted shapes vs, Flat s := by
  induction shapes with
  | nil =>
    intro vs _
    exact List.forall_mem_nil _
  | cons shape shapes ih =>
    rintro vs ⟨hLegible, hRest⟩
    exact List.forall_mem_cons.mpr ⟨Shape.flat hLegible, ih hRest⟩

end Operands

theorem Instruction.flat_of_parse {m : Isa.Mnemonic} {head : Position} {ts : List Token}
    {i : Instruction} {operators : Bool} (hParse : Instruction.parse m head ts = .ok i)
    (hTokens : ∀ t ∈ ts, ∃ spelling, Token.Lexeme operators t.kind spelling t.text.toList) :
    Flat i.painted := by
  obtain ⟨values, hListed, rfl⟩ := Instruction.parse_eq_ok.mp hParse
  have hLegible := Operands.legible_of_listed _ hListed hTokens
  have hComma : Flat ", " := by decide
  rw [Instruction.painted, Operands.mnemonic_build, operands_build]
  have hName := (Token.flat_of_mem_word m.name_mem_word).padRight 8 (c := ' ') (by decide)
  have hOperands := (hComma.intercalate (Operands.flat_each _ hLegible)).paint [.blue]
  exact ((Text.flat_escape _).append hName).append hOperands

/-! ## Runs -/

theorem Token.flat_of_label {t : Token} {operators : Bool} {spelling : List Char}
    (hLexeme : Lexeme operators t.kind spelling t.text.toList) (hKind : t.kind = .label) :
    Flat t.text := by
  rw [hKind] at hLexeme
  obtain ⟨name, hName, colon, ⟨c, hColon, rfl⟩, hText⟩ := Language.mem_mul.mp hLexeme.1
  rw [Flat, ← hText]
  intro hMem
  rcases List.mem_append.mp hMem with hFront | hBack
  · exact not_mem_of_mem_word (by decide) hName hFront
  · cases List.mem_singleton.mp hBack
    exact absurd hColon (by decide)

theorem Token.flat_labelAt {t : Token} (hText : Flat t.text) (address : UInt32) :
    Flat (t.labelAt address).name := by
  change Flat (t.labelName?.getD t.text)
  rw [labelName?]
  split
  · rw [Option.getD_some, Flat, String.toList_ofList]
    exact fun hMem => hText (List.dropLast_subset _ hMem)
  · exact hText

/-- The instruction of an item is printed without newlines. -/
def Item.Flat (item : Item) : Prop :=
  ∀ i, item.payload = .code i → Text.Flat i.painted

/-- No name that a state keeps has a newline. -/
abbrev Assembly.Flat (a : Assembly) : Prop :=
  a.Content 0 (fun t => Text.Flat t.text) (fun label => Text.Flat label.name) Item.Flat

theorem Assemble.flat_lines (source : Nat) (raw : List Token.RawLine) {a : Assembly}
    (hFlat : a.Flat) : (final (lines source 0 raw) a).Flat := by
  have hLabel : ∀ t address, Text.Flat t.text → Text.Flat (Token.labelAt t address).name :=
    fun t address hText => Token.flat_labelAt hText address
  suffices hLine : ∀ index cs ts, Token.scanLine streamOptions source index cs = .ok ts →
      Maintains Assembly.Flat (line ts) by
    obtain ⟨_, hFinal⟩ := lines_induction (J := fun _ b => b.Flat) hLine
      (fun _ => maintains_define hLabel (List.forall_mem_nil _)) raw 0 a hFlat
    exact hFinal
  intro index cs ts hScan
  have hTokens := (Token.Scanner.tiles_of_tokens hScan).exists_lexeme
  apply maintains_line hLabel
  · intro t hMem hKind
    obtain ⟨spelling, hLexeme⟩ := hTokens t hMem
    exact Token.flat_of_label hLexeme hKind
  · intro head operands address payload hHead hCode i hPayload
    obtain ⟨m, hParse⟩ := hCode i hPayload
    apply Instruction.flat_of_parse hParse
    intro t hMem
    exact hTokens t ((List.dropWhile_sublist _).subset (hHead ▸ List.mem_cons_of_mem _ hMem))

namespace Run

/-- No name in the run has a newline, nor has an instruction of its items. -/
structure Flat (r : Run) : Prop where
  assembly : r.assembly.Flat
  items : ∀ item ∈ r.items.toList, item.Flat

theorem Flat.parseSource {r : Run} (hFlat : r.Flat) (name text : String) :
    (r.parseSource name text).2.Flat := by
  have hLines := Assemble.flat_lines r.sources.length (Token.linesOfText text)
    hFlat.assembly.cleared
  have hState := hLines.cleared
  rw [← Assembly.parse_snd] at hState
  rw [Run.parseSource]
  cases hParse : r.assembly.parse r.sources.length (Token.linesOfText text) with
  | mk outcome assembly =>
    rw [hParse] at hState
    cases outcome with
    | ok items =>
      refine ⟨hState, ?_⟩
      rw [Array.toList_append, ← Assembly.map_snd_log_of_ok hParse, Assembly.map_snd_log]
      exact List.forall_mem_append.mpr ⟨hFlat.items, hLines.staged⟩
    | error e => exact ⟨hState, hFlat.items⟩

theorem flat_addAll (options : Options) (calls : List (String × Option String)) :
    ((start options).addAll calls).Flat := by
  apply addAll_induction (fun _ name text _ hFlat => hFlat.parseSource name text) calls
  have hStart : (start options).assembly.Flat :=
    ⟨List.forall_mem_nil _, List.forall_mem_nil _, List.forall_mem_nil _⟩
  exact ⟨hStart, List.forall_mem_nil _⟩

end Run

end MipsAsm
