import MipsAsm.Instruction.Printer
import MipsAsm.Proofs.Instruction.Grammar
import MipsAsm.Proofs.Text.Paint
import MipsAsm.Proofs.Token.Phrase

/-! # Listings can be assembled again

An instruction that was parsed from a line is printed as a line that scans, and parses as the very
same instruction. Registers are printed by their ABI names, numbers in decimal, symbols by name and
a memory operand as its offset with the base in parentheses.
-/

namespace MipsAsm

open Isa (Mnemonic Register)
open Text (Shows)
open Token (Kind Lexeme Spells classify content isDelimiter)

/-! ## Immediates -/

namespace Immediate

def plain : Immediate → String
  | literal value => toString value
  | symbol name => name

/-- The token that an immediate is printed as. -/
def content : Immediate → Kind × String
  | literal value => (.integerConstant, toString value)
  | symbol name => (classify name, name)

/-- The immediates that tokens denote: no constant reaches `2⁶³`, and no register is a symbol. -/
def Legible : Immediate → Prop
  | literal value => value.natAbs < 0x8000000000000000
  | symbol name => name.toList ∈ Token.word ∧ classify name ≠ .register

variable {v : Immediate} {t : Token}

theorem natAbs_of_intValue? {operators : Bool} {spelling : List Char} {value : Int}
    (hLexeme : Lexeme operators t.kind spelling t.text.toList) (hValue : t.intValue? = some value) :
    value.natAbs < 0x8000000000000000 := by
  rw [Token.intValue?] at hValue
  cases hKind : t.kind with
  | integerConstant =>
    rw [hKind] at hLexeme hValue
    exact Token.integer?_bounds hLexeme.1 hValue
  | characterLiteral =>
    rw [hKind] at hValue
    obtain ⟨b, _, rfl⟩ := Option.map_eq_some_iff.mp hValue
    have hByte := b.toNat_lt
    simp only [Int.ofNat_eq_natCast, Int.natAbs_natCast]
    omega
  | _ => simp [hKind] at hValue

theorem legible_of_token {operators : Bool} {spelling : List Char}
    (hLexeme : Lexeme operators t.kind spelling t.text.toList)
    (hImmediate : Operands.immediateOf t = .ok v) : v.Legible := by
  rcases Operands.immediateOf_eq_ok.mp hImmediate with ⟨_, value, hValue, rfl⟩ | ⟨hKind, rfl⟩
  · exact natAbs_of_intValue? hLexeme hValue
  · -- the kind of a word tells that it is not a register
    rcases hKind with hKind | hKind <;>
    · rw [hKind] at hLexeme
      obtain ⟨hText, hClass, _⟩ := hLexeme
      rw [String.ofList_toList] at hClass
      refine ⟨hText, ?_⟩
      rw [← hClass]
      exact Kind.noConfusion

/-- A printed immediate is read back. -/
theorem Legible.immediateOf_eq (hLegible : v.Legible) (hContent : t.content = v.content) :
    Operands.immediateOf t = .ok v := by
  obtain ⟨hKind, hText⟩ := Prod.mk.inj hContent
  apply Operands.immediateOf_eq_ok.mpr
  cases v with
  | literal value =>
    refine Or.inl ⟨Or.inl hKind, value, ?_, rfl⟩
    simp only [Token.intValue?, hKind, hText, Token.integerValue?_toString hLegible]
  | symbol name =>
    refine Or.inr ⟨?_, congrArg symbol hText.symm⟩
    rcases Token.classify_cases name with hName | hName | hName
    · exact absurd hName hLegible.2
    · exact Or.inr (hKind.trans hName)
    · exact Or.inl (hKind.trans hName)

theorem Legible.shows (hLegible : v.Legible) : Shows v.painted v.plain.toList := by
  cases v with
  | literal value =>
    have hPlain : '\x1b' ∉ (toString value).toList :=
      Token.not_mem_of_mem_integer (by decide) rfl (Token.toString_mem_integer value)
    exact (Shows.of_not_mem hPlain).paint [.yellow]
  | symbol name =>
    have hPlain : '\x1b' ∉ name.toList := Token.not_mem_of_mem_word (by decide) hLegible.1
    exact (Shows.of_not_mem hPlain).paint [.green]

theorem Legible.spells (hLegible : v.Legible) {tail : List Char} {contents : List (Kind × String)}
    (hDelimiter : ∀ c ∈ tail.head?, isDelimiter c = true) (hTail : Spells tail contents) :
    Spells (v.plain.toList ++ tail) (v.content :: contents) := by
  cases v with
  | literal value => exact hTail.number value hDelimiter
  | symbol name => exact hTail.name hLegible.1 hDelimiter

end Immediate

/-! ## Registers and mnemonics -/

namespace Isa.Register

theorem ofName?_name (r : Register) : ofName? r.name = some r := by
  have hAll : ∀ r ∈ all, ofName? r.name = some r := by decide +kernel
  exact hAll r (Token.mem_all_registers r)

theorem name_mem_word (r : Register) : r.name.toList ∈ Token.word :=
  Token.IsRegisterName.mem_word ⟨r, Or.inl rfl⟩

theorem shows (r : Register) : Shows r.name r.name.toList :=
  Shows.of_not_mem (Token.not_mem_of_mem_word (by decide) r.name_mem_word)

theorem spells (r : Register) {tail : List Char} {contents : List (Kind × String)}
    (hDelimiter : ∀ c ∈ tail.head?, isDelimiter c = true) (hTail : Spells tail contents) :
    Spells (r.name.toList ++ tail) ((.register, r.name) :: contents) := by
  have hKind : classify r.name = .register :=
    (Token.classify_eq_register_iff r.name).mpr ⟨r, Or.inl rfl⟩
  rw [← hKind]
  exact hTail.name r.name_mem_word hDelimiter

theorem registerOf_eq (r : Register) {t : Token} (hContent : t.content = (.register, r.name)) :
    Operands.registerOf t = .ok r := by
  obtain ⟨hKind, hText⟩ := Prod.mk.inj hContent
  exact Operands.registerOf_eq_ok.mpr ⟨hKind, hText ▸ r.ofName?_name⟩

end Isa.Register

namespace Isa.Mnemonic

theorem ofName?_name (m : Mnemonic) : ofName? m.name = some m := by
  have hAll : ∀ m ∈ all, ofName? m.name = some m := by decide +kernel
  exact hAll m m.mem_all

theorem classify_name (m : Mnemonic) : classify m.name = .mnemonic := by
  have hAll : ∀ m ∈ all, classify m.name = .mnemonic := by decide +kernel
  exact hAll m m.mem_all

theorem length_name_lt (m : Mnemonic) : m.name.toList.length < 8 := by
  have hAll : ∀ m ∈ all, m.name.toList.length < 8 := by decide +kernel
  exact hAll m m.mem_all

theorem name_mem_word (m : Mnemonic) : m.name.toList ∈ Token.word :=
  Token.IsMnemonicName.mem_word ⟨m, rfl⟩

end Isa.Mnemonic

/-! ## Operands -/

namespace Operands

variable {shape : Shape} {ts : List Token}

namespace Shape

def painted : (shape : Shape) → shape.Value → String
  | .register, r => r.name
  | .immediate, v => v.painted
  | .memory, (offset, base) => offset.painted ++ "(" ++ base.name ++ ")"

def plain : (shape : Shape) → shape.Value → String
  | .register, r => r.name
  | .immediate, v => v.plain
  | .memory, (offset, base) => offset.plain ++ "(" ++ base.name ++ ")"

/-- The tokens that an operand is printed as. -/
def contents : (shape : Shape) → shape.Value → List (Kind × String)
  | .register, r => [(.register, r.name)]
  | .immediate, v => [v.content]
  | .memory, (offset, base) =>
    [offset.content, (.separator, "("), (.register, base.name), (.separator, ")")]

def Legible : (shape : Shape) → shape.Value → Prop
  | .register, _ => True
  | .immediate, v => v.Legible
  | .memory, (offset, _) => offset.Legible

variable {v : shape.Value}

theorem legible_of_written {operators : Bool} (hWritten : Written shape ts v)
    (hTokens : ∀ t ∈ ts, ∃ spelling, Lexeme operators t.kind spelling t.text.toList) :
    shape.Legible v := by
  cases shape with
  | register => trivial
  | immediate =>
    obtain ⟨t, rfl, hImmediate⟩ := hWritten
    obtain ⟨spelling, hLexeme⟩ := hTokens t List.mem_cons_self
    exact Immediate.legible_of_token hLexeme hImmediate
  | memory =>
    obtain ⟨front, opening, t, closing, rfl, hOffset, _⟩ := hWritten
    change v.1.Legible
    rcases hOffset with ⟨_, hZero⟩ | ⟨t, rfl, hImmediate⟩
    · rw [hZero, Immediate.Legible]
      decide
    · obtain ⟨spelling, hLexeme⟩ := hTokens t List.mem_cons_self
      exact Immediate.legible_of_token hLexeme hImmediate

theorem written_of_contents (hLegible : shape.Legible v)
    (hContents : ts.map content = shape.contents v) : Written shape ts v := by
  cases shape with
  | register =>
    obtain ⟨t, rfl, hContent⟩ := List.map_eq_singleton_iff.mp hContents
    exact ⟨t, rfl, Isa.Register.registerOf_eq _ hContent⟩
  | immediate =>
    obtain ⟨t, rfl, hContent⟩ := List.map_eq_singleton_iff.mp hContents
    exact ⟨t, rfl, Immediate.Legible.immediateOf_eq hLegible hContent⟩
  | memory =>
    obtain ⟨offset, us, rfl, hOffset, hContents⟩ := List.map_eq_cons_iff.mp hContents
    obtain ⟨opening, us, rfl, hOpen, hContents⟩ := List.map_eq_cons_iff.mp hContents
    obtain ⟨base, us, rfl, hBase, hContents⟩ := List.map_eq_cons_iff.mp hContents
    obtain ⟨closing, rfl, hClose⟩ := List.map_eq_singleton_iff.mp hContents
    exact ⟨[offset], opening, base, closing, rfl,
      Or.inr ⟨offset, rfl, Immediate.Legible.immediateOf_eq hLegible hOffset⟩,
      Token.is_of_content hOpen, Isa.Register.registerOf_eq _ hBase, Token.is_of_content hClose⟩

theorem shows (hLegible : shape.Legible v) : Shows (shape.painted v) (shape.plain v).toList := by
  cases shape with
  | register => exact Isa.Register.shows v
  | immediate => exact Immediate.Legible.shows hLegible
  | memory =>
    have hOffset : Shows v.1.painted v.1.plain.toList := Immediate.Legible.shows hLegible
    have hOpen : Shows "(" "(".toList := Shows.of_not_mem (by decide)
    have hClose : Shows ")" ")".toList := Shows.of_not_mem (by decide)
    have hAll := ((hOffset.append hOpen).append (Isa.Register.shows v.2)).append hClose
    simpa only [painted, plain, String.toList_append] using hAll

theorem spells (hLegible : shape.Legible v) {tail : List Char} {more : List (Kind × String)}
    (hDelimiter : ∀ c ∈ tail.head?, isDelimiter c = true) (hTail : Spells tail more) :
    Spells ((shape.plain v).toList ++ tail) (shape.contents v ++ more) := by
  cases shape with
  | register => exact Isa.Register.spells v hDelimiter hTail
  | immediate => exact Immediate.Legible.spells hLegible hDelimiter hTail
  | memory =>
    have hClose : Spells (')' :: tail) ((.separator, ")") :: more) := hTail.separator rfl
    have hBase := Isa.Register.spells v.2 (by simp [isDelimiter, Token.isSeparator]) hClose
    have hOpen : Spells ('(' :: (v.2.name.toList ++ ')' :: tail)) ((.separator, "(") :: _) :=
      hBase.separator rfl
    have hAll := Immediate.Legible.spells hLegible (by simp [isDelimiter, Token.isSeparator]) hOpen
    simpa [plain, contents] using hAll

end Shape

/-! ## Lists of operands -/

/-- What is made of the operands, one by one. -/
def each {α : Type} (f : (shape : Shape) → shape.Value → α) :
    (shapes : List Shape) → Values shapes → List α
  | [], () => []
  | shape :: shapes, (v, vs) => f shape v :: each f shapes vs

/-- The tokens that operands are printed as, with a comma in front of each but the first. -/
def allContents (first : Bool) : (shapes : List Shape) → Values shapes → List (Kind × String)
  | [], () => []
  | shape :: shapes, (v, vs) => (if first then [] else [(.separator, ",")]) ++
      (shape.contents v ++ allContents false shapes vs)

def AllLegible : (shapes : List Shape) → Values shapes → Prop
  | [], () => True
  | shape :: shapes, (v, vs) => shape.Legible v ∧ AllLegible shapes vs

theorem legible_of_listed {operators : Bool} (shapes : List Shape) :
    ∀ {first : Bool} {ts : List Token} {vs : Values shapes}, Listed first shapes ts vs →
      (∀ t ∈ ts, ∃ spelling, Lexeme operators t.kind spelling t.text.toList) →
        AllLegible shapes vs := by
  induction shapes with
  | nil =>
    intro first ts vs _ _
    trivial
  | cons shape shapes ih =>
    rintro first _ vs ⟨lead, read, rest, rfl, _, hWritten, hListed⟩ hTokens
    simp only [List.forall_mem_append] at hTokens
    exact ⟨Shape.legible_of_written hWritten hTokens.2.1, ih hListed hTokens.2.2⟩

theorem listed_of_contents (shapes : List Shape) :
    ∀ {first : Bool} {ts : List Token} {vs : Values shapes}, AllLegible shapes vs →
      ts.map content = allContents first shapes vs → Listed first shapes ts vs := by
  induction shapes with
  | nil =>
    intro first ts vs _ hContents
    exact List.map_eq_nil_iff.mp hContents
  | cons shape shapes ih =>
    rintro first ts vs ⟨hLegible, hRest⟩ hContents
    obtain ⟨lead, us, rfl, hLead, hContents⟩ := List.map_eq_append_iff.mp hContents
    obtain ⟨read, rest, rfl, hRead, hContents⟩ := List.map_eq_append_iff.mp hContents
    refine ⟨lead, read, rest, rfl, ?_, Shape.written_of_contents hLegible hRead, ih hRest hContents⟩
    cases first with
    | true => exact List.map_eq_nil_iff.mp hLead
    | false =>
      obtain ⟨comma, rfl, hComma⟩ := List.map_eq_singleton_iff.mp hLead
      exact ⟨comma, rfl, Token.is_of_content hComma⟩

theorem shows_each (shapes : List Shape) :
    ∀ {vs : Values shapes}, AllLegible shapes vs →
      List.Forall₂ Shows (each Shape.painted shapes vs)
        ((each Shape.plain shapes vs).map String.toList) := by
  induction shapes with
  | nil =>
    intro vs _
    exact .nil
  | cons shape shapes ih =>
    rintro vs ⟨hLegible, hRest⟩
    exact .cons (Shape.shows hLegible) (ih hRest)

theorem spells_each (shapes : List Shape) :
    ∀ {vs : Values shapes}, AllLegible shapes vs →
      Spells (", ".intercalate (each Shape.plain shapes vs)).toList
        (allContents true shapes vs) := by
  simp only [String.toList_intercalate]
  induction shapes with
  | nil =>
    intro vs _
    exact Spells.nil
  | cons shape shapes ih =>
    rintro vs ⟨hLegible, hRest⟩
    cases shapes with
    | nil =>
      have hLast := Shape.spells hLegible (by simp) Spells.nil
      simpa [each, allContents] using hLast
    | cons next shapes =>
      have hAll := Shape.spells hLegible (by simp [isDelimiter, Token.isSeparator]) (ih hRest).comma
      simpa [each, allContents] using hAll

end Operands

/-! ## Lines -/

open Operands

/-- The mnemonic filled up to eight columns, and the operands behind it. -/
def lineOf (m : Mnemonic) (values : Values (shapes m.format)) : String :=
  Text.padRight 8 ' ' m.name ++ ", ".intercalate (each Shape.plain (shapes m.format) values)

variable {m : Mnemonic} {values : Values (shapes m.format)}

theorem operands_build (m : Mnemonic) (format : Isa.Format) (values : Values (shapes format)) :
    (build m format values).operands = each Shape.painted (shapes format) values := by
  cases format <;> rfl

theorem toList_padded (m : Mnemonic) : ∃ blanks, blanks ≠ [] ∧ (∀ b ∈ blanks, b = ' ') ∧
    (Text.padRight 8 ' ' m.name).toList = m.name.toList ++ blanks := by
  -- no name fills the eight columns, so that a blank ends it
  have hLength := m.length_name_lt
  refine ⟨List.replicate (8 - m.name.toList.length) ' ', ?_, ?_, ?_⟩
  · simp only [ne_eq, List.replicate_eq_nil_iff]
    omega
  · intro b hMem
    exact List.eq_of_mem_replicate hMem
  · rw [Text.padRight, String.toList_ofList, List.rightpad]

theorem unpainted_build (hLegible : AllLegible (shapes m.format) values) :
    Text.unpainted (build m m.format values).painted = lineOf m values := by
  obtain ⟨blanks, _, hBlanks, hPadded⟩ := toList_padded m
  have hName : Shows (Text.padRight 8 ' ' m.name) (Text.padRight 8 ' ' m.name).toList := by
    apply Shows.of_not_mem
    rw [hPadded]
    intro hMem
    rcases List.mem_append.mp hMem with hLeft | hRight
    · exact Token.not_mem_of_mem_word (by decide) m.name_mem_word hLeft
    · cases hBlanks _ hRight
  have hOperands := (Shows.intercalate ", " (by decide) (shows_each _ hLegible)).paint [.blue]
  have hAll := ((Shows.escape Text.Attribute.red.code).append hName).append hOperands
  rw [Instruction.painted, mnemonic_build, operands_build, hAll.unpainted_eq, lineOf,
    ← String.toList_inj]
  simp [String.toList_intercalate]

theorem spells_line (hLegible : AllLegible (shapes m.format) values) :
    Spells (lineOf m values).toList
      ((.mnemonic, m.name) :: allContents true (shapes m.format) values) := by
  obtain ⟨blanks, hSome, hBlanks, hPadded⟩ := toList_padded m
  have hSpace : ∀ b ∈ blanks, Text.isBlank b = true := by
    intro b hMem
    rw [hBlanks b hMem]
    rfl
  rw [lineOf, String.toList_append, hPadded, List.append_assoc, ← m.classify_name]
  apply Spells.name m.name_mem_word ?_ ((spells_each _ hLegible).blanks hSpace)
  cases blanks with
  | nil => exact absurd rfl hSome
  | cons b blanks =>
    intro c hHead
    cases hHead
    simp [isDelimiter, hSpace b List.mem_cons_self]

/-- Wherever it stands, the text is one mnemonic with operands that make the instruction. -/
def Assembles (text : String) (i : Instruction) : Prop :=
  ∀ options source line, ∃ head ts,
    Token.scanLine options source line text.toList = .ok (head :: ts) ∧ head.kind = .mnemonic ∧
      Mnemonic.ofName? head.text = some i.mnemonic ∧
      Instruction.parse i.mnemonic head.pos ts = .ok i

theorem assembles_line (hLegible : AllLegible (shapes m.format) values) :
    Assembles (lineOf m values) (build m m.format values) := by
  intro options source line
  obtain ⟨_, hScan, hContents⟩ := spells_line hLegible options source line 0
  obtain ⟨head, ts, rfl, hHead, hRest⟩ := List.map_eq_cons_iff.mp hContents
  obtain ⟨hKind, hText⟩ := Prod.mk.inj hHead
  rw [mnemonic_build]
  refine ⟨head, ts, hScan, hKind, ?_, ?_⟩
  · rw [hText, m.ofName?_name]
  · exact Instruction.parse_eq_ok.mpr ⟨values, listed_of_contents _ hLegible hRest, rfl⟩

theorem assembles_unpainted {options : Token.Options} {source line : Nat} {cs : List Char}
    {head : Token} {ts : List Token} {i : Instruction}
    (hScan : Token.scanLine options source line cs = .ok (head :: ts))
    (hParse : Instruction.parse m head.pos ts = .ok i) :
    i.mnemonic = m ∧
      (∃ values, build m m.format values = i ∧ Text.unpainted i.painted = lineOf m values) ∧
      Assembles (Text.unpainted i.painted) i := by
  have hTokens := (Token.Scanner.tiles_of_tokens hScan).exists_lexeme
  obtain ⟨values, hListed, rfl⟩ := Instruction.parse_eq_ok.mp hParse
  have hLegible := legible_of_listed _ hListed fun t hMem => hTokens t (List.mem_cons_of_mem _ hMem)
  have hText := unpainted_build hLegible
  refine ⟨mnemonic_build m values, ⟨values, rfl, hText⟩, ?_⟩
  rw [hText]
  exact assembles_line hLegible

def loadOperands : List Token :=
  [⟨.register, "$31", ⟨0, 4, 4⟩⟩, ⟨.separator, ",", ⟨0, 4, 8⟩⟩,
    ⟨.integerConstant, "-017", ⟨0, 4, 10⟩⟩, ⟨.separator, "(", ⟨0, 4, 14⟩⟩,
    ⟨.register, "$29", ⟨0, 4, 16⟩⟩, ⟨.separator, ")", ⟨0, 4, 20⟩⟩]

/-- Numbered registers and an octal offset come back by name and in decimal. -/
theorem assembles_unpainted_load :
    Token.scanLine ⟨false, true⟩ 0 4 "\tlw $31 , -017( $29 ) # link".toList =
        .ok (⟨.mnemonic, "lw", ⟨0, 4, 1⟩⟩ :: loadOperands) ∧
      Instruction.parse .lw ⟨0, 4, 1⟩ loadOperands =
        .ok (.mem .lw ⟨31⟩ (.literal (-15)) ⟨29⟩) ∧
      Assembles "lw      $ra, -15($sp)" (.mem .lw ⟨31⟩ (.literal (-15)) ⟨29⟩) := by
  have hScan : Token.scanLine ⟨false, true⟩ 0 4 "\tlw $31 , -017( $29 ) # link".toList =
      .ok (⟨.mnemonic, "lw", ⟨0, 4, 1⟩⟩ :: loadOperands) := by
    decide +kernel
  have hParse : Instruction.parse .lw ⟨0, 4, 1⟩ loadOperands =
      .ok (.mem .lw ⟨31⟩ (.literal (-15)) ⟨29⟩) := by
    decide +kernel
  have hText : Text.unpainted (Instruction.mem .lw ⟨31⟩ (.literal (-15)) ⟨29⟩).painted =
      "lw      $ra, -15($sp)" := by
    decide +kernel
  obtain ⟨_, _, hAssembles⟩ := assembles_unpainted hScan hParse
  rw [hText] at hAssembles
  exact ⟨hScan, hParse, hAssembles⟩

end MipsAsm
