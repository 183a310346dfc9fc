import MipsAsm.Proofs.Instruction.Completion
import MipsAsm.Proofs.Instruction.Verdict

/-! # What is wrong with operands

The operands of a mnemonic are parsed exactly if they are the comma separated operands of its
format. Otherwise the mnemonic is blamed if the operands stop too early, and else the first token
with which no list of operands goes on. That some list goes on is meant strictly: there is a line
with the same tokens in front of it.
-/

namespace MipsAsm

open Isa (Mnemonic Register)

/-! ## Operands and their values -/

/-- An operand of an instruction. -/
inductive Argument where
  | register (r : Register)
  | immediate (v : Immediate)
  | memory (offset : Immediate) (base : Register)

namespace Argument

open Operands (oneOf separator)

/-- The token is a register of any of its names. -/
def Calls (r : Register) (t : Token) : Prop :=
  t.kind = .register ∧ Register.ofName? t.text = some r

/-- A constant stands for its value, a name for itself. -/
def Denotes : Immediate → Token → Prop
  | .literal value, t =>
    (t.kind = .integerConstant ∨ t.kind = .characterLiteral) ∧ t.intValue? = some value
  | .symbol name, t => (t.kind = .identifier ∨ t.kind = .mnemonic) ∧ t.text = name

/-- An offset that is not written is zero. -/
def offsets (offset : Immediate) : Language Token :=
  {ts | ts = [] ∧ offset = .literal 0 ∨ ∃ t, ts = [t] ∧ Denotes offset t}

/-- How an operand may be written. -/
def language : Argument → Language Token
  | register r => oneOf (Calls r)
  | immediate v => oneOf (Denotes v)
  | memory offset base => offsets offset * (separator "(" * (oneOf (Calls base) * separator ")"))

end Argument

/-- The operands in the order of the source. -/
def Instruction.arguments : Instruction → List Argument
  | reg3 _ rd rs rt => [.register rd, .register rs, .register rt]
  | shiftVar _ rd rt rs => [.register rd, .register rt, .register rs]
  | shift _ rd rt amount => [.register rd, .register rt, .immediate amount]
  | mulDiv _ rs rt => [.register rs, .register rt]
  | moveFrom _ rd => [.register rd]
  | jumpReg _ rs => [.register rs]
  | imm _ rt rs value => [.register rt, .register rs, .immediate value]
  | upper rt value => [.register rt, .immediate value]
  | mem _ rt offset base => [.register rt, .memory offset base]
  | branch _ rs rt target => [.register rs, .register rt, .immediate target]
  | branchZero _ rs target => [.register rs, .immediate target]
  | jump _ target => [.immediate target]
  | bare _ => []
  | move rd rs => [.register rd, .register rs]
  | loadImm rt value => [.register rt, .immediate value]
  | loadAddr rt target => [.register rt, .immediate target]
  | branchAlways target => [.immediate target]

namespace Operands

def Shape.argument : (shape : Shape) → shape.Value → Argument
  | .register, r => .register r
  | .immediate, v => .immediate v
  | .memory, (offset, base) => .memory offset base

def argumentsOf : (shapes : List Shape) → Values shapes → List Argument
  | [], () => []
  | shape :: shapes, (value, values) => shape.argument value :: argumentsOf shapes values

theorem arguments_build (m : Mnemonic) (format : Isa.Format) (values : Values (shapes format)) :
    (build m format values).arguments = argumentsOf (shapes format) values := by
  cases format <;> rfl

theorem immediateOf_eq_ok_iff_denotes {t : Token} {v : Immediate} :
    immediateOf t = .ok v ↔ Argument.Denotes v t := by
  rw [immediateOf_eq_ok]
  cases v with
  | literal value => simp [Argument.Denotes, eq_comm]
  | symbol name => simp [Argument.Denotes, eq_comm]

theorem mem_language_of_written {shape : Shape} {ts : List Token} {value : shape.Value}
    (hWritten : Written shape ts value) : ts ∈ (shape.argument value).language := by
  cases shape with
  | register =>
    obtain ⟨t, rfl, hRegister⟩ := hWritten
    exact ⟨t, rfl, registerOf_eq_ok.mp hRegister⟩
  | immediate =>
    obtain ⟨t, rfl, hImmediate⟩ := hWritten
    exact ⟨t, rfl, immediateOf_eq_ok_iff_denotes.mp hImmediate⟩
  | memory =>
    obtain ⟨offset, base⟩ := value
    obtain ⟨front, before, t, behind, rfl, hOffset, hBefore, hBase, hBehind⟩ := hWritten
    have hFront : front ∈ Argument.offsets offset := by
      rcases hOffset with hNone | ⟨u, rfl, hImmediate⟩
      · exact Or.inl hNone
      · exact Or.inr ⟨u, rfl, immediateOf_eq_ok_iff_denotes.mp hImmediate⟩
    refine append_mem_mul hFront (cons_mem_mul hBefore ?_)
    exact cons_mem_mul (registerOf_eq_ok.mp hBase) ⟨behind, rfl, hBehind⟩

theorem mem_commaSeparated_of_listed (shapes : List Shape) :
    ∀ {ts : List Token} {values : Values shapes}, Listed true shapes ts values →
      ts ∈ commaSeparated ((argumentsOf shapes values).map Argument.language) := by
  induction shapes with
  | nil =>
    rintro ts values rfl
    exact Language.nil_mem_one
  | cons shape shapes ih =>
    rintro ts ⟨value, values⟩ ⟨_, read, rest, rfl, rfl, hWritten, hListed⟩
    have hRead := mem_language_of_written hWritten
    cases shapes with
    | nil =>
      obtain rfl := hListed
      simpa [argumentsOf, commaSeparated] using hRead
    | cons next more =>
      obtain ⟨lead, read', rest', rfl, ⟨comma, rfl, hComma⟩, hWritten', hListed'⟩ := hListed
      rw [List.nil_append]
      refine append_mem_mul hRead (cons_mem_mul hComma ?_)
      exact ih ⟨[], read', rest', rfl, rfl, hWritten', hListed'⟩

end Operands

/-! ## Parsing -/

open Operands

variable {m : Mnemonic} {head : Position} {ts : List Token} {options : Token.Options}
  {source line : Nat} {cs : List Char} {front : List Token}

theorem named_of_scanLine (hLine : Token.scanLine options source line cs = .ok ts) :
    ∀ t ∈ ts, Named t := by
  intro t hMem hKind
  obtain ⟨_, hLexeme⟩ := (Token.Scanner.tiles_of_tokens hLine).exists_lexeme t hMem
  rw [show t.kind = .register from hKind] at hLexeme
  obtain ⟨_, hClass, _⟩ := hLexeme
  rw [String.ofList_toList] at hClass
  exact (Token.isSome_register_iff _).mpr ((Token.classify_eq_register_iff _).mp hClass.symm)

/-- Parsing takes a whole list of operands, or tells what is wrong with the tokens. -/
theorem Instruction.parse_cases (m : Mnemonic) (head : Position) (hNamed : ∀ t ∈ ts, Named t) :
    (∃ i, parse m head ts = .ok i ∧ ts ∈ accepted m) ∨
    (parse m head ts = .error (Cause.missingArgument.located head) ∧
      ∃ us, us ≠ [] ∧ ts ++ us ∈ accepted m) ∨
    ∃ e before t after, parse m head ts = .error e ∧ ts = before ++ t :: after ∧
      (∃ us, before ++ us ∈ accepted m) ∧ (∀ us, before ++ t :: us ∉ accepted m) ∧ Blames t e := by
  have hVerdict : Verdict head (accepted m) ts _ _ := verdict_shapes (shapes m.format) hNamed
  rw [parse]
  generalize readShapes head true ts (shapes m.format) = x at hVerdict
  cases hVerdict with
  | read result word hWord hSplit =>
    obtain ⟨values, rest⟩ := result
    cases rest with
    | nil =>
      refine Or.inl ⟨build m m.format values, rfl, ?_⟩
      rwa [hSplit, List.append_nil]
    | cons t rest =>
      -- no list of operands is the beginning of a longer one
      refine Or.inr (Or.inr ⟨_, word, t, rest, rfl, hSplit, ⟨[], ?_⟩, ?_, Or.inl rfl⟩)
      · rwa [List.append_nil]
      · intro us hMore
        cases (proper_commaSeparated _).ends word (t :: us) hWord hMore
  | missing more hMore hWord => exact Or.inr (Or.inl ⟨rfl, more, hMore, hWord⟩)
  | blamed e before t after more hSplit _ hWord hDead hBlames =>
    exact Or.inr (Or.inr ⟨e, before, t, after, rfl, hSplit, ⟨more, hWord⟩, hDead, hBlames⟩)

theorem Operands.Blames.ne_missing {t : Token} {e : Error} (hBlames : Blames t e)
    (head : Position) : e ≠ Cause.missingArgument.located head := by
  rcases hBlames with rfl | ⟨expected, rfl⟩
  · rintro ⟨⟩
  · rintro ⟨⟩

theorem Instruction.arguments_of_parse {i : Instruction} (hParse : parse m head ts = .ok i) :
    i.mnemonic = m ∧ ts ∈ commaSeparated (i.arguments.map Argument.language) := by
  obtain ⟨values, hListed, rfl⟩ := parse_eq_ok.mp hParse
  refine ⟨mnemonic_build m values, ?_⟩
  rw [arguments_build]
  exact mem_commaSeparated_of_listed _ hListed

theorem Instruction.exists_parse_iff (m : Mnemonic) (head : Position)
    (hNamed : ∀ t ∈ ts, Named t) : (∃ i, parse m head ts = .ok i) ↔ ts ∈ accepted m := by
  rcases parse_cases m head hNamed with ⟨i, hOk, hWord⟩ | ⟨hError, us, hMore, hWord⟩ |
    ⟨e, before, t, after, hError, hSplit, _, hDead, _⟩
  · exact ⟨fun _ => hWord, fun _ => ⟨i, hOk⟩⟩
  · rw [hError]
    refine ⟨fun ⟨_, hOk⟩ => (by cases hOk), fun hWhole => ?_⟩
    exact absurd ((proper_commaSeparated _).ends ts us hWhole hWord) hMore
  · rw [hError]
    refine ⟨fun ⟨_, hOk⟩ => (by cases hOk), fun hWhole => ?_⟩
    exact absurd (hSplit ▸ hWhole) (hDead after)

theorem Instruction.blamed_of_parse {e : Error} (hNamed : ∀ t ∈ ts, Named t)
    (hFailed : parse m head ts = .error e) :
    (e = Cause.missingArgument.located head ↔ ∃ us, us ≠ [] ∧ ts ++ us ∈ accepted m) ∧
      (e ≠ Cause.missingArgument.located head →
        ∃ before t after, ts = before ++ t :: after ∧ (∃ us, before ++ us ∈ accepted m) ∧
          (∀ us, before ++ t :: us ∉ accepted m) ∧ Blames t e) := by
  rcases parse_cases m head hNamed with ⟨i, hOk, _⟩ | ⟨hError, us, hMore, hWord⟩ |
    ⟨_, before, t, after, hError, hSplit, hBegins, hDead, hBlames⟩
  · cases hOk.symm.trans hFailed
  · cases hError.symm.trans hFailed
    exact ⟨⟨fun _ => ⟨us, hMore, hWord⟩, fun _ => rfl⟩, fun hOther => absurd rfl hOther⟩
  · cases hError.symm.trans hFailed
    refine ⟨⟨fun hSame => absurd hSame (hBlames.ne_missing head), ?_⟩, ?_⟩
    · rintro ⟨us, _, hWord⟩
      rw [hSplit, List.append_assoc] at hWord
      exact absurd hWord (hDead (after ++ us))
    · exact fun _ => ⟨before, t, after, hSplit, hBegins, hDead, hBlames⟩

/-- **Operands are parsed exactly if they are those of the format.** Behind any tokens of a line, a
mnemonic takes the lists of operands of its format and no others, and the instruction holds them in
their order. Tokens that stop inside of such a list are blamed on the mnemonic, all others on the
first token with which no such list goes on. Every list that goes on with tokens of the line does
so on some line, too. -/
theorem operands_judged (m : Mnemonic) (head : Position)
    (hLine : Token.scanLine options source line cs = .ok (front ++ ts)) :
    ((∃ i, Instruction.parse m head ts = .ok i) ↔ ts ∈ accepted m) ∧
    (∀ i, Instruction.parse m head ts = .ok i →
      i.mnemonic = m ∧ ts ∈ commaSeparated (i.arguments.map Argument.language)) ∧
    (∀ e, Instruction.parse m head ts = .error e →
      (e = Cause.missingArgument.located head ↔ ∃ us, us ≠ [] ∧ ts ++ us ∈ accepted m) ∧
      (e ≠ Cause.missingArgument.located head →
        ∃ before t after, ts = before ++ t :: after ∧ (∃ us, before ++ us ∈ accepted m) ∧
          (∀ us, before ++ t :: us ∉ accepted m) ∧ Blames t e)) ∧
    (∀ before us, before <+: ts → before ++ us ∈ accepted m →
      ∃ vs ds, before ++ vs ∈ accepted m ∧
        Token.scanLine options source line ds = .ok (front ++ (before ++ vs))) := by
  have hNamed : ∀ t ∈ ts, Named t :=
    fun t hMem => named_of_scanLine hLine t (List.mem_append_right front hMem)
  refine ⟨Instruction.exists_parse_iff m head hNamed, fun i => Instruction.arguments_of_parse,
    fun e => Instruction.blamed_of_parse hNamed, ?_⟩
  rintro before us ⟨after, rfl⟩ hWord
  exact (Spellable.commaSeparated _).exists_line hLine hWord

def splitOperands : List Token :=
  [⟨.register, "$t0", ⟨0, 4, 3⟩⟩, ⟨.separator, ",", ⟨0, 4, 6⟩⟩, ⟨.integerConstant, "4", ⟨0, 4, 8⟩⟩,
    ⟨.separator, ",", ⟨0, 4, 9⟩⟩, ⟨.separator, "(", ⟨0, 4, 11⟩⟩, ⟨.register, "$sp", ⟨0, 4, 12⟩⟩,
    ⟨.separator, ")", ⟨0, 4, 15⟩⟩]

/-- A comma between the offset and the base is blamed. In front of it, the base is missing. -/
theorem operands_judged_split :
    Token.scanLine ⟨false, true⟩ 0 4 "lw $t0, 4, ($sp)".toList =
        .ok ([⟨.mnemonic, "lw", ⟨0, 4, 0⟩⟩] ++ splitOperands) ∧
      (∃ before t after, splitOperands = before ++ t :: after ∧ (∃ us, before ++ us ∈ accepted .lw) ∧
        (∀ us, before ++ t :: us ∉ accepted .lw) ∧
        Blames t ((Cause.unexpectedToken ",").located ⟨0, 4, 9⟩)) ∧
      Token.scanLine ⟨false, true⟩ 0 4 "lw $t0, 4".toList =
        .ok ([⟨.mnemonic, "lw", ⟨0, 4, 0⟩⟩] ++ splitOperands.take 3) ∧
      Instruction.parse .lw ⟨0, 4, 0⟩ (splitOperands.take 3) =
        .error (Cause.missingArgument.located ⟨0, 4, 0⟩) ∧
      ∃ us, us ≠ [] ∧ splitOperands.take 3 ++ us ∈ accepted .lw := by
  have hSplit : Token.scanLine ⟨false, true⟩ 0 4 "lw $t0, 4, ($sp)".toList =
      .ok ([⟨.mnemonic, "lw", ⟨0, 4, 0⟩⟩] ++ splitOperands) := by
    decide +kernel
  have hShort : Token.scanLine ⟨false, true⟩ 0 4 "lw $t0, 4".toList =
      .ok ([⟨.mnemonic, "lw", ⟨0, 4, 0⟩⟩] ++ splitOperands.take 3) := by
    decide +kernel
  obtain ⟨_, _, hBlamed, _⟩ := operands_judged .lw ⟨0, 4, 0⟩ hSplit
  obtain ⟨_, _, hMissing, _⟩ := operands_judged .lw ⟨0, 4, 0⟩ hShort
  refine ⟨hSplit, (hBlamed _ rfl).2 (by rintro ⟨⟩), hShort, rfl, ?_⟩
  exact (hMissing _ rfl).1.mp rfl

end MipsAsm
