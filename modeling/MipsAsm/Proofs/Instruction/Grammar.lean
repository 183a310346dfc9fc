import MipsAsm.Instruction.Operands
import MipsAsm.Proofs.Outcome

/-! # The grammar of operands

Which tokens make an operand of each shape, and which make the operands of a format, said without
the readers. A reader succeeds exactly on tokens that begin with what it looks for, and leaves the
rest of them.
-/

namespace MipsAsm

open Outcome (bind_eq_ok pure_eq_ok)

namespace Operands

variable {head : Position} {first : Bool} {t : Token} {ts rest : List Token}

/-- What stands in front of an operand: a comma, unless it is the first. -/
def Lead (first : Bool) (ts : List Token) : Prop :=
  if first then ts = [] else ∃ t, ts = [t] ∧ t.is .separator "," = true

/-- The offset of a memory operand may be left out. -/
def WrittenOffset (ts : List Token) (offset : Immediate) : Prop :=
  ts = [] ∧ offset = .literal 0 ∨ ∃ t, ts = [t] ∧ immediateOf t = .ok offset

/-- The tokens of one operand and its value. -/
def Written : (shape : Shape) → List Token → shape.Value → Prop
  | .register, ts, r => ∃ t, ts = [t] ∧ registerOf t = .ok r
  | .immediate, ts, v => ∃ t, ts = [t] ∧ immediateOf t = .ok v
  | .memory, ts, (offset, base) => ∃ front opening t closing, ts = front ++ [opening, t, closing] ∧
      WrittenOffset front offset ∧ opening.is .separator "(" = true ∧ registerOf t = .ok base ∧
        closing.is .separator ")" = true

/-- The tokens of several operands, with commas between them, and the values. -/
def Listed (first : Bool) : (shapes : List Shape) → List Token → Values shapes → Prop
  | [], ts, () => ts = []
  | shape :: shapes, ts, (v, vs) => ∃ lead read rest, ts = lead ++ (read ++ rest) ∧
      Lead first lead ∧ Written shape read v ∧ Listed false shapes rest vs

/-! ## Readers of one token -/

theorem next_eq_ok : next head ts = .ok (t, rest) ↔ ts = t :: rest := by
  cases ts with
  | nil => simp [next]
  | cons u us => simp [next]

theorem registerOf_eq_ok {r : Isa.Register} : registerOf t = .ok r ↔
    t.kind = .register ∧ Isa.Register.ofName? t.text = some r := by
  rw [registerOf]
  split
  · rename_i s hKind hName
    simp [hKind, hName]
  · rename_i hOther
    constructor
    · rintro ⟨⟩
    · rintro ⟨hKind, hName⟩
      exact absurd hName (hOther r hKind)

theorem immediateOf_eq_ok {v : Immediate} : immediateOf t = .ok v ↔
    (t.kind = .integerConstant ∨ t.kind = .characterLiteral) ∧
        (∃ value, t.intValue? = some value ∧ v = .literal value) ∨
      (t.kind = .identifier ∨ t.kind = .mnemonic) ∧ v = .symbol t.text := by
  rw [immediateOf]
  cases hKind : t.kind with
  | integerConstant | characterLiteral =>
    cases hValue : t.intValue? <;> simp [immediate?, hKind, hValue, badOperand, eq_comm]
  | identifier | mnemonic => simp [immediate?, hKind, eq_comm]
  | _ => simp [immediate?, hKind, badOperand]

theorem expect_eq_ok {separator : String} : expect head separator ts = .ok rest ↔
    ∃ t, ts = t :: rest ∧ t.is .separator separator = true := by
  rw [expect, bind_eq_ok]
  constructor
  · rintro ⟨⟨t, us⟩, hNext, hRest⟩
    dsimp only at hRest
    split at hRest
    · rename_i hIs
      cases pure_eq_ok.mp hRest
      exact ⟨t, next_eq_ok.mp hNext, hIs⟩
    · cases hRest
  · rintro ⟨t, hTokens, hIs⟩
    refine ⟨(t, rest), next_eq_ok.mpr hTokens, ?_⟩
    dsimp only
    rw [if_pos hIs]
    rfl

theorem operand_eq_ok : operand head first ts = .ok (t, rest) ↔
    ∃ lead, Lead first lead ∧ ts = lead ++ t :: rest := by
  cases first with
  | true =>
    have hNext : operand head true ts = next head ts := rfl
    simp [Lead, hNext, next_eq_ok]
  | false =>
    have hExpect : operand head false ts = expect head "," ts >>= next head := rfl
    simp only [hExpect, bind_eq_ok, Lead, Bool.false_eq_true, if_false, expect_eq_ok, next_eq_ok]
    constructor
    · rintro ⟨_, ⟨comma, rfl, hComma⟩, rfl⟩
      exact ⟨[comma], ⟨comma, rfl, hComma⟩, rfl⟩
    · rintro ⟨_, ⟨comma, rfl, hComma⟩, rfl⟩
      exact ⟨_, ⟨comma, rfl, hComma⟩, rfl⟩

theorem finish_eq_ok : finish ts = .ok () ↔ ts = [] := by
  cases ts with
  | nil => simp [finish]
  | cons t ts => simp [finish, unexpected]

/-! ## Readers of operands -/

theorem readImmediate_eq_ok {v : Immediate} : readImmediate head first ts = .ok (v, rest) ↔
    ∃ lead t, Lead first lead ∧ ts = lead ++ t :: rest ∧ immediateOf t = .ok v := by
  rw [readImmediate, bind_eq_ok]
  constructor
  · rintro ⟨⟨t, us⟩, hOperand, hRest⟩
    obtain ⟨w, hImmediate, hPure⟩ := bind_eq_ok.mp hRest
    cases pure_eq_ok.mp hPure
    obtain ⟨lead, hLead, hTokens⟩ := operand_eq_ok.mp hOperand
    exact ⟨lead, t, hLead, hTokens, hImmediate⟩
  · rintro ⟨lead, t, hLead, hTokens, hImmediate⟩
    refine ⟨(t, rest), operand_eq_ok.mpr ⟨lead, hLead, hTokens⟩, ?_⟩
    exact bind_eq_ok.mpr ⟨v, hImmediate, rfl⟩

theorem immediateOf_ne_ok_of_is {separator : String} {v : Immediate}
    (hIs : t.is .separator separator = true) : immediateOf t ≠ .ok v := by
  rw [Token.is, Bool.and_eq_true, beq_iff_eq] at hIs
  simp [immediateOf_eq_ok, hIs.1]

/-- The base register of a memory operand, between its parentheses. -/
theorem readBase_eq_ok {offset : Immediate} {v : Immediate × Isa.Register} :
    (do
      let (t, ts) ← next head ts
      let base ← registerOf t
      let ts ← expect head ")" ts
      return ((offset, base), ts) : Except Error _) = .ok (v, rest) ↔
    ∃ t closing, ts = t :: closing :: rest ∧ v.1 = offset ∧ registerOf t = .ok v.2 ∧
      closing.is .separator ")" = true := by
  rw [bind_eq_ok]
  constructor
  · rintro ⟨⟨t, us⟩, hNext, hRest⟩
    obtain ⟨base, hBase, hRest⟩ := bind_eq_ok.mp hRest
    obtain ⟨vs, hClose, hPure⟩ := bind_eq_ok.mp hRest
    cases pure_eq_ok.mp hPure
    obtain ⟨closing, rfl, hClosing⟩ := expect_eq_ok.mp hClose
    exact ⟨t, closing, next_eq_ok.mp hNext, rfl, hBase, hClosing⟩
  · rintro ⟨t, closing, hTokens, rfl, hBase, hClosing⟩
    refine ⟨_, next_eq_ok.mpr hTokens, bind_eq_ok.mpr ⟨v.2, hBase, ?_⟩⟩
    exact bind_eq_ok.mpr ⟨rest, expect_eq_ok.mpr ⟨closing, rfl, hClosing⟩, rfl⟩

theorem readMemory_eq_ok {v : Immediate × Isa.Register} :
    readMemory head first ts = .ok (v, rest) ↔
      ∃ lead read, Lead first lead ∧ ts = lead ++ (read ++ rest) ∧ Written .memory read v := by
  rw [readMemory, bind_eq_ok]
  constructor
  · rintro ⟨⟨t, us⟩, hOperand, hRest⟩
    obtain ⟨lead, hLead, rfl⟩ := operand_eq_ok.mp hOperand
    dsimp only at hRest
    split at hRest
    · rename_i hOpen
      obtain ⟨base, closing, rfl, hOffset, hBase, hClose⟩ := readBase_eq_ok.mp hRest
      exact ⟨lead, [t, base, closing], hLead, rfl,
        [], t, base, closing, rfl, Or.inl ⟨rfl, hOffset⟩, hOpen, hBase, hClose⟩
    · obtain ⟨_, hImmediate, hBehind⟩ := bind_eq_ok.mp hRest
      obtain ⟨_, hExpect, hBase⟩ := bind_eq_ok.mp hBehind
      obtain ⟨base, closing, rfl, hOffset, hBase, hClose⟩ := readBase_eq_ok.mp hBase
      obtain ⟨opening, rfl, hOpen⟩ := expect_eq_ok.mp hExpect
      have hFront : immediateOf t = .ok v.1 := hImmediate.trans (congrArg Except.ok hOffset.symm)
      exact ⟨lead, [t, opening, base, closing], hLead, rfl,
        [t], opening, base, closing, rfl, Or.inr ⟨t, rfl, hFront⟩, hOpen, hBase, hClose⟩
  · rintro ⟨lead, read, hLead, rfl, front, opening, base, closing, rfl, hOffset, hOpen, hBase,
      hClose⟩
    rcases hOffset with ⟨rfl, hZero⟩ | ⟨t, rfl, hImmediate⟩
    · refine ⟨_, operand_eq_ok.mpr ⟨lead, hLead, rfl⟩, ?_⟩
      dsimp only
      rw [if_pos hOpen, ← hZero]
      exact readBase_eq_ok.mpr ⟨base, closing, rfl, rfl, hBase, hClose⟩
    · refine ⟨_, operand_eq_ok.mpr ⟨lead, hLead, rfl⟩, ?_⟩
      have hOther : ¬t.is .separator "(" = true :=
        fun hIs => immediateOf_ne_ok_of_is hIs hImmediate
      dsimp only
      rw [if_neg hOther]
      refine bind_eq_ok.mpr ⟨v.1, hImmediate, bind_eq_ok.mpr ⟨base :: closing :: rest, ?_, ?_⟩⟩
      · exact expect_eq_ok.mpr ⟨opening, rfl, hOpen⟩
      · exact readBase_eq_ok.mpr ⟨base, closing, rfl, rfl, hBase, hClose⟩

theorem readShape_eq_ok {shape : Shape} {v : shape.Value} :
    readShape head first ts shape = .ok (v, rest) ↔
      ∃ lead read, Lead first lead ∧ ts = lead ++ (read ++ rest) ∧ Written shape read v := by
  cases shape with
  | register =>
    rw [readShape, bind_eq_ok]
    constructor
    · rintro ⟨⟨t, us⟩, hOperand, hRest⟩
      obtain ⟨r, hRegister, hPure⟩ := bind_eq_ok.mp hRest
      cases pure_eq_ok.mp hPure
      obtain ⟨lead, hLead, hTokens⟩ := operand_eq_ok.mp hOperand
      exact ⟨lead, [t], hLead, hTokens, t, rfl, hRegister⟩
    · rintro ⟨lead, _, hLead, hTokens, t, rfl, hRegister⟩
      refine ⟨(t, rest), operand_eq_ok.mpr ⟨lead, hLead, hTokens⟩, ?_⟩
      exact bind_eq_ok.mpr ⟨v, hRegister, rfl⟩
  | immediate =>
    rw [readShape, readImmediate_eq_ok]
    constructor
    · rintro ⟨lead, t, hLead, hTokens, hImmediate⟩
      exact ⟨lead, [t], hLead, hTokens, t, rfl, hImmediate⟩
    · rintro ⟨lead, _, hLead, hTokens, t, rfl, hImmediate⟩
      exact ⟨lead, t, hLead, hTokens, hImmediate⟩
  | memory => exact readMemory_eq_ok

theorem readShapes_eq_ok (shapes : List Shape) :
    ∀ {first : Bool} {ts : List Token} {vs : Values shapes},
      readShapes head first ts shapes = .ok (vs, rest) ↔
        ∃ read, ts = read ++ rest ∧ Listed first shapes read vs := by
  induction shapes with
  | nil =>
    intro first ts vs
    constructor
    · intro hRead
      cases hRead
      exact ⟨[], rfl, rfl⟩
    · rintro ⟨_, rfl, rfl⟩
      rfl
  | cons shape shapes ih =>
    intro first ts vs
    rw [readShapes, bind_eq_ok]
    constructor
    · rintro ⟨⟨v, us⟩, hShape, hRest⟩
      obtain ⟨⟨ws, _⟩, hShapes, hPure⟩ := bind_eq_ok.mp hRest
      cases pure_eq_ok.mp hPure
      obtain ⟨lead, read, hLead, rfl, hWritten⟩ := readShape_eq_ok.mp hShape
      obtain ⟨more, rfl, hListed⟩ := ih.mp hShapes
      refine ⟨lead ++ (read ++ more), ?_, lead, read, more, rfl, hLead, hWritten, hListed⟩
      rw [List.append_assoc, List.append_assoc]
    · rintro ⟨_, rfl, lead, read, more, rfl, hLead, hWritten, hListed⟩
      refine ⟨(vs.1, more ++ rest), readShape_eq_ok.mpr ⟨lead, read, hLead, ?_, hWritten⟩, ?_⟩
      · rw [List.append_assoc, List.append_assoc]
      · exact bind_eq_ok.mpr ⟨(vs.2, rest), ih.mpr ⟨more, rfl, hListed⟩, rfl⟩

theorem mnemonic_build (m : Isa.Mnemonic) (values : Values (shapes m.format)) :
    (build m m.format values).mnemonic = m := by
  cases m <;> rfl

end Operands

/-- An instruction is parsed exactly from the operands of its format, and nothing else is left. -/
theorem Instruction.parse_eq_ok {m : Isa.Mnemonic} {head : Position} {ts : List Token}
    {i : Instruction} : Instruction.parse m head ts = .ok i ↔
      ∃ values, Operands.Listed true (Operands.shapes m.format) ts values ∧
        Operands.build m m.format values = i := by
  rw [Instruction.parse, bind_eq_ok]
  constructor
  · rintro ⟨⟨values, us⟩, hRead, hRest⟩
    obtain ⟨_, hFinish, hPure⟩ := bind_eq_ok.mp hRest
    obtain rfl := Operands.finish_eq_ok.mp hFinish
    obtain ⟨read, rfl, hListed⟩ := (Operands.readShapes_eq_ok _).mp hRead
    rw [List.append_nil]
    exact ⟨values, hListed, pure_eq_ok.mp hPure⟩
  · rintro ⟨values, hListed, rfl⟩
    refine ⟨(values, []), (Operands.readShapes_eq_ok _).mpr ⟨ts, ?_, hListed⟩, rfl⟩
    rw [List.append_nil]

end MipsAsm
