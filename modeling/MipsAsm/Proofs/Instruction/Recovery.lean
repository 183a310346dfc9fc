import MipsAsm.Proofs.Instruction.Range

/-! # Words determine instructions

Two parsed instructions with the same word at the same address are the same operation: they have
the same mnemonic, the same registers in the same places, and constants that denote the same
number. Only `lui`, which takes signed and unsigned numbers alike, tells its constant up to a
multiple of the range of a half-word. Instructions that stand for others are left aside.
-/

namespace MipsAsm

open Isa (Mnemonic Register Format Fields Encoding)
open Isa.Fields (registerFields immediateFields jumpFields WordOf)
open Operands (Values shapes build)

namespace Instruction

/-- The registers in the order in which they are written. -/
def registers : Instruction → List Register
  | reg3 _ a b c | shiftVar _ a b c => [a, b, c]
  | shift _ a b _ | mulDiv _ a b | imm _ a b _ | mem _ a _ b | branch _ a b _ | move a b => [a, b]
  | moveFrom _ a | jumpReg _ a | upper a _ | branchZero _ a _ | loadImm a _ | loadAddr a _ => [a]
  | jump _ _ | bare _ | branchAlways _ => []

end Instruction

/-- Constants that the word of an operation does not tell apart. -/
def SameConstant (labels : LabelTable) (m : Mnemonic) (c d : Immediate) : Prop :=
  ∃ v w, c.Denotes labels v ∧ d.Denotes labels w ∧
    if m = .lui then v % 0x10000 = w % 0x10000 else v = w

/-- The same operation on the same operands. -/
structure SameOperation (labels : LabelTable) (i j : Instruction) : Prop where
  mnemonic : i.mnemonic = j.mnemonic
  registers : i.registers = j.registers
  constants : Option.Rel (SameConstant labels i.mnemonic) i.constant? j.constant?

/-! ## Fields -/

variable {m : Mnemonic} {pc : UInt32} {v w : Int}

theorem registerFields_inj {rd rd' rs rs' rt rt' : Register} {shamt shamt' : UInt32}
    (hSame : registerFields m rd rs rt shamt = registerFields m rd' rs' rt' shamt') :
    rd = rd' ∧ rs = rs' ∧ rt = rt' ∧ shamt.toUInt8 = shamt'.toUInt8 := by
  obtain ⟨hRs, hRt, hRd, hShamt, _⟩ := Fields.register.inj hSame
  exact ⟨hRd, hRs, hRt, hShamt⟩

theorem encoding_ne_condition (hFormat : m.format ≠ .branchZero) (cond : UInt8) :
    m.encoding ≠ .condition cond := by
  cases m with
  | bltz | bgez => exact absurd rfl hFormat
  | _ => rintro ⟨⟩

/-- A condition hides the second register, but instructions with conditions have only one. -/
theorem immediateFields_inj {rt rt' rs rs' : Register} {k k' : UInt16}
    (hSame : immediateFields m rt rs k = immediateFields m rt' rs' k') :
    (m.format ≠ .branchZero → rt = rt') ∧ rs = rs' ∧ k = k' := by
  by_cases hCondition : ∃ cond, m.encoding = .condition cond
  · obtain ⟨cond, hEncoding⟩ := hCondition
    simp only [immediateFields, hEncoding] at hSame
    obtain ⟨_, hRs, _, hImm⟩ := Fields.immediate.inj hSame
    exact ⟨fun hFormat => absurd hEncoding (encoding_ne_condition hFormat cond), hRs, hImm⟩
  · have hPlain : ∀ rt rs k, immediateFields m rt rs k =
        .immediate m.encoding.selector rs (UInt8.ofNat rt.number) k := by
      intro rt rs k
      rw [immediateFields]
      split
      · rename_i cond hEncoding
        exact absurd ⟨cond, hEncoding⟩ hCondition
      · rfl
    rw [hPlain, hPlain] at hSame
    obtain ⟨_, hRs, hRt, hImm⟩ := Fields.immediate.inj hSame
    refine ⟨fun _ => ?_, hRs, hImm⟩
    have hNumber := congrArg UInt8.toNat hRt
    simp only [UInt8.toNat_ofNat'] at hNumber
    exact congrArg Register.mk (Fin.ext (by omega))

theorem jumpFields_inj {index index' : UInt32} (hSame : jumpFields m index = jumpFields m index') :
    index = index' :=
  (Fields.jump.inj hSame).2

theorem ofInt16_inj (hSame : UInt16.ofInt v = UInt16.ofInt w) : v % 0x10000 = w % 0x10000 := by
  rw [← toNat_ofInt16, hSame, toNat_ofInt16]

theorem eq_of_amount_eq (hFirst : Fits pc .shift v) (hSecond : Fits pc .shift w)
    (hSame : (UInt32.ofInt v).toUInt8 = (UInt32.ofInt w).toUInt8) : v = w := by
  have hV := toNat_ofInt32 v
  have hW := toNat_ofInt32 w
  have hByte := congrArg UInt8.toNat hSame
  rw [UInt32.toNat_toUInt8, UInt32.toNat_toUInt8] at hByte
  rw [Fits] at hFirst hSecond
  omega

theorem eq_of_offsetField_eq (hFirst : Fits pc .branch v) (hSecond : Fits pc .branch w)
    (hSame : offsetField pc v = offsetField pc w) : v = w := by
  obtain ⟨⟨_, hV⟩, hLower, hUpper⟩ := hFirst
  obtain ⟨⟨_, hW⟩, hLower', hUpper'⟩ := hSecond
  have hOffset := ofInt16_inj hSame
  omega

theorem eq_of_indexField_eq (hFirst : Fits pc .jump v) (hSecond : Fits pc .jump w)
    (hSame : indexField v = indexField w) : v = w := by
  obtain ⟨⟨hBounds, hV⟩, hRegion⟩ := hFirst
  obtain ⟨⟨hBounds', hW⟩, hRegion'⟩ := hSecond
  have hIndex := toNat_indexField v
  rw [hSame, toNat_indexField] at hIndex
  omega

theorem eq_of_signed (hFirst : -0x8000 ≤ v ∧ v ≤ 0x7FFF) (hSecond : -0x8000 ≤ w ∧ w ≤ 0x7FFF)
    (hSame : UInt16.ofInt v = UInt16.ofInt w) : v = w := by
  have hRest := ofInt16_inj hSame
  omega

theorem eq_of_unsigned (hFirst : 0 ≤ v ∧ v ≤ 0xFFFF) (hSecond : 0 ≤ w ∧ w ≤ 0xFFFF)
    (hSame : UInt16.ofInt v = UInt16.ofInt w) : v = w := by
  have hRest := ofInt16_inj hSame
  omega

/-! ## Operands -/

theorem sameConstant_of_eq {labels : LabelTable} {c d : Immediate} (hFirst : c.Denotes labels v)
    (hSecond : d.Denotes labels w) (hSame : v = w) : SameConstant labels m c d := by
  subst hSame
  refine ⟨v, v, hFirst, hSecond, ?_⟩
  split <;> rfl

theorem shape?_of_real (hReal : m.encoding ≠ .pseudo) : m.encoding.shape? = m.format.shape? := by
  apply Mnemonic.shape?_encoding
  rintro rfl
  exact hReal rfl

theorem shape?_ne_none (hReal : m.encoding ≠ .pseudo) : m.format.shape? ≠ none := by
  rw [← shape?_of_real hReal]
  cases hEncoding : m.encoding with
  | pseudo => exact absurd hEncoding hReal
  | _ => rintro ⟨⟩

theorem eq_lui_of_format (hFormat : m.format = .upper) : m = .lui := by
  cases m with
  | lui => rfl
  | _ => cases hFormat

/-- The word of an operation has the operation's own encoding. -/
theorem wordOf_layout {format : Format} (hFormat : m.format = format)
    (hReal : m.encoding ≠ .pseudo) (values : Values (shapes format)) (hFits : Fits pc format v) :
    ∃ f, (build m format values).layout pc v = [f] ∧ WordOf m f := by
  have hShape : m.encoding.shape? = format.shape? := hFormat ▸ shape?_of_real hReal
  cases format with
  | reg3 | shiftVar | mulDiv | moveFrom | jumpReg | bare =>
    exact ⟨_, rfl, Fields.wordOf_registerFields hShape _ _ _ (by decide)⟩
  | shift =>
    have hAmount := toNat_ofInt32 v
    rw [Fits] at hFits
    exact ⟨_, rfl, Fields.wordOf_registerFields hShape _ _ _ (by omega)⟩
  | immSigned | immUnsigned | mem | branch | branchZero =>
    exact ⟨_, rfl, Fields.wordOf_immediateFields hShape _ _ _⟩
  | upper =>
    obtain rfl := eq_lui_of_format hFormat
    exact ⟨_, rfl, Fields.wordOf_immediateFields hShape _ _ _⟩
  | jump =>
    have hIndex := toNat_indexField v
    exact ⟨_, rfl, Fields.wordOf_jumpFields hShape (by omega)⟩
  | move | loadImm | loadAddr | branchAlways =>
    exact absurd (congrArg Format.shape? hFormat) (shape?_ne_none hReal)

/-- The formats place their operands differently, so each is read on its own. -/
theorem sameOperands_of_layout_eq {labels : LabelTable} {format : Format}
    (hFormat : m.format = format) (hReal : m.encoding ≠ .pseudo)
    (values values' : Values (shapes format))
    (hValue : ∀ c ∈ (build m format values).constant?, c.Denotes labels v)
    (hValue' : ∀ c ∈ (build m format values').constant?, c.Denotes labels w)
    (hFits : Fits pc format v) (hFits' : Fits pc format w)
    (hSame : (build m format values).layout pc v = (build m format values').layout pc w) :
    (build m format values).registers = (build m format values').registers ∧
      Option.Rel (SameConstant labels m) (build m format values).constant?
        (build m format values').constant? := by
  cases format with
  | reg3 =>
    obtain ⟨rd, rs, rt, _⟩ := values
    obtain ⟨rd', rs', rt', _⟩ := values'
    obtain ⟨rfl, rfl, rfl, _⟩ := registerFields_inj (List.cons.inj hSame).1
    exact ⟨rfl, .none⟩
  | shiftVar =>
    obtain ⟨rd, rt, rs, _⟩ := values
    obtain ⟨rd', rt', rs', _⟩ := values'
    obtain ⟨rfl, rfl, rfl, _⟩ := registerFields_inj (List.cons.inj hSame).1
    exact ⟨rfl, .none⟩
  | mulDiv =>
    obtain ⟨rs, rt, _⟩ := values
    obtain ⟨rs', rt', _⟩ := values'
    obtain ⟨_, rfl, rfl, _⟩ := registerFields_inj (List.cons.inj hSame).1
    exact ⟨rfl, .none⟩
  | moveFrom =>
    obtain ⟨rd, _⟩ := values
    obtain ⟨rd', _⟩ := values'
    obtain ⟨rfl, _⟩ := registerFields_inj (List.cons.inj hSame).1
    exact ⟨rfl, .none⟩
  | jumpReg =>
    obtain ⟨rs, _⟩ := values
    obtain ⟨rs', _⟩ := values'
    obtain ⟨_, rfl, _⟩ := registerFields_inj (List.cons.inj hSame).1
    exact ⟨rfl, .none⟩
  | bare => exact ⟨rfl, .none⟩
  | shift =>
    obtain ⟨rd, rt, c, _⟩ := values
    obtain ⟨rd', rt', c', _⟩ := values'
    obtain ⟨rfl, _, rfl, hShamt⟩ := registerFields_inj (List.cons.inj hSame).1
    exact ⟨rfl, .some (sameConstant_of_eq (hValue c rfl) (hValue' c' rfl)
      (eq_of_amount_eq hFits hFits' hShamt))⟩
  | immSigned =>
    obtain ⟨rt, rs, c, _⟩ := values
    obtain ⟨rt', rs', c', _⟩ := values'
    obtain ⟨hRt, rfl, hImm⟩ := immediateFields_inj (List.cons.inj hSame).1
    obtain rfl := hRt (by rw [hFormat]; decide)
    exact ⟨rfl, .some (sameConstant_of_eq (hValue c rfl) (hValue' c' rfl)
      (eq_of_signed hFits hFits' hImm))⟩
  | immUnsigned =>
    obtain ⟨rt, rs, c, _⟩ := values
    obtain ⟨rt', rs', c', _⟩ := values'
    obtain ⟨hRt, rfl, hImm⟩ := immediateFields_inj (List.cons.inj hSame).1
    obtain rfl := hRt (by rw [hFormat]; decide)
    exact ⟨rfl, .some (sameConstant_of_eq (hValue c rfl) (hValue' c' rfl)
      (eq_of_unsigned hFits hFits' hImm))⟩
  | upper =>
    obtain ⟨rt, c, _⟩ := values
    obtain ⟨rt', c', _⟩ := values'
    obtain rfl := eq_lui_of_format hFormat
    obtain ⟨hRt, _, hImm⟩ := immediateFields_inj (List.cons.inj hSame).1
    obtain rfl := hRt (by decide)
    exact ⟨rfl, .some ⟨v, w, hValue c rfl, hValue' c' rfl, ofInt16_inj hImm⟩⟩
  | mem =>
    obtain ⟨rt, ⟨c, base⟩, _⟩ := values
    obtain ⟨rt', ⟨c', base'⟩, _⟩ := values'
    obtain ⟨hRt, rfl, hImm⟩ := immediateFields_inj (List.cons.inj hSame).1
    obtain rfl := hRt (by rw [hFormat]; decide)
    exact ⟨rfl, .some (sameConstant_of_eq (hValue c rfl) (hValue' c' rfl)
      (eq_of_signed hFits hFits' hImm))⟩
  | branch =>
    obtain ⟨rs, rt, c, _⟩ := values
    obtain ⟨rs', rt', c', _⟩ := values'
    obtain ⟨hRt, rfl, hImm⟩ := immediateFields_inj (List.cons.inj hSame).1
    obtain rfl := hRt (by rw [hFormat]; decide)
    exact ⟨rfl, .some (sameConstant_of_eq (hValue c rfl) (hValue' c' rfl)
      (eq_of_offsetField_eq hFits hFits' hImm))⟩
  | branchZero =>
    obtain ⟨rs, c, _⟩ := values
    obtain ⟨rs', c', _⟩ := values'
    obtain ⟨_, rfl, hImm⟩ := immediateFields_inj (List.cons.inj hSame).1
    exact ⟨rfl, .some (sameConstant_of_eq (hValue c rfl) (hValue' c' rfl)
      (eq_of_offsetField_eq hFits hFits' hImm))⟩
  | jump =>
    obtain ⟨c, _⟩ := values
    obtain ⟨c', _⟩ := values'
    have hIndex := jumpFields_inj (List.cons.inj hSame).1
    exact ⟨rfl, .some (sameConstant_of_eq (hValue c rfl) (hValue' c' rfl)
      (eq_of_indexField_eq hFits hFits' hIndex))⟩
  | move | loadImm | loadAddr | branchAlways =>
    exact absurd (congrArg Format.shape? hFormat) (shape?_ne_none hReal)

/-- Parsed instructions that stand for themselves and have the same word at an address are the same
operation, and every field of the word can be read back from its own bits. -/
theorem sameOperation_of_words_eq {m₁ m₂ : Mnemonic} {head₁ head₂ : Position} {ts₁ ts₂ : List Token}
    {i₁ i₂ : Instruction} (hParse₁ : Instruction.parse m₁ head₁ ts₁ = .ok i₁)
    (hParse₂ : Instruction.parse m₂ head₂ ts₂ = .ok i₂) (hReal₁ : i₁.mnemonic.encoding ≠ .pseudo)
    (hReal₂ : i₂.mnemonic.encoding ≠ .pseudo) {labels : LabelTable} {ws₁ ws₂ : List Fields}
    (hEncode₁ : i₁.encode pc labels = .ok ws₁) (hEncode₂ : i₂.encode pc labels = .ok ws₂)
    (hWords : ws₁.map Fields.toWord = ws₂.map Fields.toWord) :
    SameOperation labels i₁ i₂ ∧ ∃ f, ws₁ = [f] ∧ ws₂ = [f] ∧ Fields.ofWord f.toWord = f := by
  obtain ⟨values₁, _, rfl⟩ := Instruction.parse_eq_ok.mp hParse₁
  obtain ⟨values₂, _, rfl⟩ := Instruction.parse_eq_ok.mp hParse₂
  rw [Operands.mnemonic_build] at hReal₁ hReal₂
  obtain ⟨v, hValue₁, hFits₁, rfl⟩ := (Instruction.encode_eq_ok values₁).mp hEncode₁
  obtain ⟨w, hValue₂, hFits₂, rfl⟩ := (Instruction.encode_eq_ok values₂).mp hEncode₂
  obtain ⟨f, hLayout₁, hWord₁⟩ := wordOf_layout rfl hReal₁ values₁ hFits₁
  obtain ⟨g, hLayout₂, hWord₂⟩ := wordOf_layout rfl hReal₂ values₂ hFits₂
  rw [hLayout₁, hLayout₂] at hWords
  obtain ⟨rfl, rfl⟩ := hWord₁.eq_of_toWord_eq hWord₂ hReal₁ (List.cons.inj hWords).1
  obtain ⟨hRegisters, hConstants⟩ := sameOperands_of_layout_eq rfl hReal₁ values₁ values₂ hValue₁
    hValue₂ hFits₁ hFits₂ (hLayout₁.trans hLayout₂.symm)
  refine ⟨⟨?_, hRegisters, ?_⟩, f, hLayout₁, hLayout₂, Fields.ofWord_toWord hWord₁.proper⟩
  · rw [Operands.mnemonic_build, Operands.mnemonic_build]
  · rw [Operands.mnemonic_build]
    exact hConstants

/-- Two spellings of one word: the register by name and by number, the constant with a sign and
without. -/
theorem sameOperation_of_words_eq_upper :
    let i := Instruction.upper ⟨8⟩ (.literal (-1))
    let j := Instruction.upper ⟨8⟩ (.literal 0xFFFF)
    (∃ ws, i.encode 0 .empty = .ok ws ∧ j.encode 0 .empty = .ok ws) ∧ i ≠ j ∧
      SameOperation .empty i j := by
  intro i j
  have hFirst : Instruction.parse .lui ⟨0, 0, 0⟩ [⟨.register, "$t0", ⟨0, 0, 4⟩⟩,
      ⟨.separator, ",", ⟨0, 0, 7⟩⟩, ⟨.integerConstant, "-1", ⟨0, 0, 9⟩⟩] = .ok i :=
    rfl
  have hSecond : Instruction.parse .lui ⟨0, 1, 0⟩ [⟨.register, "$8", ⟨0, 1, 4⟩⟩,
      ⟨.separator, ",", ⟨0, 1, 6⟩⟩, ⟨.integerConstant, "0xFFFF", ⟨0, 1, 8⟩⟩] = .ok j :=
    rfl
  have hEncode : i.encode 0 .empty = .ok [.immediate 0x0F .zero 8 0xFFFF] :=
    rfl
  have hEncode' : j.encode 0 .empty = .ok [.immediate 0x0F .zero 8 0xFFFF] :=
    rfl
  exact ⟨⟨_, hEncode, hEncode'⟩, by decide,
    (sameOperation_of_words_eq hFirst hSecond (by decide) (by decide) hEncode hEncode' rfl).1⟩

end MipsAsm
