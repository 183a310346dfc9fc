import MipsAsm.Isa.Word

/-! # Machine words and their fields

The fields of a word stand side by side: as a number, a word is the sum of its fields, each times
the weight of its place. So a word can be read field by field, and reading gives back the fields
that it was made of, if each of them fits its place and the opcode tells the shape. All words made
for a mnemonic are of that kind, and they tell which mnemonic it was.
-/

namespace MipsAsm.Isa

/-! ## Numbers in places -/

namespace Fields

/-- A number shifted into place. -/
theorem toNat_shiftLeft_of_lt {x k : UInt32} {n : Nat} (weight : Nat)
    (hWeight : k.toNat < 32 ∧ 1 <<< k.toNat = weight) (hPart : x.toNat = n)
    (hFits : n * weight < 0x100000000) : (x <<< k).toNat = n * weight := by
  have hShift : n <<< k.toNat = n * weight := by
    rw [← hWeight.2, Nat.one_shiftLeft, Nat.shiftLeft_eq]
  rw [UInt32.toNat_shiftLeft, Nat.mod_eq_of_lt hWeight.1, hPart, hShift, Nat.mod_eq_of_lt hFits]

/-- Numbers that share no bits are added up. -/
theorem toNat_or_of_lt {x y : UInt32} {a b : Nat} (k weight : Nat) (hWeight : 1 <<< k = weight)
    (hHigh : x.toNat = a) (hLow : y.toNat = b) (hMultiple : a % weight = 0) (hSmall : b < weight) :
    (x ||| y).toNat = a + b := by
  rw [← hWeight, Nat.one_shiftLeft] at hMultiple hSmall
  obtain ⟨c, rfl⟩ := Nat.dvd_of_mod_eq_zero hMultiple
  rw [UInt32.toNat_or, hHigh, hLow, Nat.two_pow_add_eq_or_of_lt hSmall]

theorem toNat_registerBits (r : Register) : (registerBits r).toNat = r.number :=
  UInt32.toNat_ofNat_of_lt' (Nat.lt_trans r.number.isLt (by decide))

theorem toNat_rs (rs : Register) : (registerBits rs <<< 21).toNat = rs.number * 0x200000 :=
  toNat_shiftLeft_of_lt 0x200000 (by decide) (toNat_registerBits rs) (by omega)

theorem toNat_opcode (op : UInt8) :
    ((op.toUInt32 &&& 0x3F) <<< 26).toNat = op.toNat % 0x40 * 0x4000000 := by
  have hOpcode : (op.toUInt32 &&& 0x3F).toNat = op.toNat % 0x40 :=
    Nat.and_two_pow_sub_one_eq_mod op.toNat 6
  exact toNat_shiftLeft_of_lt 0x4000000 (by decide) hOpcode (by omega)

theorem toNat_toWord_register (rs rt rd : Register) (shamt funct : UInt8) :
    (register rs rt rd shamt funct).toWord.toNat =
      rs.number * 0x200000 + rt.number * 0x10000 + rd.number * 0x800 +
        shamt.toNat % 0x20 * 0x40 + funct.toNat % 0x40 := by
  have hRt : (registerBits rt <<< 16).toNat = rt.number * 0x10000 :=
    toNat_shiftLeft_of_lt 0x10000 (by decide) (toNat_registerBits rt) (by omega)
  have hRd : (registerBits rd <<< 11).toNat = rd.number * 0x800 :=
    toNat_shiftLeft_of_lt 0x800 (by decide) (toNat_registerBits rd) (by omega)
  have hAmount : (shamt.toUInt32 &&& 0x1F).toNat = shamt.toNat % 0x20 :=
    Nat.and_two_pow_sub_one_eq_mod shamt.toNat 5
  have hShamt : ((shamt.toUInt32 &&& 0x1F) <<< 6).toNat = shamt.toNat % 0x20 * 0x40 :=
    toNat_shiftLeft_of_lt 0x40 (by decide) hAmount (by omega)
  have hFunct : (funct.toUInt32 &&& 0x3F).toNat = funct.toNat % 0x40 :=
    Nat.and_two_pow_sub_one_eq_mod funct.toNat 6
  have hTwo := toNat_or_of_lt 21 0x200000 rfl (toNat_rs rs) hRt (by omega) (by omega)
  have hThree := toNat_or_of_lt 16 0x10000 rfl hTwo hRd (by omega) (by omega)
  have hFour := toNat_or_of_lt 11 0x800 rfl hThree hShamt (by omega) (by omega)
  exact toNat_or_of_lt 6 0x40 rfl hFour hFunct (by omega) (by omega)

theorem toNat_toWord_immediate (op : UInt8) (rs : Register) (rt : UInt8) (imm : UInt16) :
    (immediate op rs rt imm).toWord.toNat =
      op.toNat % 0x40 * 0x4000000 + rs.number * 0x200000 + rt.toNat % 0x20 * 0x10000 +
        imm.toNat := by
  have hCode : (rt.toUInt32 &&& 0x1F).toNat = rt.toNat % 0x20 :=
    Nat.and_two_pow_sub_one_eq_mod rt.toNat 5
  have hRt : ((rt.toUInt32 &&& 0x1F) <<< 16).toNat = rt.toNat % 0x20 * 0x10000 :=
    toNat_shiftLeft_of_lt 0x10000 (by decide) hCode (by omega)
  have hImm := imm.toNat_lt
  have hTwo := toNat_or_of_lt 26 0x4000000 rfl (toNat_opcode op) (toNat_rs rs) (by omega) (by omega)
  have hThree := toNat_or_of_lt 21 0x200000 rfl hTwo hRt (by omega) (by omega)
  exact toNat_or_of_lt 16 0x10000 rfl hThree imm.toNat_toUInt32 (by omega) (by omega)

theorem toNat_toWord_jump (op : UInt8) (index : UInt32) :
    (jump op index).toWord.toNat =
      op.toNat % 0x40 * 0x4000000 + index.toNat % 0x4000000 := by
  have hIndex : (index &&& 0x03FFFFFF).toNat = index.toNat % 0x4000000 :=
    Nat.and_two_pow_sub_one_eq_mod index.toNat 26
  exact toNat_or_of_lt 26 0x4000000 rfl (toNat_opcode op) hIndex (by omega) (by omega)

/-! ## Reading words -/

/-- The register whose number stands in the place of a weight. -/
def registerAt (w : UInt32) (weight : Nat) : Register :=
  ⟨⟨w.toNat / weight % 32, Nat.mod_lt _ (Nat.zero_lt_succ 31)⟩⟩

/-- Reads each field from its own bits. The opcode tells the shape: 0 is for register words, 2 and
3 are for jumps. -/
def ofWord (w : UInt32) : Fields :=
  let op := w.toNat / 0x4000000
  if op = 0 then
    .register (registerAt w 0x200000) (registerAt w 0x10000) (registerAt w 0x800)
      (UInt8.ofNat (w.toNat / 0x40 % 0x20)) (UInt8.ofNat (w.toNat % 0x40))
  else if op = 2 ∨ op = 3 then .jump (UInt8.ofNat op) (UInt32.ofNat (w.toNat % 0x4000000))
  else .immediate (UInt8.ofNat op) (registerAt w 0x200000) (UInt8.ofNat (w.toNat / 0x10000 % 0x20))
    (UInt16.ofNat (w.toNat % 0x10000))

/-- Every field fits its place, and the opcode belongs to the shape. -/
def Proper : Fields → Prop
  | register _ _ _ shamt funct => shamt.toNat < 0x20 ∧ funct.toNat < 0x40
  | immediate op _ rt _ => op.toNat < 0x40 ∧ rt.toNat < 0x20 ∧
      op.toNat ≠ 0 ∧ op.toNat ≠ 2 ∧ op.toNat ≠ 3
  | jump op index => (op.toNat = 2 ∨ op.toNat = 3) ∧ index.toNat < 0x4000000

theorem registerAt_eq {w : UInt32} {weight : Nat} {r : Register}
    (hNumber : w.toNat / weight % 32 = r.number) : registerAt w weight = r :=
  congrArg Register.mk (Fin.ext hNumber)

theorem ofWord_toWord {f : Fields} (hProper : f.Proper) : ofWord f.toWord = f := by
  cases f with
  | register rs rt rd shamt funct =>
    obtain ⟨hShamt, hFunct⟩ := hProper
    have hWord := toNat_toWord_register rs rt rd shamt funct
    generalize (register rs rt rd shamt funct).toWord = w at hWord
    have hAmount : w.toNat / 0x40 % 0x20 = shamt.toNat := by omega
    have hSelect : w.toNat % 0x40 = funct.toNat := by omega
    simp only [ofWord]
    rw [if_pos (by omega), registerAt_eq (r := rs) (by omega), registerAt_eq (r := rt) (by omega),
      registerAt_eq (r := rd) (by omega), hAmount, hSelect, UInt8.ofNat_toNat, UInt8.ofNat_toNat]
  | immediate op rs rt imm =>
    obtain ⟨hOp, hRt, hShape⟩ := hProper
    have hImm := imm.toNat_lt
    have hWord := toNat_toWord_immediate op rs rt imm
    generalize (immediate op rs rt imm).toWord = w at hWord
    have hOpcode : w.toNat / 0x4000000 = op.toNat := by omega
    have hCode : w.toNat / 0x10000 % 0x20 = rt.toNat := by omega
    have hValue : w.toNat % 0x10000 = imm.toNat := by omega
    simp only [ofWord]
    rw [hOpcode, if_neg hShape.1, if_neg (by omega), registerAt_eq (r := rs) (by omega), hCode,
      hValue, UInt8.ofNat_toNat, UInt8.ofNat_toNat, UInt16.ofNat_toNat]
  | jump op index =>
    obtain ⟨hShape, hIndex⟩ := hProper
    have hWord := toNat_toWord_jump op index
    generalize (jump op index).toWord = w at hWord
    have hOpcode : w.toNat / 0x4000000 = op.toNat := by omega
    have hLow : w.toNat % 0x4000000 = index.toNat := by omega
    simp only [ofWord]
    rw [hOpcode, if_neg (by omega), if_pos hShape, hLow, UInt8.ofNat_toNat, UInt32.ofNat_toNat]

end Fields

/-! ## Words of mnemonics -/

namespace Encoding

/-- The shape of the words that an encoding selects from. -/
def shape? : Encoding → Option WordShape
  | register _ => some .register
  | immediate _ | condition _ => some .immediate
  | jump _ => some .jump
  | pseudo => none

/-- The number that selects the operation. -/
def selector : Encoding → UInt8
  | register n | immediate n | condition n | jump n => n
  | pseudo => 0

/-- The selector fits its place, and the opcodes of the shapes are kept apart. -/
def Proper : Encoding → Prop
  | register funct => funct.toNat < 0x40
  | immediate op => 3 < op.toNat ∧ op.toNat < 0x40
  | condition cond => cond.toNat < 0x20
  | jump op => op.toNat = 2 ∨ op.toNat = 3
  | pseudo => True

end Encoding

/-- The shape of the single word that the operands of a format go to. -/
def Format.shape? : Format → Option WordShape
  | reg3 | shiftVar | shift | mulDiv | moveFrom | jumpReg | bare => some .register
  | immSigned | immUnsigned | upper | mem | branch | branchZero => some .immediate
  | jump => some .jump
  | move | loadImm | loadAddr | branchAlways => none

namespace Mnemonic

theorem proper_encoding (m : Mnemonic) : m.encoding.Proper := by
  cases m <;> simp [encoding, Encoding.Proper]

/-- The table of formats and that of encodings agree; only `nop`, which has no operands, borrows
the word of another operation. -/
theorem shape?_encoding {m : Mnemonic} (hNop : m ≠ .nop) :
    m.encoding.shape? = m.format.shape? := by
  cases m with
  | nop => exact absurd rfl hNop
  | _ => rfl

theorem eq_of_encoding_eq {m n : Mnemonic} (hReal : m.encoding ≠ .pseudo)
    (hSame : m.encoding = n.encoding) : m = n := by
  have hAll : ∀ m ∈ all, ∀ n ∈ all, m.encoding ≠ .pseudo → m.encoding = n.encoding → m = n := by
    decide +kernel
  exact hAll m m.mem_all n n.mem_all hReal hSame

end Mnemonic

namespace Fields

def registerFields (m : Mnemonic) (rd rs rt : Register) (shamt : UInt32) : Fields :=
  .register rs rt rd shamt.toUInt8 m.encoding.selector

def immediateFields (m : Mnemonic) (rt rs : Register) (imm : UInt16) : Fields :=
  match m.encoding with
  | .condition cond => .immediate 0x01 rs cond imm
  | e => .immediate e.selector rs (UInt8.ofNat rt.number) imm

def jumpFields (m : Mnemonic) (index : UInt32) : Fields :=
  .jump m.encoding.selector index

/-- The encoding that a word belongs to. -/
def encoding : Fields → Encoding
  | register _ _ _ _ funct => .register funct
  | immediate op _ rt _ => if op = 1 then .condition rt else .immediate op
  | jump op _ => .jump op

variable {m : Mnemonic}

theorem ofRegister_eq (hShape : m.encoding.shape? = some .register) (rd rs rt : Register)
    {shamt : UInt32} (hAmount : shamt.toNat < 0x20) :
    ofRegister m rd rs rt shamt = .ok (registerFields m rd rs rt shamt) := by
  rw [ofRegister, registerFields]
  cases hEncoding : m.encoding with
  | register funct =>
    have hFits : ¬ shamt > 0x1F := by
      rw [gt_iff_lt, UInt32.lt_iff_toNat_lt]
      exact Nat.not_lt.mpr (Nat.le_of_lt_succ hAmount)
    exact if_neg hFits
  | _ => simp [hEncoding, Encoding.shape?] at hShape

theorem ofImmediate_eq (hShape : m.encoding.shape? = some .immediate) (rt rs : Register)
    (imm : UInt16) : ofImmediate m rt rs imm = .ok (immediateFields m rt rs imm) := by
  rw [ofImmediate, immediateFields]
  cases hEncoding : m.encoding with
  | immediate op => rfl
  | condition cond => rfl
  | _ => simp [hEncoding, Encoding.shape?] at hShape

/-- The place of each part of the word of a mnemonic that its opcode tells. -/
theorem toNat_toWord_immediateFields {op : UInt8} (rt rs : Register)
    (imm : UInt16) (hEncoding : m.encoding = .immediate op) (hOpcode : op.toNat < 0x40) :
    (immediateFields m rt rs imm).toWord.toNat =
      op.toNat * 0x4000000 + rs.number * 0x200000 + rt.number * 0x10000 + imm.toNat := by
  have hNumber : (UInt8.ofNat rt.number).toNat = rt.number :=
    UInt8.toNat_ofNat_of_lt' (Nat.lt_trans rt.number.isLt (by decide))
  simp only [immediateFields, hEncoding, Encoding.selector]
  rw [toNat_toWord_immediate, hNumber, Nat.mod_eq_of_lt hOpcode,
    Nat.mod_eq_of_lt rt.number.isLt]

theorem ofJump_eq (hShape : m.encoding.shape? = some .jump) {index : UInt32}
    (hIndex : index.toNat < 0x4000000) : ofJump m index = .ok (jumpFields m index) := by
  rw [ofJump, jumpFields]
  cases hEncoding : m.encoding with
  | jump op =>
    have hFits : ¬ index > 0x03FFFFFF := by
      rw [gt_iff_lt, UInt32.lt_iff_toNat_lt]
      exact Nat.not_lt.mpr (Nat.le_of_lt_succ hIndex)
    exact if_neg hFits
  | _ => simp [hEncoding, Encoding.shape?] at hShape

/-- A word that can be read back and belongs to the encoding of a mnemonic. -/
structure WordOf (m : Mnemonic) (f : Fields) : Prop where
  proper : f.Proper
  encoding_eq : f.encoding = m.encoding

theorem wordOf_registerFields (hShape : m.encoding.shape? = some .register) (rd rs rt : Register)
    {shamt : UInt32} (hAmount : shamt.toNat < 0x20) :
    WordOf m (registerFields m rd rs rt shamt) := by
  have hProper := m.proper_encoding
  have hByte : shamt.toUInt8.toNat = shamt.toNat % 0x100 := UInt32.toNat_toUInt8 shamt
  cases hEncoding : m.encoding with
  | register funct =>
    rw [hEncoding] at hProper
    simp only [registerFields, hEncoding, Encoding.selector]
    exact ⟨⟨by omega, hProper⟩, hEncoding.symm⟩
  | _ => simp [hEncoding, Encoding.shape?] at hShape

theorem wordOf_immediateFields (hShape : m.encoding.shape? = some .immediate) (rt rs : Register)
    (imm : UInt16) : WordOf m (immediateFields m rt rs imm) := by
  have hProper := m.proper_encoding
  cases hEncoding : m.encoding with
  | immediate op =>
    rw [hEncoding] at hProper
    obtain ⟨hLower, hUpper⟩ := hProper
    have hNumber : (UInt8.ofNat rt.number).toNat = rt.number := by
      simp only [UInt8.toNat_ofNat']
      omega
    have hOther : op ≠ 1 := by
      rintro rfl
      exact absurd hLower (by decide)
    simp only [immediateFields, hEncoding, Encoding.selector]
    refine ⟨⟨hUpper, by omega, by omega, by omega, by omega⟩, ?_⟩
    rw [encoding, if_neg hOther, hEncoding]
  | condition cond =>
    rw [hEncoding] at hProper
    simp only [immediateFields, hEncoding]
    exact ⟨⟨by decide, hProper, by decide, by decide, by decide⟩, hEncoding.symm⟩
  | _ => simp [hEncoding, Encoding.shape?] at hShape

theorem wordOf_jumpFields (hShape : m.encoding.shape? = some .jump) {index : UInt32}
    (hIndex : index.toNat < 0x4000000) : WordOf m (jumpFields m index) := by
  have hProper := m.proper_encoding
  cases hEncoding : m.encoding with
  | jump op =>
    rw [hEncoding] at hProper
    simp only [jumpFields, hEncoding, Encoding.selector]
    exact ⟨⟨hProper, hIndex⟩, hEncoding.symm⟩
  | _ => simp [hEncoding, Encoding.shape?] at hShape

/-- A word tells its fields and its mnemonic. -/
theorem WordOf.eq_of_toWord_eq {n : Mnemonic} {f g : Fields} (hFirst : WordOf m f)
    (hSecond : WordOf n g) (hReal : m.encoding ≠ .pseudo) (hWord : f.toWord = g.toWord) :
    f = g ∧ m = n := by
  have hFields : f = g := by
    rw [← ofWord_toWord hFirst.proper, hWord, ofWord_toWord hSecond.proper]
  refine ⟨hFields, Mnemonic.eq_of_encoding_eq hReal ?_⟩
  rw [← hFirst.encoding_eq, hFields, hSecond.encoding_eq]

end Fields

end MipsAsm.Isa
