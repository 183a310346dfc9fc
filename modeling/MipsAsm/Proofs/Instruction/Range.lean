import MipsAsm.Instruction.Encode
import MipsAsm.Proofs.Instruction.Grammar
import MipsAsm.Proofs.Isa.Word

/-! # Ranges of constants

A format has a range for its constant, which for branches and jumps depends on the address of the
instruction. Encoding a parsed instruction succeeds exactly if the constant denotes a number in
that range; then the format and the number tell the words. It never fails on a mnemonic that does
not go with its operands, since parsing has seen to that.
-/

namespace MipsAsm

open Isa (Mnemonic Register Format Fields)
open Isa.Fields (registerFields immediateFields jumpFields)
open Operands (Values shapes build)

/-! ## Checks -/

/-- The outcome of a check: the result `a` if `p` holds, and otherwise an error that blames an
operand and not the tables of the instruction set. -/
structure Checks {α : Type} (x : Except Cause α) (p : Prop) (a : α) : Prop where
  accepts : p → x = .ok a
  refuses : ¬p → ∃ cause, x = .error cause ∧ ∀ e, cause ≠ .encoding e

namespace Checks

variable {α β : Type} {x : Except Cause α} {p q : Prop} {a : α} {b : β}

theorem of_ok (hOk : x = .ok a) (hHolds : p) : Checks x p a :=
  ⟨fun _ => hOk, fun hNot => absurd hHolds hNot⟩

theorem ite [Decidable p] {cause : Cause} (hRange : p ↔ q) (hCause : ∀ e, cause ≠ .encoding e) :
    Checks (if p then .ok a else .error cause) q a :=
  ⟨fun hHolds => if_pos (hRange.mpr hHolds),
    fun hNot => ⟨cause, if_neg fun hHolds => hNot (hRange.mp hHolds), hCause⟩⟩

theorem of_iff (hCheck : Checks x p a) (hRange : p ↔ q) : Checks x q a :=
  ⟨fun hHolds => hCheck.accepts (hRange.mpr hHolds),
    fun hNot => hCheck.refuses fun hHolds => hNot (hRange.mp hHolds)⟩

theorem bind {f : α → Except Cause β} (hFirst : Checks x p a) (hRest : p → Checks (f a) q b) :
    Checks (x >>= f) (p ∧ q) b := by
  constructor
  · rintro ⟨hHolds, hMore⟩
    rw [hFirst.accepts hHolds]
    exact (hRest hHolds).accepts hMore
  · intro hNot
    by_cases hHolds : p
    · rw [hFirst.accepts hHolds]
      exact (hRest hHolds).refuses fun hMore => hNot ⟨hHolds, hMore⟩
    · obtain ⟨cause, hError, hCause⟩ := hFirst.refuses hHolds
      rw [hError]
      exact ⟨cause, rfl, hCause⟩

theorem bind_ok {f : α → Except Cause β} (hFirst : Checks x p a) (hRest : p → f a = .ok b) :
    Checks (x >>= f) p b :=
  (hFirst.bind fun hHolds => of_ok (hRest hHolds) trivial).of_iff (and_iff_left trivial)

theorem eq_ok_iff (hCheck : Checks x p a) {c : α} : x = .ok c ↔ p ∧ c = a := by
  by_cases hHolds : p
  · rw [hCheck.accepts hHolds, and_iff_right hHolds, Except.ok.injEq, eq_comm]
  · obtain ⟨cause, hError, _⟩ := hCheck.refuses hHolds
    simp [hError, hHolds]

theorem ne_encoding (hCheck : Checks x p a) (e : Isa.EncodeError) : x ≠ .error (.encoding e) := by
  by_cases hHolds : p
  · rw [hCheck.accepts hHolds]
    rintro ⟨⟩
  · obtain ⟨cause, hError, hCause⟩ := hCheck.refuses hHolds
    rw [hError]
    exact fun hSame => hCause e (Except.error.inj hSame)

end Checks

/-! ## Fields of numbers -/

theorem toNat_ofInt32 (v : Int) : ((UInt32.ofInt v).toNat : Int) = v % 0x100000000 := by
  change ((UInt32.ofNat (v % 0x100000000).toNat).toNat : Int) = _
  rw [UInt32.toNat_ofNat_of_lt' (by simp [UInt32.size]; omega)]
  omega

theorem toNat_ofInt16 (v : Int) : ((UInt16.ofInt v).toNat : Int) = v % 0x10000 := by
  change ((UInt16.ofNat (v % 0x10000).toNat).toNat : Int) = _
  rw [UInt16.toNat_ofNat_of_lt' (by simp [UInt16.size]; omega)]
  omega

theorem toNat_region (a : UInt32) : (region a).toNat = a.toNat / 0x10000000 * 0x10000000 := by
  have hBound := a.toNat_lt
  have hHigh : (region a).toNat / 0x10000000 = a.toNat / 0x10000000 := by
    have hShift : (region a).toNat >>> 28 = a.toNat >>> 28 &&& 0xF := Nat.shiftRight_and_distrib
    have hMask : a.toNat >>> 28 &&& 0xF = (a.toNat >>> 28) % 0x10 :=
      Nat.and_two_pow_sub_one_eq_mod _ 4
    omega
  have hLow : (region a).toNat % 0x10000000 = 0 := by
    have hMask : (region a).toNat % 0x10000000 = a.toNat % 0x10000000 &&& 0 :=
      Nat.and_mod_two_pow (n := 28)
    rw [hMask, Nat.and_zero]
  omega

/-- The number that a half-word stands for where it is sign-extended. -/
def signExtended (k : UInt16) : Int :=
  if k.toNat < 0x8000 then k.toNat else k.toNat - 0x10000

theorem signExtended_ofInt {v : Int} (hLower : -0x8000 ≤ v) (hUpper : v ≤ 0x7FFF) :
    signExtended (UInt16.ofInt v) = v := by
  have hValue := toNat_ofInt16 v
  rw [signExtended]
  split <;> omega

/-- Numbers that are addresses of words. -/
def IsWordAddress (v : Int) : Prop :=
  (0 ≤ v ∧ v < 0x100000000) ∧ v % 4 = 0

/-- The numbers that an instruction of a format may have as its constant at the address `pc`.
Formats without a constant ask for nothing. -/
def Fits (pc : UInt32) : Format → Int → Prop
  | .shift, v => 0 ≤ v ∧ v < 32
  | .immSigned, v | .mem, v => -0x8000 ≤ v ∧ v ≤ 0x7FFF
  | .immUnsigned, v => 0 ≤ v ∧ v ≤ 0xFFFF
  | .upper, v => -0x8000 ≤ v ∧ v ≤ 0xFFFF
  | .loadImm, v => -0x80000000 ≤ v ∧ v < 0x100000000
  | .loadAddr, v => 0 ≤ v ∧ v < 0x100000000
  | .branch, v | .branchZero, v | .branchAlways, v => IsWordAddress v ∧
      -0x8000 ≤ (v - pc.toNat - 4) / 4 ∧ (v - pc.toNat - 4) / 4 ≤ 0x7FFF
  | .jump, v => IsWordAddress v ∧
      v / 0x10000000 = (pc.toNat + 4) % 0x100000000 / 0x10000000
  | .reg3, _ | .shiftVar, _ | .mulDiv, _ | .moveFrom, _ | .jumpReg, _ | .bare, _ | .move, _ => True

/-- The distance from the instruction behind `pc`, in words. -/
def offsetField (pc : UInt32) (v : Int) : UInt16 :=
  UInt16.ofInt ((v - pc.toNat - 4) / 4)

/-- The number of a word within its region. -/
def indexField (v : Int) : UInt32 :=
  (UInt32.ofInt v >>> 2) &&& 0x03FFFFFF

theorem toNat_indexField (v : Int) :
    ((indexField v).toNat : Int) = v % 0x100000000 / 4 % 0x4000000 := by
  have hWord := toNat_ofInt32 v
  have hShift : (UInt32.ofInt v >>> 2).toNat = (UInt32.ofInt v).toNat / 4 :=
    Nat.shiftRight_eq_div_pow _ 2
  have hMask : (indexField v).toNat = (UInt32.ofInt v >>> 2).toNat % 0x4000000 :=
    Nat.and_two_pow_sub_one_eq_mod _ 26
  omega

section Fields

variable (pc : UInt32) (v : Int)

theorem fitsSigned16_iff : fitsSigned16 v = true ↔ -0x8000 ≤ v ∧ v ≤ 0x7FFF := by
  rw [fitsSigned16, decide_eq_true_iff]
  omega

theorem checks_signed16 : Checks (signed16 v) (-0x8000 ≤ v ∧ v ≤ 0x7FFF) (UInt16.ofInt v) :=
  .ite (fitsSigned16_iff v) (by simp)

theorem checks_unsigned16 : Checks (unsigned16 v) (0 ≤ v ∧ v ≤ 0xFFFF) (UInt16.ofInt v) :=
  .ite (by omega) (by simp)

theorem checks_either16 : Checks (either16 v) (-0x8000 ≤ v ∧ v ≤ 0xFFFF) (UInt16.ofInt v) :=
  .ite (by omega) (by simp)

theorem checks_either32 :
    Checks (either32 v) (-0x80000000 ≤ v ∧ v < 0x100000000) (UInt32.ofInt v) :=
  .ite Iff.rfl (by simp)

theorem checks_address32 : Checks (address32 v) (0 ≤ v ∧ v < 0x100000000) (UInt32.ofInt v) :=
  .ite Iff.rfl (by simp)

theorem checks_shiftField : Checks (shiftField v) (0 ≤ v ∧ v < 32) (UInt32.ofInt v) :=
  .ite Iff.rfl (by simp)

theorem checks_targetAddress : Checks (targetAddress v) (IsWordAddress v) (UInt32.ofInt v) := by
  refine (checks_address32 v).bind fun hBounds => .ite ?_ (by simp)
  have hValue := toNat_ofInt32 v
  rw [← UInt32.toNat_inj, UInt32.toNat_mod]
  change (UInt32.ofInt v).toNat % 4 = 0 ↔ _
  omega

theorem checks_branchField : Checks (targetAddress v >>= branchField pc)
    (IsWordAddress v ∧ -0x8000 ≤ (v - pc.toNat - 4) / 4 ∧ (v - pc.toNat - 4) / 4 ≤ 0x7FFF)
    (offsetField pc v) := by
  refine (checks_targetAddress v).bind fun hAddress => ?_
  have hValue := toNat_ofInt32 v
  have hOffset : branchOffset pc (UInt32.ofInt v) = (v - pc.toNat - 4) / 4 := by
    rw [branchOffset, Int.fdiv_eq_ediv_of_nonneg _ (by decide), hValue,
      Int.emod_eq_of_lt hAddress.1.1 hAddress.1.2]
    omega
  rw [branchField, hOffset]
  exact .ite (fitsSigned16_iff _) (by simp)

theorem checks_jumpField : Checks (targetAddress v >>= jumpField pc)
    (IsWordAddress v ∧ v / 0x10000000 = (pc.toNat + 4) % 0x100000000 / 0x10000000)
    (indexField v) := by
  refine (checks_targetAddress v).bind fun hAddress => .ite ?_ (by simp)
  obtain ⟨hBounds, _⟩ := hAddress
  have hValue := toNat_ofInt32 v
  have hNext : (pc + 4).toNat = (pc.toNat + 4) % 0x100000000 := UInt32.toNat_add pc 4
  rw [← UInt32.toNat_inj, toNat_region, toNat_region, hNext]
  omega

end Fields

/-! ## Constants of instructions -/

namespace Immediate

/-- A symbol stands for the address of its label. -/
def Denotes (labels : LabelTable) : Immediate → Int → Prop
  | literal value, v => v = value
  | symbol name, v => ∃ address, labels.address? name = some address ∧ v = address.toNat

variable {labels : LabelTable} {c : Immediate} {v : Int}

theorem resolve_eq_ok : c.resolve labels = .ok v ↔ c.Denotes labels v := by
  cases c with
  | literal value => simp [resolve, Denotes, eq_comm]
  | symbol name => cases hLabel : labels.address? name <;> simp [resolve, Denotes, hLabel, eq_comm]

theorem resolve_of_undefined (hNone : ∀ v, ¬c.Denotes labels v) :
    ∃ name, c.resolve labels = .error (.undefinedLabel name) := by
  cases c with
  | literal value => exact absurd rfl (hNone value)
  | symbol name =>
    cases hLabel : labels.address? name with
    | none => exact ⟨name, by simp [resolve, hLabel]⟩
    | some address => exact absurd ⟨address, hLabel, rfl⟩ (hNone address.toNat)

end Immediate

namespace Instruction

/-- The operand that is a number or the name of a label. -/
def constant? : Instruction → Option Immediate
  | shift _ _ _ c | imm _ _ _ c | upper _ c | mem _ _ c _ | branch _ _ _ c | branchZero _ _ c
  | jump _ c | loadImm _ c | loadAddr _ c | branchAlways c => some c
  | reg3 .. | shiftVar .. | mulDiv .. | moveFrom .. | jumpReg .. | bare _ | move .. => none

/-- The upper and the lower half of a word, loaded one after the other. -/
def halves (rt : Register) (value : UInt32) : List Fields :=
  [immediateFields .lui rt .zero (value >>> 16).toUInt16, immediateFields .ori rt rt value.toUInt16]

/-- The words of an instruction at the address `pc` whose constant is the number `v`. -/
def layout (pc : UInt32) (v : Int) : Instruction → List Fields
  | reg3 m rd rs rt => [registerFields m rd rs rt 0]
  | shiftVar m rd rt rs => [registerFields m rd rs rt 0]
  | shift m rd rt _ => [registerFields m rd .zero rt (UInt32.ofInt v)]
  | mulDiv m rs rt => [registerFields m .zero rs rt 0]
  | moveFrom m rd => [registerFields m rd .zero .zero 0]
  | jumpReg m rs => [registerFields m (linkRegister m) rs .zero 0]
  | imm m rt rs _ => [immediateFields m rt rs (UInt16.ofInt v)]
  | upper rt _ => [immediateFields .lui rt .zero (UInt16.ofInt v)]
  | mem m rt _ base => [immediateFields m rt base (UInt16.ofInt v)]
  | branch m rs rt _ => [immediateFields m rt rs (offsetField pc v)]
  | branchZero m rs _ => [immediateFields m .zero rs (offsetField pc v)]
  | jump m _ => [jumpFields m (indexField v)]
  | bare m => [registerFields m .zero .zero .zero 0]
  | move rd rs => [registerFields .addu rd rs .zero 0]
  | loadImm rt c =>
    if (loadImm rt c).size = 4 then [immediateFields .addiu rt .zero (UInt16.ofInt v)]
    else halves rt (UInt32.ofInt v)
  | loadAddr rt _ => halves rt (UInt32.ofInt v)
  | branchAlways _ => [immediateFields .beq .zero .zero (offsetField pc v)]

variable {m : Mnemonic} {pc : UInt32} {labels : LabelTable} {v : Int}

theorem denotes_of_mem {i : Instruction} {c : Immediate} (hConstant : i.constant? = some c)
    (hDenotes : c.Denotes labels v) : ∀ d ∈ i.constant?, d.Denotes labels v := by
  intro d hMem
  cases hConstant.symm.trans hMem
  exact hDenotes

theorem registerWord_eq (hShape : m.encoding.shape? = some .register) (rd rs rt : Register)
    {shamt : UInt32} (hAmount : shamt.toNat < 0x20) :
    (do return [← registerWord m rd rs rt shamt]) =
      (.ok [registerFields m rd rs rt shamt] : Except Cause _) := by
  rw [registerWord, Fields.ofRegister_eq hShape rd rs rt hAmount]
  rfl

theorem immediateWord_eq (hShape : m.encoding.shape? = some .immediate) (rt rs : Register)
    (value : UInt16) :
    (do return [← immediateWord m rt rs value]) =
      (.ok [immediateFields m rt rs value] : Except Cause _) := by
  rw [immediateWord, Fields.ofImmediate_eq hShape]
  rfl

theorem jumpWord_eq (hShape : m.encoding.shape? = some .jump) (v : Int) :
    (do return [← jumpWord m (indexField v)]) =
      (.ok [jumpFields m (indexField v)] : Except Cause _) := by
  have hIndex := toNat_indexField v
  rw [jumpWord, Fields.ofJump_eq hShape (by omega)]
  rfl

theorem shape?_of_format {format : Format} (hFormat : m.format = format)
    (hOperands : format ≠ .bare) : m.encoding.shape? = format.shape? := by
  have hNop : m ≠ .nop := by
    rintro rfl
    exact hOperands hFormat.symm
  rw [Mnemonic.shape?_encoding hNop, hFormat]

theorem checks_constant {c : Immediate} {f : Int → Except Cause (List Fields)} {p : Prop}
    {ws : List Fields} (hDenotes : c.Denotes labels v) (hCheck : Checks (f v) p ws) :
    Checks (c.resolve labels >>= f) p ws := by
  rw [Immediate.resolve_eq_ok.mpr hDenotes]
  exact hCheck

theorem checks_branch {c : Immediate} {p : Prop} (hDenotes : c.Denotes labels v)
    (hFits : Fits pc .branch v ↔ p) (hShape : m.encoding.shape? = some .immediate)
    (rt rs : Register) :
    Checks (do return [← immediateWord m rt rs (← branchTarget pc labels c)]) p
      [immediateFields m rt rs (offsetField pc v)] := by
  have hField : Checks (branchTarget pc labels c) p (offsetField pc v) := by
    rw [branchTarget, Immediate.resolve_eq_ok.mpr hDenotes]
    exact (checks_branchField pc v).of_iff hFits
  exact hField.bind_ok fun _ => immediateWord_eq hShape rt rs _

/-- A constant is loaded by one word only where it is a number that was seen to be short. -/
theorem bounds_of_size_eq_four {rt : Register} {c : Immediate} (hShort : (loadImm rt c).size = 4)
    (hDenotes : c.Denotes labels v) : -0x8000 ≤ v ∧ v ≤ 0x7FFF := by
  cases c with
  | literal value =>
    obtain rfl : v = value := hDenotes
    apply (fitsSigned16_iff v).mp
    rw [size] at hShort
    split at hShort
    · assumption
    · cases hShort
  | symbol name => cases hShort

/-- A parsed instruction whose constant denotes `v` is encoded just if `v` is in the range of the
format. -/
theorem checks_encode (pc : UInt32) {format : Format} (hFormat : m.format = format)
    (values : Values (shapes format))
    (hValue : ∀ c ∈ (build m format values).constant?, c.Denotes labels v) :
    Checks ((build m format values).encode pc labels) (Fits pc format v)
      ((build m format values).layout pc v) := by
  have hShape := shape?_of_format hFormat
  cases format with
  | reg3 =>
    obtain ⟨rd, rs, rt, _⟩ := values
    exact .of_ok (registerWord_eq (hShape (by decide)) rd rs rt (by decide)) trivial
  | shiftVar =>
    obtain ⟨rd, rt, rs, _⟩ := values
    exact .of_ok (registerWord_eq (hShape (by decide)) rd rs rt (by decide)) trivial
  | mulDiv =>
    obtain ⟨rs, rt, _⟩ := values
    exact .of_ok (registerWord_eq (hShape (by decide)) _ rs rt (by decide)) trivial
  | moveFrom =>
    obtain ⟨rd, _⟩ := values
    exact .of_ok (registerWord_eq (hShape (by decide)) rd _ _ (by decide)) trivial
  | jumpReg =>
    obtain ⟨rs, _⟩ := values
    exact .of_ok (registerWord_eq (hShape (by decide)) _ rs _ (by decide)) trivial
  | bare =>
    refine .of_ok ?_ trivial
    by_cases hNop : m = .nop
    · subst hNop
      rfl
    · have hWord := (Mnemonic.shape?_encoding hNop).trans (congrArg Format.shape? hFormat)
      exact (if_neg hNop).trans (registerWord_eq hWord _ _ _ (by decide))
  | move =>
    obtain ⟨rd, rs, _⟩ := values
    exact .of_ok rfl trivial
  | shift =>
    obtain ⟨rd, rt, c, _⟩ := values
    refine checks_constant (hValue c rfl) ((checks_shiftField v).bind_ok fun hBounds => ?_)
    have hAmount := toNat_ofInt32 v
    exact registerWord_eq (hShape (by decide)) rd _ rt (by omega)
  | immSigned =>
    obtain ⟨rt, rs, c, _⟩ := values
    refine checks_constant (hValue c rfl) (Checks.bind_ok ?_ fun _ =>
      immediateWord_eq (hShape (by decide)) rt rs _)
    rw [constantField, hFormat]
    exact checks_signed16 v
  | immUnsigned =>
    obtain ⟨rt, rs, c, _⟩ := values
    refine checks_constant (hValue c rfl) (Checks.bind_ok ?_ fun _ =>
      immediateWord_eq (hShape (by decide)) rt rs _)
    rw [constantField, hFormat]
    exact checks_unsigned16 v
  | upper =>
    obtain ⟨rt, c, _⟩ := values
    exact checks_constant (hValue c rfl) ((checks_either16 v).bind_ok fun _ => rfl)
  | mem =>
    obtain ⟨rt, ⟨c, base⟩, _⟩ := values
    exact checks_constant (hValue c rfl) ((checks_signed16 v).bind_ok fun _ =>
      immediateWord_eq (hShape (by decide)) rt base _)
  | branch =>
    obtain ⟨rs, rt, c, _⟩ := values
    exact checks_branch (hValue c rfl) Iff.rfl (hShape (by decide)) rt rs
  | branchZero =>
    obtain ⟨rs, c, _⟩ := values
    exact checks_branch (hValue c rfl) Iff.rfl (hShape (by decide)) .zero rs
  | branchAlways =>
    obtain ⟨c, _⟩ := values
    exact checks_branch (hValue c rfl) Iff.rfl rfl .zero .zero
  | jump =>
    obtain ⟨c, _⟩ := values
    have hJump : Checks ((targetAddress v >>= jumpField pc) >>= fun index =>
        return [← jumpWord m index]) (Fits pc .jump v) [jumpFields m (indexField v)] :=
      (checks_jumpField pc v).bind_ok fun _ => jumpWord_eq (hShape (by decide)) v
    rw [bind_assoc] at hJump
    exact checks_constant (hValue c rfl) hJump
  | loadImm =>
    obtain ⟨rt, c, _⟩ := values
    refine checks_constant (hValue c rfl) ?_
    change Checks _ _ (if (loadImm rt c).size = 4 then _ else _)
    split
    · rename_i hShort
      obtain ⟨hLower, hUpper⟩ := bounds_of_size_eq_four hShort (hValue c rfl)
      have hFits : Fits pc .loadImm v := ⟨by omega, by omega⟩
      exact ((checks_signed16 v).of_iff (iff_of_true ⟨hLower, hUpper⟩ hFits)).bind_ok fun _ => rfl
    · exact (checks_either32 v).bind_ok fun _ => rfl
  | loadAddr =>
    obtain ⟨rt, c, _⟩ := values
    exact checks_constant (hValue c rfl) ((checks_address32 v).bind_ok fun _ => rfl)

/-! ## Success and failure -/

/-- Encoding starts with the constant. -/
theorem encode_eq_bind {i : Instruction} {c : Immediate} (pc : UInt32) (labels : LabelTable)
    (hConstant : i.constant? = some c) : ∃ f, i.encode pc labels = c.resolve labels >>= f := by
  cases i with
  | branch | branchZero | branchAlways =>
    cases hConstant
    exact ⟨_, bind_assoc _ _ _⟩
  | reg3 | shiftVar | mulDiv | moveFrom | jumpReg | bare | move => cases hConstant
  | _ =>
    cases hConstant
    exact ⟨_, rfl⟩

theorem denotes_or_undefined (i : Instruction) (pc : UInt32) (labels : LabelTable) :
    (∃ v, ∀ c ∈ i.constant?, c.Denotes labels v) ∨
      ∃ name, i.encode pc labels = .error (.undefinedLabel name) := by
  cases hConstant : i.constant? with
  | none => exact Or.inl ⟨0, fun c hMem => absurd hMem (Option.not_mem_none c)⟩
  | some c =>
    by_cases hDefined : ∃ v, c.Denotes labels v
    · obtain ⟨v, hDenotes⟩ := hDefined
      exact Or.inl ⟨v, hConstant ▸ denotes_of_mem hConstant hDenotes⟩
    · obtain ⟨name, hError⟩ := Immediate.resolve_of_undefined (not_exists.mp hDefined)
      obtain ⟨f, hBind⟩ := encode_eq_bind pc labels hConstant
      refine Or.inr ⟨name, ?_⟩
      rw [hBind, hError]
      rfl

theorem fits_of_constant?_eq_none {format : Format} {values : Values (shapes format)}
    (hNone : (build m format values).constant? = none) : Fits pc format v := by
  cases format with
  | reg3 | shiftVar | mulDiv | moveFrom | jumpReg | bare | move => trivial
  | _ => cases hNone

variable (values : Values (shapes m.format))

theorem encode_eq_ok {ws : List Fields} :
    (build m m.format values).encode pc labels = .ok ws ↔
      ∃ v, (∀ c ∈ (build m m.format values).constant?, c.Denotes labels v) ∧
        Fits pc m.format v ∧ ws = (build m m.format values).layout pc v := by
  constructor
  · intro hEncode
    rcases denotes_or_undefined (build m m.format values) pc labels with ⟨v, hValue⟩ | ⟨name, hError⟩
    · exact ⟨v, hValue, (checks_encode pc rfl values hValue).eq_ok_iff.mp hEncode⟩
    · cases hEncode.symm.trans hError
  · rintro ⟨v, hValue, hFits, rfl⟩
    exact (checks_encode pc rfl values hValue).accepts hFits

theorem encode_ne_encoding (e : Isa.EncodeError) :
    (build m m.format values).encode pc labels ≠ .error (.encoding e) := by
  rcases denotes_or_undefined (build m m.format values) pc labels with ⟨v, hValue⟩ | ⟨name, hError⟩
  · exact (checks_encode pc rfl values hValue).ne_encoding e
  · rw [hError]
    rintro ⟨⟩

theorem exists_fits_iff :
    (∃ v, (∀ c ∈ (build m m.format values).constant?, c.Denotes labels v) ∧ Fits pc m.format v) ↔
      ∀ c ∈ (build m m.format values).constant?, ∃ v, c.Denotes labels v ∧ Fits pc m.format v := by
  constructor
  · rintro ⟨v, hValue, hFits⟩ c hMem
    exact ⟨v, hValue c hMem, hFits⟩
  · intro hAll
    cases hConstant : (build m m.format values).constant? with
    | none =>
      exact ⟨0, fun c hMem => absurd hMem (Option.not_mem_none c), fits_of_constant?_eq_none hConstant⟩
    | some c =>
      obtain ⟨v, hDenotes, hFits⟩ := hAll c hConstant
      exact ⟨v, hConstant ▸ denotes_of_mem hConstant hDenotes, hFits⟩

end Instruction

/-- A parsed instruction is encoded exactly if its constant, where it has one, denotes a number in
the range of the format, and a failure never blames the encoding tables. -/
theorem encodable_iff_fits {m : Mnemonic} {head : Position} {ts : List Token} {i : Instruction}
    (hParse : Instruction.parse m head ts = .ok i) (pc : UInt32) (labels : LabelTable) :
    (∀ e, i.encode pc labels ≠ .error (.encoding e)) ∧
      ((∃ ws, i.encode pc labels = .ok ws) ↔
        ∀ c ∈ i.constant?, ∃ v, c.Denotes labels v ∧ Fits pc m.format v) := by
  obtain ⟨values, _, rfl⟩ := Instruction.parse_eq_ok.mp hParse
  refine ⟨fun e => Instruction.encode_ne_encoding values e, ?_⟩
  rw [← Instruction.exists_fits_iff]
  constructor
  · rintro ⟨ws, hEncode⟩
    obtain ⟨v, hValue, hFits, _⟩ := (Instruction.encode_eq_ok values).mp hEncode
    exact ⟨v, hValue, hFits⟩
  · rintro ⟨v, hValue, hFits⟩
    exact ⟨_, (Instruction.encode_eq_ok values).mpr ⟨v, hValue, hFits, rfl⟩⟩

/-- The furthest word that a branch at 8 can reach is out of reach for a branch at 4. -/
theorem encodable_iff_fits_far :
    let i := Instruction.branchAlways (.symbol "far")
    let labels : LabelTable := ⟨[⟨"far", ⟨0, 3, 0⟩, 0x20008⟩]⟩
    Instruction.parse .b ⟨0, 1, 0⟩ [⟨.identifier, "far", ⟨0, 1, 2⟩⟩] = .ok i ∧
      (∃ ws, i.encode 8 labels = .ok ws) ∧ ¬∃ ws, i.encode 4 labels = .ok ws := by
  intro i labels
  have hParse : Instruction.parse .b ⟨0, 1, 0⟩ [⟨.identifier, "far", ⟨0, 1, 2⟩⟩] = .ok i :=
    rfl
  have hLabel : labels.address? "far" = some 0x20008 := by
    decide +kernel
  refine ⟨hParse, (encodable_iff_fits hParse 8 labels).2.mpr ?_, fun hEncode => ?_⟩
  · rintro c ⟨⟩
    exact ⟨0x20008, ⟨_, hLabel, rfl⟩, ⟨by decide, by decide⟩, by decide⟩
  · obtain ⟨v, ⟨address, hAddress, rfl⟩, _, _, hReach⟩ :=
      (encodable_iff_fits hParse 4 labels).2.mp hEncode _ rfl
    cases hLabel.symm.trans hAddress
    exact absurd hReach (by decide)

end MipsAsm
