import MipsAsm.Instruction.Encode
import MipsAsm.Proofs.Outcome

/-! # Sizes and words

The size of an instruction is fixed before any label is known; encoding yields just as many words.
-/

namespace MipsAsm.Instruction

open Outcome (bind_eq_ok pure_eq_ok)
open Isa (Fields)

theorem length_of_loadWord {rt : Isa.Register} {value : UInt32} {ws : List Fields}
    (hLoad : loadWord rt value = .ok ws) : ws.length = 2 := by
  obtain ⟨high, _, hLoad⟩ := bind_eq_ok.mp hLoad
  obtain ⟨low, _, hLoad⟩ := bind_eq_ok.mp hLoad
  rw [← pure_eq_ok.mp hLoad]
  rfl

theorem four_eq_of_singleton {x : Except Cause Fields} {ws : List Fields}
    (hWord : (do return [← x]) = Except.ok ws) : 4 = 4 * ws.length := by
  obtain ⟨w, _, hWord⟩ := bind_eq_ok.mp hWord
  rw [← pure_eq_ok.mp hWord]
  rfl

theorem size_loadImm (rt : Isa.Register) (value : Immediate) :
    (loadImm rt value).size = 4 ∨ (loadImm rt value).size = 8 := by
  cases value with
  | literal v =>
    rw [size]
    split
    · exact Or.inl rfl
    · exact Or.inr rfl
  | symbol name => exact Or.inr rfl

theorem size_eq_of_encode {pc : UInt32} {labels : LabelTable} {i : Instruction} {ws : List Fields}
    (hEncode : i.encode pc labels = .ok ws) : i.size = 4 * ws.length := by
  cases i with
  | reg3 m rd rs rt => exact four_eq_of_singleton hEncode
  | shiftVar m rd rt rs => exact four_eq_of_singleton hEncode
  | mulDiv m rs rt => exact four_eq_of_singleton hEncode
  | moveFrom m rd => exact four_eq_of_singleton hEncode
  | jumpReg m rs => exact four_eq_of_singleton hEncode
  | move rd rs => exact four_eq_of_singleton hEncode
  | shift m rd rt amount =>
    obtain ⟨v, _, hEncode⟩ := bind_eq_ok.mp hEncode
    obtain ⟨shamt, _, hEncode⟩ := bind_eq_ok.mp hEncode
    exact four_eq_of_singleton hEncode
  | imm m rt rs value =>
    obtain ⟨v, _, hEncode⟩ := bind_eq_ok.mp hEncode
    obtain ⟨field, _, hEncode⟩ := bind_eq_ok.mp hEncode
    exact four_eq_of_singleton hEncode
  | upper rt value =>
    obtain ⟨v, _, hEncode⟩ := bind_eq_ok.mp hEncode
    obtain ⟨field, _, hEncode⟩ := bind_eq_ok.mp hEncode
    exact four_eq_of_singleton hEncode
  | mem m rt offset base =>
    obtain ⟨v, _, hEncode⟩ := bind_eq_ok.mp hEncode
    obtain ⟨field, _, hEncode⟩ := bind_eq_ok.mp hEncode
    exact four_eq_of_singleton hEncode
  | branch m rs rt target =>
    obtain ⟨field, _, hEncode⟩ := bind_eq_ok.mp hEncode
    exact four_eq_of_singleton hEncode
  | branchZero m rs target =>
    obtain ⟨field, _, hEncode⟩ := bind_eq_ok.mp hEncode
    exact four_eq_of_singleton hEncode
  | branchAlways target =>
    obtain ⟨field, _, hEncode⟩ := bind_eq_ok.mp hEncode
    exact four_eq_of_singleton hEncode
  | jump m target =>
    obtain ⟨v, _, hEncode⟩ := bind_eq_ok.mp hEncode
    obtain ⟨address, _, hEncode⟩ := bind_eq_ok.mp hEncode
    obtain ⟨index, _, hEncode⟩ := bind_eq_ok.mp hEncode
    exact four_eq_of_singleton hEncode
  | bare m =>
    rw [encode] at hEncode
    split at hEncode
    · rw [← pure_eq_ok.mp hEncode]
      rfl
    · exact four_eq_of_singleton hEncode
  | loadImm rt value =>
    -- encoding asks the same question about the constant as the size does
    obtain ⟨v, _, hEncode⟩ := bind_eq_ok.mp hEncode
    split at hEncode
    · rename_i hShort
      obtain ⟨field, _, hEncode⟩ := bind_eq_ok.mp hEncode
      rw [hShort]
      exact four_eq_of_singleton hEncode
    · rename_i hLong
      obtain ⟨word, _, hEncode⟩ := bind_eq_ok.mp hEncode
      rw [length_of_loadWord hEncode]
      exact (size_loadImm rt value).resolve_left hLong
  | loadAddr rt target =>
    obtain ⟨v, _, hEncode⟩ := bind_eq_ok.mp hEncode
    obtain ⟨address, _, hEncode⟩ := bind_eq_ok.mp hEncode
    rw [length_of_loadWord hEncode, size]

end MipsAsm.Instruction
