import MipsAsm.Proofs.Assembly.Invariant
import MipsAsm.Proofs.Instruction.Range
import MipsAsm.Proofs.Instruction.Size

/-! # Targets of branches and jumps

The word of a branch holds the distance to its target in words, counted from the next instruction,
and the word of a jump holds the number of the target within the region of the next instruction.
Adding up what the word holds gives the target back, and every target within reach is encoded.
-/

namespace MipsAsm

open Isa (Mnemonic Format Fields)
open Isa.Fields (immediateFields jumpFields)
open Operands (Values shapes build)

/-- The addresses at which an instruction and the next one fit. -/
def IsInstructionAddress (pc : UInt32) : Prop :=
  pc.toNat % 4 = 0 ∧ pc.toNat ≤ 0xFFFFFFF8

/-- Where the branch `w` at `pc` goes to. -/
def branchDestination (pc w : UInt32) : Int :=
  pc.toNat + 4 + 4 * signExtended w.toUInt16

/-- Where the jump `w` at `pc` goes to. -/
def jumpDestination (pc w : UInt32) : UInt32 :=
  region (pc + 4) ||| ((w % 0x4000000) <<< 2)

def IsBranch (format : Format) : Prop :=
  format = .branch ∨ format = .branchZero ∨ format = .branchAlways

/-! ## Fields of words -/

theorem toUInt16_immediateFields (m : Mnemonic) (rt rs : Isa.Register) (k : UInt16) :
    (immediateFields m rt rs k).toWord.toUInt16 = k := by
  have hLow : ∀ op rt, (Fields.immediate op rs rt k).toWord.toUInt16 = k := by
    intro op rt
    have hWord := Fields.toNat_toWord_immediate op rs rt k
    have hBound := k.toNat_lt
    rw [← UInt16.toNat_inj, UInt32.toNat_toUInt16]
    omega
  rw [immediateFields]
  split
  · exact hLow _ _
  · exact hLow _ _

theorem branchDestination_eq {pc : UInt32} {v : Int} (hPlace : IsInstructionAddress pc)
    (hFits : Fits pc .branch v) (m : Mnemonic) (rt rs : Isa.Register) :
    branchDestination pc (immediateFields m rt rs (offsetField pc v)).toWord = v := by
  obtain ⟨⟨_, hAligned⟩, hLower, hUpper⟩ := hFits
  have hPc := hPlace.1
  rw [branchDestination, toUInt16_immediateFields, offsetField, signExtended_ofInt hLower hUpper]
  omega

theorem jumpDestination_eq {pc : UInt32} {v : Int} (hPlace : IsInstructionAddress pc)
    (hFits : Fits pc .jump v) (m : Mnemonic) :
    ((jumpDestination pc (jumpFields m (indexField v)).toWord).toNat : Int) = v := by
  obtain ⟨⟨hBounds, hAligned⟩, hRegion⟩ := hFits
  have hRoom := hPlace.2
  have hIndex := toNat_indexField v
  have hNext : (pc + 4).toNat = (pc.toNat + 4) % 0x100000000 := UInt32.toNat_add pc 4
  have hWord := Fields.toNat_toWord_jump m.encoding.selector (indexField v)
  rw [jumpDestination, jumpFields]
  generalize (Fields.jump m.encoding.selector (indexField v)).toWord = w at hWord
  have hPart : (w % 0x4000000).toNat = (indexField v).toNat := by
    have hMod : (w % 0x4000000).toNat = w.toNat % 0x4000000 := UInt32.toNat_mod w 0x4000000
    omega
  have hLow : ((w % 0x4000000) <<< 2).toNat = (indexField v).toNat * 4 :=
    Fields.toNat_shiftLeft_of_lt 4 (by decide) hPart (by omega)
  rw [Fields.toNat_or_of_lt 28 0x10000000 rfl (toNat_region (pc + 4)) hLow (by omega) (by omega)]
  omega

/-! ## Instructions with targets -/

theorem fits_iff_of_isBranch {format : Format} (hBranch : IsBranch format) (pc : UInt32) (v : Int) :
    Fits pc format v ↔ Fits pc .branch v := by
  rcases hBranch with rfl | rfl | rfl <;> exact Iff.rfl

theorem layout_of_isBranch {format : Format} (hBranch : IsBranch format) (m : Mnemonic)
    (values : Values (shapes format)) (pc : UInt32) (v : Int) :
    ∃ n rt rs, (build m format values).layout pc v = [immediateFields n rt rs (offsetField pc v)] := by
  rcases hBranch with rfl | rfl | rfl <;> exact ⟨_, _, _, rfl⟩

theorem layout_of_jump {format : Format} (hJump : format = .jump) (m : Mnemonic)
    (values : Values (shapes format)) (pc : UInt32) (v : Int) :
    (build m format values).layout pc v = [jumpFields m (indexField v)] := by
  subst hJump
  rfl

/-- An instruction whose operand denotes `v` goes to `v` wherever it is encoded, and it is encoded
wherever `v` is in reach. -/
structure Reaches (pc : UInt32) (labels : LabelTable) (i : Instruction) (v : Int)
    (destination : UInt32 → Int) (InReach : Prop) : Prop where
  lands : ∀ ws, i.encode pc labels = .ok ws →
    IsWordAddress v ∧ ∃ f, ws = [f] ∧ destination f.toWord = v
  encodable : InReach → ∃ ws, i.encode pc labels = .ok ws

theorem Reaches.of_checks {pc : UInt32} {labels : LabelTable} {i : Instruction} {v : Int} {p : Prop}
    {f : Fields} {destination : UInt32 → Int} {InReach : Prop}
    (hCheck : Checks (i.encode pc labels) p [f]) (hAddress : p → IsWordAddress v)
    (hDestination : p → destination f.toWord = v) (hReach : InReach → p) :
    Reaches pc labels i v destination InReach := by
  constructor
  · intro ws hEncode
    obtain ⟨hFits, rfl⟩ := hCheck.eq_ok_iff.mp hEncode
    exact ⟨hAddress hFits, f, rfl, hDestination hFits⟩
  · intro hInReach
    exact ⟨[f], hCheck.accepts (hReach hInReach)⟩

theorem Instruction.four_le_size (i : Instruction) : 4 ≤ i.size := by
  cases i with
  | loadImm rt c =>
    rcases size_loadImm rt c with hSize | hSize
    · exact Nat.le_of_eq hSize.symm
    · rw [hSize]
      decide
  | _ => exact Nat.le_of_ble_eq_true rfl

theorem isInstructionAddress_of_placed {m : Memory.Image} {s : Section} {item : Item}
    {i : Instruction} (hPlaced : Placed m (s, item)) (hCode : item.payload = .code i) :
    IsInstructionAddress item.address := by
  have hWell := hPlaced.wellPlaced
  have hFits : item.address.toNat + item.payload.size < 0x100000000 := hPlaced.fits
  simp only [WellPlaced, hCode] at hWell
  rw [hCode] at hFits
  have hSize : 4 ≤ (Payload.code i).size := i.four_le_size
  exact ⟨hWell.2, by omega⟩

/-- Instructions are staged at addresses where the next one fits. There every branch and every jump
goes to the number that its operand denotes, if it is encoded at all, and those within reach are. -/
theorem targets_reached :
    (∀ (textBase dataBase : UInt32) (capacity : Nat) (endian : Memory.Endian)
      (streams : List (Nat × List Token.RawLine)) (s : Section) (item : Item) (i : Instruction),
      (s, item) ∈ (Assembly.ofBases textBase dataBase (.ofCapacity capacity endian)).history streams →
        item.payload = .code i → IsInstructionAddress item.address) ∧
    ∀ (m : Mnemonic) (head : Position) (ts : List Token) (i : Instruction) (pc : UInt32)
      (labels : LabelTable) (c : Immediate) (v : Int),
      Instruction.parse m head ts = .ok i → IsInstructionAddress pc → i.constant? = some c →
        c.Denotes labels v →
          (IsBranch m.format → Reaches pc labels i v (branchDestination pc)
            (IsWordAddress v ∧ pc.toNat + 4 - 0x20000 ≤ v ∧ v ≤ pc.toNat + 4 + 0x20000 - 4)) ∧
          (m.format = .jump → Reaches pc labels i v (fun w => (jumpDestination pc w).toNat)
            (v % 4 = 0 ∧ v / 0x10000000 = (pc.toNat + 4) / 0x10000000)) := by
  constructor
  · intro textBase dataBase capacity endian streams s item i hMem hCode
    have hSound := Sound.lasting.parseAll Sound.clear streams _ []
      (Sound.ofBases textBase dataBase capacity endian)
    exact isInstructionAddress_of_placed (hSound.placed (s, item) hMem) hCode
  · intro m head ts i pc labels c v hParse hPlace hConstant hDenotes
    obtain ⟨values, _, rfl⟩ := Instruction.parse_eq_ok.mp hParse
    have hCheck := Instruction.checks_encode pc rfl values
      (Instruction.denotes_of_mem hConstant hDenotes)
    constructor
    · intro hBranch
      obtain ⟨n, rt, rs, hLayout⟩ := layout_of_isBranch hBranch m values pc v
      rw [hLayout] at hCheck
      refine .of_checks (hCheck.of_iff (fits_iff_of_isBranch hBranch pc v)) And.left
        (fun hFits => branchDestination_eq hPlace hFits n rt rs) ?_
      rintro ⟨hAddress, hLower, hUpper⟩
      exact ⟨hAddress, by omega, by omega⟩
    · intro hJump
      have hRange : Fits pc m.format v ↔ Fits pc .jump v := by rw [hJump]
      rw [layout_of_jump hJump m values pc v] at hCheck
      refine .of_checks (hCheck.of_iff hRange) And.left
        (fun hFits => jumpDestination_eq hPlace hFits m) ?_
      rintro ⟨hAligned, hRegion⟩
      have hRoom := hPlace.2
      exact ⟨⟨by omega, hAligned⟩, by omega⟩

/-- A branch at the last address where one fits, back as far as a branch can go. -/
def lastBranch : Instruction :=
  .branchZero .bltz .ra (.literal 0xFFFDFFFC)

theorem targets_reached_backward :
    let item : Item := ⟨0xFFFFFFF8, ⟨0, 0, 0⟩, .code lastBranch⟩
    (Section.text, item) ∈ (Assembly.ofBases 0xFFFFFFF8 0 (.ofCapacity 4 .big)).history
        [(0, Token.linesOfText "bltz $ra, 0xFFFDFFFC")] ∧
      ∃ f, lastBranch.encode item.address .empty = .ok [f] ∧
        branchDestination item.address f.toWord = 0xFFFDFFFC := by
  intro item
  have hMem : (Section.text, item) ∈ (Assembly.ofBases 0xFFFFFFF8 0 (.ofCapacity 4 .big)).history
      [(0, Token.linesOfText "bltz $ra, 0xFFFDFFFC")] := by
    decide +kernel
  have hParse : Instruction.parse .bltz ⟨0, 0, 0⟩ [⟨.register, "$ra", ⟨0, 0, 5⟩⟩,
      ⟨.separator, ",", ⟨0, 0, 8⟩⟩, ⟨.integerConstant, "0xFFFDFFFC", ⟨0, 0, 10⟩⟩] =
        .ok lastBranch := by
    rfl
  have hPlace := targets_reached.1 _ _ _ _ _ _ item _ hMem rfl
  have hReaches := (targets_reached.2 _ _ _ _ item.address .empty _ _ hParse hPlace rfl rfl).1
    (Or.inr (Or.inl rfl))
  obtain ⟨ws, hEncode⟩ := hReaches.encodable ⟨⟨by decide, by decide⟩, by decide, by decide⟩
  obtain ⟨_, f, rfl, hLands⟩ := hReaches.lands ws hEncode
  exact ⟨hMem, f, hEncode, hLands⟩

end MipsAsm
