import MipsAsm.Proofs.Instruction.Range
import MipsAsm.Proofs.Instruction.Size

/-! # Loads of constants and addresses

A load of a constant becomes one word that adds the constant to zero, if it was seen to be short,
and otherwise two words that load its halves; a load of an address always becomes two. The words
spell the number that the operand denotes, whatever its label turns out to be.
-/

namespace MipsAsm

open Isa (Register Fields)
open Isa.Fields (immediateFields)

/-- The one word is `addiu rt, $zero, k`, where `k` extends to the number `v`. -/
def LoadedShort (rt : Register) (v : Int) (ws : List Fields) : Prop :=
  ∃ k : UInt16, ws.map (fun f => f.toWord.toNat) = [0x24000000 + rt.number * 0x10000 + k.toNat] ∧
    signExtended k = v

/-- The two words are `lui rt, high` and `ori rt, rt, low`, where the halves spell the number
`v`. -/
def LoadedHalves (rt : Register) (v : Int) (ws : List Fields) : Prop :=
  ∃ high low : UInt16, ws.map (fun f => f.toWord.toNat) =
      [0x3C000000 + rt.number * 0x10000 + high.toNat,
        0x34000000 + rt.number * 0x200000 + rt.number * 0x10000 + low.toNat] ∧
    (high.toNat * 0x10000 + low.toNat : Int) = v

theorem loadedShort_ofInt (rt : Register) {v : Int} (hBounds : -0x8000 ≤ v ∧ v ≤ 0x7FFF) :
    LoadedShort rt v [immediateFields .addiu rt .zero (UInt16.ofInt v)] := by
  refine ⟨UInt16.ofInt v, ?_, signExtended_ofInt hBounds.1 hBounds.2⟩
  rw [List.map_singleton, Fields.toNat_toWord_immediateFields rt .zero _ rfl (by decide)]
  rfl

theorem loadedHalves_ofInt (rt : Register) (v : Int) :
    LoadedHalves rt (v % 0x100000000) (Instruction.halves rt (UInt32.ofInt v)) := by
  refine ⟨(UInt32.ofInt v >>> 16).toUInt16, (UInt32.ofInt v).toUInt16, ?_, ?_⟩
  · rw [Instruction.halves, List.map_cons, List.map_singleton,
      Fields.toNat_toWord_immediateFields rt .zero _ rfl (by decide),
      Fields.toNat_toWord_immediateFields rt rt _ rfl (by decide)]
    rfl
  · have hWord := toNat_ofInt32 v
    have hHigh : (UInt32.ofInt v >>> 16).toUInt16.toNat =
        (UInt32.ofInt v).toNat / 0x10000 % 0x10000 :=
      congrArg (· % 0x10000) (Nat.shiftRight_eq_div_pow _ 16)
    have hLow : (UInt32.ofInt v).toUInt16.toNat = (UInt32.ofInt v).toNat % 0x10000 :=
      UInt32.toNat_toUInt16 _
    omega

/-- A load succeeds exactly for defined operands from `lower` to `upper`, and then yields the words
that belong to the number, as many as its size says. -/
structure Loads (pc : UInt32) (labels : LabelTable) (i : Instruction) (c : Immediate)
    (lower upper : Int) (Loaded : Int → List Fields → Prop) : Prop where
  encodable : (∃ ws, i.encode pc labels = .ok ws) ↔
    ∃ v, c.Denotes labels v ∧ lower ≤ v ∧ v ≤ upper
  words : ∀ v ws, c.Denotes labels v → i.encode pc labels = .ok ws →
    Loaded v ws ∧ i.size = 4 * ws.length

theorem Loads.of_checks {pc : UInt32} {labels : LabelTable} {i : Instruction} {c : Immediate}
    {lower upper : Int} {Loaded : Int → List Fields → Prop} (hConstant : i.constant? = some c)
    (hCheck : ∀ v, (∀ d ∈ i.constant?, d.Denotes labels v) →
      Checks (i.encode pc labels) (lower ≤ v ∧ v ≤ upper) (i.layout pc v))
    (hLoaded : ∀ v, c.Denotes labels v → lower ≤ v ∧ v ≤ upper → Loaded v (i.layout pc v)) :
    Loads pc labels i c lower upper Loaded := by
  constructor
  · constructor
    · rintro ⟨ws, hEncode⟩
      rcases i.denotes_or_undefined pc labels with ⟨v, hValue⟩ | ⟨name, hError⟩
      · exact ⟨v, hValue c hConstant, ((hCheck v hValue).eq_ok_iff.mp hEncode).1⟩
      · cases hEncode.symm.trans hError
    · rintro ⟨v, hDenotes, hBounds⟩
      exact ⟨_, (hCheck v (Instruction.denotes_of_mem hConstant hDenotes)).accepts hBounds⟩
  · intro v ws hDenotes hEncode
    refine ⟨?_, Instruction.size_eq_of_encode hEncode⟩
    have hOperand := Instruction.denotes_of_mem hConstant hDenotes
    obtain ⟨hBounds, rfl⟩ := (hCheck v hOperand).eq_ok_iff.mp hEncode
    exact hLoaded v hDenotes hBounds

/-- Loads spell the number that their operand denotes, and take as many words as was said before
any label was known. -/
theorem loads_denoted (rt : Register) (c : Immediate) (pc : UInt32) (labels : LabelTable) :
    Loads pc labels (.loadImm rt c) c (-0x80000000) 0xFFFFFFFF
        (fun v ws => LoadedShort rt v ws ∨ LoadedHalves rt (v % 0x100000000) ws) ∧
      Loads pc labels (.loadAddr rt c) c 0 0xFFFFFFFF (LoadedHalves rt) := by
  constructor
  · refine .of_checks rfl (fun v hValue => ?_) (fun v hDenotes _ => ?_)
    · have hCheck : Checks _ (Fits pc .loadImm v) _ :=
        Instruction.checks_encode (m := .li) pc rfl (rt, c, ()) hValue
      exact hCheck.of_iff (by rw [Fits]; omega)
    · rw [Instruction.layout]
      split
      · rename_i hShort
        exact Or.inl (loadedShort_ofInt rt (Instruction.bounds_of_size_eq_four hShort hDenotes))
      · exact Or.inr (loadedHalves_ofInt rt v)
  · refine .of_checks rfl (fun v hValue => ?_) (fun v _ hBounds => ?_)
    · have hCheck : Checks _ (Fits pc .loadAddr v) _ :=
        Instruction.checks_encode (m := .la) pc rfl (rt, c, ()) hValue
      exact hCheck.of_iff (by rw [Fits]; omega)
    · have hHalves := loadedHalves_ofInt rt v
      rwa [Int.emod_eq_of_lt hBounds.1 (by omega)] at hHalves

/-- The least short number, the number below it, and an address whose lower half would extend to
a negative number. -/
theorem loads_denoted_around_short :
    let rt : Register := ⟨8⟩
    let least := Instruction.loadImm rt (.literal (-0x8000))
    let below := Instruction.loadImm rt (.literal (-0x8001))
    let address := Instruction.loadAddr rt (.literal 0x1000FFFC)
    (∃ ws, least.encode 0 .empty = .ok ws ∧ ws.map Fields.toWord = [0x24088000] ∧
      LoadedShort rt (-0x8000) ws ∧ least.size = 4 * ws.length) ∧
    (∃ ws, below.encode 0 .empty = .ok ws ∧ ws.map Fields.toWord = [0x3C08FFFF, 0x35087FFF] ∧
      LoadedHalves rt 0xFFFF7FFF ws ∧ below.size = 4 * ws.length) ∧
    ∃ ws, address.encode 0 .empty = .ok ws ∧ ws.map Fields.toWord = [0x3C081000, 0x3508FFFC] ∧
      LoadedHalves rt 0x1000FFFC ws ∧ address.size = 4 * ws.length := by
  intro rt least below address
  have hLeast := (loads_denoted rt (.literal (-0x8000)) 0 .empty).1.words (-0x8000) _ rfl rfl
  have hBelow := (loads_denoted rt (.literal (-0x8001)) 0 .empty).1.words (-0x8001) _ rfl rfl
  have hAddress := (loads_denoted rt (.literal 0x1000FFFC) 0 .empty).2.words 0x1000FFFC _ rfl rfl
  refine ⟨⟨_, rfl, by decide, hLeast.1.resolve_right ?_, hLeast.2⟩,
    ⟨_, rfl, by decide, hBelow.1.resolve_left ?_, hBelow.2⟩, ⟨_, rfl, by decide, hAddress⟩⟩
  · rintro ⟨high, low, hWords, _⟩
    cases congrArg List.length hWords
  · rintro ⟨k, hWords, _⟩
    cases congrArg List.length hWords

end MipsAsm
