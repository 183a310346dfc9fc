import MipsAsm.Assembly.Directive
import MipsAsm.Proofs.Instruction.Operands

/-! # Roles of statements

For the labels in front of it, all that matters of a statement is whether it stages an item, aligns
the cursor or goes on in another section. Its first token tells.
-/

namespace MipsAsm

open Outcome (bind_eq_ok map_eq_ok pure_eq_ok)
open Operands

inductive Role where
  | emits
  | aligns
  | switches (target : Section)
  deriving DecidableEq, Repr

def Role.ofDirective : String → Role
  | ".text" => .switches .text
  | ".data" => .switches .data
  | ".align" => .aligns
  | _ => .emits

/-- The role of the statement that a token starts. -/
def Token.role (head : Token) : Role :=
  if head.kind = .directive then .ofDirective head.text else .emits

namespace Directive

def role : Directive → Role
  | .switch target _ => .switches target
  | .align _ => .aligns
  | .data _ _ | .bytes _ | .space _ => .emits

variable {head : Token} {ts : List Token} {d : Directive}

theorem parseSwitch_ok {target : Section} (hParse : parseSwitch head ts target = .ok d) :
    d.role = .switches target ∧ Token.Plain ts := by
  cases ts with
  | nil =>
    cases hParse
    exact ⟨rfl, Token.Plain.nil⟩
  | cons t ts =>
    obtain ⟨⟨v, us⟩, hRead, hRest⟩ := bind_eq_ok.mp hParse
    cases v with
    | symbol _ => cases hRest
    | literal v =>
      obtain ⟨_, hFinish, hPure⟩ := bind_eq_ok.mp hRest
      cases pure_eq_ok.mp hPure
      exact ⟨rfl, readImmediate_ok hRead (finish_ok hFinish)⟩

theorem parseString_ok {terminator : List UInt8} (hParse : parseString head ts terminator = .ok d) :
    d.role = .emits ∧ Token.Plain ts := by
  obtain ⟨⟨t, us⟩, hOperand, hRest⟩ := bind_eq_ok.mp hParse
  obtain ⟨_, hString, hRest⟩ := bind_eq_ok.mp hRest
  obtain ⟨_, hFinish, hPure⟩ := bind_eq_ok.mp hRest
  cases pure_eq_ok.mp hPure
  exact ⟨rfl, operand_ok hOperand ((Operands.finish_ok hFinish).cons (stringOf_ok hString))⟩

theorem parseSpace_ok (hParse : parseSpace head ts = .ok d) :
    d.role = .emits ∧ Token.Plain ts := by
  obtain ⟨⟨v, us⟩, hRead, hRest⟩ := bind_eq_ok.mp hParse
  cases v with
  | symbol _ => cases hRest
  | literal v =>
    dsimp only at hRest
    split at hRest
    · cases hRest
    · obtain ⟨_, hFinish, hPure⟩ := bind_eq_ok.mp hRest
      cases pure_eq_ok.mp hPure
      exact ⟨rfl, readImmediate_ok hRead (finish_ok hFinish)⟩

theorem parseAlign_ok (hParse : parseAlign head ts = .ok d) :
    d.role = .aligns ∧ Token.Plain ts := by
  obtain ⟨⟨v, us⟩, hRead, hRest⟩ := bind_eq_ok.mp hParse
  cases v with
  | symbol _ => cases hRest
  | literal v =>
    dsimp only at hRest
    split at hRest
    · obtain ⟨_, hFinish, hPure⟩ := bind_eq_ok.mp hRest
      cases pure_eq_ok.mp hPure
      exact ⟨rfl, readImmediate_ok hRead (finish_ok hFinish)⟩
    · cases hRest

theorem data_ok {width : Width} (hParse : (immediates head.pos ts).map (.data width) = .ok d) :
    d.role = .emits ∧ Token.Plain ts := by
  obtain ⟨vs, hRead, rfl⟩ := map_eq_ok.mp hParse
  exact ⟨rfl, immediates_ok hRead⟩

/-- A directive has the role that its name announces, and no label among its arguments. -/
theorem parse_ok (hParse : parse head ts = .ok d) :
    d.role = .ofDirective head.text ∧ Token.Plain ts := by
  rw [parse] at hParse
  split at hParse <;> rename_i hText
  · rw [hText]
    exact parseSwitch_ok hParse
  · rw [hText]
    exact parseSwitch_ok hParse
  · rw [hText]
    exact data_ok hParse
  · rw [hText]
    exact data_ok hParse
  · rw [hText]
    exact data_ok hParse
  · rw [hText]
    exact parseString_ok hParse
  · rw [hText]
    exact parseString_ok hParse
  · rw [hText]
    exact parseSpace_ok hParse
  · rw [hText]
    exact parseAlign_ok hParse
  · cases hParse

end Directive

end MipsAsm
