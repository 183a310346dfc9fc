import MipsAsm.Proofs.Assembly.Labels

/-! # Statements that are rejected

A statement checks its arguments before it changes anything. What can fail later is the binding of
a label that is there already and the staging of an item that does not fit the address space; the
latter comes after the cursor was aligned and labels were bound, but before anything was staged.
-/

namespace MipsAsm

open Memory (Image)
open Outcome (run_bind_eq_error)

namespace Error

def IsRedefinition (e : Error) : Prop :=
  ∃ pos name, e = .assembly pos (.redefinedLabel name)

def IsOverflow (e : Error) : Prop :=
  ∃ pos address, e = .assembly pos (.addressOverflow address)

end Error

/-- How a statement on `a` fails: with nothing done, at a label that is there already, or on an
item that does not fit behind the cursor. -/
inductive Rejected (a : Assembly) : Error → Assembly → Prop where
  | refused (e : Error) : Rejected a e a
  | redefined (e : Error) (b : Assembly) (hRedefined : e.IsRedefinition) : Rejected a e b
  | overflown (e : Error) (pc : UInt32) (names : List Token) (hOverflow : e.IsOverflow) :
      Rejected a e ((a.movedTo pc).flush names)

namespace Assemble

variable {a b : Assembly} {e : Error}

/-! ## Single steps -/

theorem liftExcept_error {α : Type} {x : Except Error α} (hRun : liftExcept x a = .error e b) :
    b = a := by
  cases x with
  | ok v => cases hRun
  | error d =>
    cases hRun
    rfl

theorem align_error {alignment : Nat} {pos : Position} (hRun : align alignment pos a = .error e b) :
    b = a := by
  rcases align_cases alignment pos a with ⟨_, _, hOk⟩ | ⟨_, hError⟩
  · cases hOk.symm.trans hRun
  · cases hError.symm.trans hRun
    rfl

theorem checkSpace_error {pos : Position} {count : Nat} (hRun : checkSpace pos count a = .error e b) :
    b = a := by
  rcases checkSpace_cases pos count a with hOk | ⟨_, hError⟩
  · cases hOk.symm.trans hRun
  · cases hError.symm.trans hRun
    rfl

theorem defineLabel_error {address : UInt32} {t : Token} (hRun : defineLabel address t a = .error e b) :
    e.IsRedefinition := by
  rw [defineLabel, LabelTable.define] at hRun
  split at hRun
  · cases hRun
  · rename_i cause hCause
    split at hCause
    · cases hCause
      cases hRun
      exact ⟨_, _, rfl⟩
    · cases hCause

theorem defineLabels_error {address : UInt32} {ts : List Token} :
    ∀ {a : Assembly}, defineLabels address ts a = .error e b → e.IsRedefinition := by
  induction ts with
  | nil =>
    intro a hRun
    cases hRun
  | cons t ts ih =>
    intro a hRun
    rcases run_bind_eq_error.mp hRun with hFirst | ⟨_, _, _, hRest⟩
    · exact defineLabel_error hFirst
    · exact ih hRest

theorem define_error {names : List Token} (hRun : define names a = .error e b) :
    e.IsRedefinition := by
  have hLabels : defineLabels a.pc (a.pending ++ names) { a with pending := [] } = .error e b := hRun
  exact defineLabels_error hLabels

theorem emit_error {pos : Position} {payload : Payload} (hRun : emit pos payload a = .error e b) :
    e.IsOverflow ∧ b = a := by
  by_cases hStop : a.pc.toNat + payload.size < 0x100000000
  · cases hRun.symm.trans (if_pos hStop)
  · cases hRun.symm.trans (if_neg hStop)
    exact ⟨⟨_, _, rfl⟩, rfl⟩

/-! ## Statements -/

theorem rejected_stage {alignment : Nat} {names : List Token} {pos : Position} {payload : Payload}
    (hRun : stage alignment names pos payload a = .error e b) : Rejected a e b := by
  rcases run_bind_eq_error.mp hRun with hAlign | ⟨_, _, hAlign, hRest⟩
  · cases align_error hAlign
    exact .refused e
  obtain ⟨pc, _, rfl⟩ := align_ok hAlign
  rcases run_bind_eq_error.mp hRest with hDefine | ⟨_, _, hDefine, hEmit⟩
  · exact .redefined e b (define_error hDefine)
  cases define_ok hDefine
  obtain ⟨hOverflow, rfl⟩ := emit_error hEmit
  exact .overflown e pc names hOverflow

theorem rejected_directive {names : List Token} {pos : Position} {d : Directive}
    (hRun : directive names pos d a = .error e b) : Rejected a e b := by
  cases d with
  | switch target address =>
    -- labels are bound on both sides of the switch, and nothing else can fail
    rcases run_bind_eq_error.mp hRun with hDefine | ⟨_, _, _, hRest⟩
    · exact .redefined e b (define_error hDefine)
    · rcases run_bind_eq_error.mp hRest with hSwitch | ⟨_, _, _, hDefine⟩
      · cases hSwitch
      · exact .redefined e b (define_error hDefine)
  | data width values => exact rejected_stage hRun
  | bytes content =>
    apply rejected_stage
    rw [stage_one]
    exact hRun
  | space count =>
    rcases run_bind_eq_error.mp hRun with hCheck | ⟨_, _, hCheck, hRest⟩
    · cases checkSpace_error hCheck
      exact .refused e
    · cases checkSpace_ok hCheck
      apply rejected_stage
      rw [stage_one]
      exact hRest
  | align exponent =>
    rcases run_bind_eq_error.mp hRun with hAlign | ⟨_, _, _, hDefine⟩
    · cases align_error hAlign
      exact .refused e
    · exact .redefined e b (define_error hDefine)

theorem rejected_instruction {names : List Token} {m : Isa.Mnemonic} {head : Token} {ts : List Token}
    (hRun : instruction names m head ts a = .error e b) : Rejected a e b := by
  by_cases hText : a.active = .text
  · rw [instruction_of_text names m head ts a hText] at hRun
    rcases run_bind_eq_error.mp hRun with hParse | ⟨_, _, hParse, hStage⟩
    · cases liftExcept_error hParse
      exact .refused e
    · obtain ⟨_, rfl⟩ := liftExcept_ok hParse
      exact rejected_stage hStage
  · cases hRun.symm.trans (instruction_of_ne_text names m head ts a hText)
    exact .refused _

theorem rejected_statement {names : List Token} {head : Token} {ts : List Token}
    (hRun : statement names head ts a = .error e b) : Rejected a e b := by
  cases hKind : head.kind with
  | directive =>
    rw [statement, hKind] at hRun
    rcases run_bind_eq_error.mp hRun with hParse | ⟨_, _, hParse, hDirective⟩
    · cases liftExcept_error hParse
      exact .refused e
    · obtain ⟨_, rfl⟩ := liftExcept_ok hParse
      exact rejected_directive hDirective
  | mnemonic =>
    rw [statement, hKind] at hRun
    cases hName : Isa.Mnemonic.ofName? head.text with
    | some m =>
      simp only [hName] at hRun
      exact rejected_instruction hRun
    | none =>
      simp only [hName] at hRun
      cases hRun
      exact .refused _
  | _ =>
    rw [statement, hKind] at hRun
    cases hRun
    exact .refused _

theorem rejected_line {ts : List Token} (hRun : line ts a = .error e b) : Rejected a e b := by
  rw [line_eq] at hRun
  cases hHead : ts.dropWhile Token.isLabel with
  | nil =>
    rw [hHead] at hRun
    cases hRun
  | cons head operands =>
    rw [hHead] at hRun
    exact rejected_statement hRun

end Assemble

/-- **A rejected statement leaves no trace.** Unless a label is bound twice, a line that fails
leaves the memory and the staged items as they were; unless it also runs out of addresses, it
leaves everything as it was. -/
theorem untouched_of_rejected {ts : List Token} {a b : Assembly} {e : Error}
    (hRun : Assemble.line ts a = .error e b) (hRedefined : ¬e.IsRedefinition) :
    (b.memory = a.memory ∧ b.staged = a.staged) ∧ (¬e.IsOverflow → b = a) := by
  cases Assemble.rejected_line hRun with
  | refused => exact ⟨⟨rfl, rfl⟩, fun _ => rfl⟩
  | redefined _ hAgain => exact absurd hAgain hRedefined
  | overflown pc names hOverflow =>
    refine ⟨⟨?_, ?_⟩, fun hOther => absurd hOverflow hOther⟩
    · exact a.memory_withCursor _
    · exact a.staged_withCursor _

/-- A label waits near the end of the address space. -/
def crowded : Assembly :=
  ⟨.data, ⟨0, false⟩, ⟨0xFFFFFFFD, true⟩, [⟨.label, "w:", ⟨0, 0, 0⟩⟩], .empty,
    (Image.ofCapacity 4 .big).openData 0xFFFFFFFD, #[]⟩

/-- `x: .word 1, $t0` -/
def flawedLine : List Token :=
  [⟨.label, "x:", ⟨0, 1, 0⟩⟩, ⟨.directive, ".word", ⟨0, 1, 3⟩⟩, ⟨.integerConstant, "1", ⟨0, 1, 9⟩⟩,
    ⟨.separator, ",", ⟨0, 1, 10⟩⟩, ⟨.register, "$t0", ⟨0, 1, 12⟩⟩]

/-- `x: .half 1, 2` -/
def longLine : List Token :=
  [⟨.label, "x:", ⟨0, 1, 0⟩⟩, ⟨.directive, ".half", ⟨0, 1, 3⟩⟩, ⟨.integerConstant, "1", ⟨0, 1, 9⟩⟩,
    ⟨.separator, ",", ⟨0, 1, 10⟩⟩, ⟨.integerConstant, "2", ⟨0, 1, 12⟩⟩]

theorem untouched_of_rejected_crowded :
    (∃ b, Assemble.line flawedLine crowded =
        .error ((Cause.badOperand "$t0" .immediate).located ⟨0, 1, 12⟩) b ∧ b = crowded) ∧
      ∃ b, Assemble.line longLine crowded =
        .error ((Cause.addressOverflow 0x100000002).located ⟨0, 1, 3⟩) b ∧
        b.labels.size = 2 ∧ b.memory = crowded.memory ∧ b.staged = crowded.staged := by
  have hFlawed : Assemble.line flawedLine crowded =
      .error ((Cause.badOperand "$t0" .immediate).located ⟨0, 1, 12⟩) crowded := by
    decide +kernel
  have hLong : Assemble.line longLine crowded =
      .error ((Cause.addressOverflow 0x100000002).located ⟨0, 1, 3⟩)
        ((crowded.movedTo 0xFFFFFFFE).flush [⟨.label, "x:", ⟨0, 1, 0⟩⟩]) := by
    decide +kernel
  obtain ⟨_, hSame⟩ := untouched_of_rejected hFlawed (by rintro ⟨_, _, ⟨⟩⟩)
  obtain ⟨⟨hMemory, hStaged⟩, _⟩ := untouched_of_rejected hLong (by rintro ⟨_, _, ⟨⟩⟩)
  exact ⟨⟨_, hFlawed, hSame (by rintro ⟨_, _, ⟨⟩⟩)⟩, _, hLong, by decide +kernel, hMemory, hStaged⟩

end MipsAsm
