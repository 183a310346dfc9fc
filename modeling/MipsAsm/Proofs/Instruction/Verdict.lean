import MipsAsm.Proofs.Instruction.Language

/-! # Readers of operands

The verdicts of the readers, from a single token up to all the operands of a format. They are sound
and complete: a reader stops at a token only if no word of its language goes on with it.
-/

namespace MipsAsm.Operands

open Isa (Mnemonic Register)

variable {head : Position} {p : Token → Prop} {t : Token} {ts : List Token}

/-! ## Readers of one token -/

theorem proper_separator (text : String) : Proper (separator text) :=
  .oneOf ⟨⟨.separator, text, ⟨0, 0, 0⟩⟩, by simp [Token.is]⟩

theorem proper_register : Proper (oneOf IsRegister) :=
  .oneOf ⟨⟨.register, "", ⟨0, 0, 0⟩⟩, rfl⟩

theorem proper_immediate : Proper (oneOf IsImmediate) :=
  .oneOf ⟨⟨.identifier, "", ⟨0, 0, 0⟩⟩, Or.inr (Or.inl rfl)⟩

/-- A reader of the next token. -/
def checked {α : Type} (check : Token → Except Error α) (head : Position) (ts : List Token) :
    Except Error (α × List Token) := do
  let (t, ts) ← next head ts
  return (← check t, ts)

theorem verdict_checked {α : Type} {check : Token → Except Error α} (hProper : Proper (oneOf p))
    (hCheck : ∀ t ∈ ts, p t ∧ (∃ a, check t = .ok a) ∨
      ¬p t ∧ ∃ e, check t = .error e ∧ Blames t e) :
    Verdict head (oneOf p) ts Prod.snd (checked check head ts) := by
  obtain ⟨_, u, rfl, hSome⟩ := hProper.exists_word
  cases ts with
  | nil => exact .missing [u] (List.cons_ne_nil u []) ⟨u, rfl, hSome⟩
  | cons t ts =>
    change Verdict head _ _ _ (check t >>= fun a => pure (a, ts))
    rcases hCheck t List.mem_cons_self with ⟨hClass, a, hOk⟩ | ⟨hOther, e, hError, hBlames⟩
    · rw [hOk]
      exact .read (a, ts) [t] ⟨t, rfl, hClass⟩ rfl
    · rw [hError]
      refine .blamed e [] t ts [u] rfl (List.cons_ne_nil u []) ⟨u, rfl, hSome⟩ ?_ hBlames
      exact fun us hMem => hOther (cons_mem_oneOf.mp hMem).2

theorem verdict_expect (text : String) :
    Verdict head (separator text) ts id (expect head text ts) := by
  have hChecked : Verdict head (separator text) ts Prod.snd
      (checked (fun t => if t.is .separator text then .ok () else unexpected t) head ts) := by
    refine verdict_checked (proper_separator text) fun t _ => ?_
    by_cases hIs : t.is .separator text = true
    · exact Or.inl ⟨hIs, (), if_pos hIs⟩
    · exact Or.inr ⟨hIs, _, if_neg hIs, Or.inl rfl⟩
  have hExpect : expect head text ts =
      checked (fun t => if t.is .separator text then .ok () else unexpected t) head ts >>=
        fun x => pure x.2 := by
    cases ts with
    | nil => rfl
    | cons t ts =>
      change (if t.is .separator text = true then pure ts else unexpected t) =
        (if t.is .separator text = true then .ok () else unexpected t) >>=
          (fun _ => pure ((), ts)) >>= _
      split <;> rfl
  rw [hExpect]
  exact hChecked.map Prod.snd fun _ => rfl

/-- A token that is read as a register has the name of one. -/
def Named (t : Token) : Prop :=
  IsRegister t → (Register.ofName? t.text).isSome = true

theorem verdict_register (hNamed : ∀ t ∈ ts, Named t) :
    Verdict head (oneOf IsRegister) ts Prod.snd (checked registerOf head ts) := by
  refine verdict_checked proper_register fun t hMem => ?_
  by_cases hKind : IsRegister t
  · obtain ⟨r, hName⟩ := Option.isSome_iff_exists.mp (hNamed t hMem hKind)
    exact Or.inl ⟨hKind, r, registerOf_eq_ok.mpr ⟨hKind, hName⟩⟩
  · refine Or.inr ⟨hKind, _, ?_, Or.inr ⟨.register, rfl⟩⟩
    rw [registerOf]
    split
    · contradiction
    · rfl

theorem isImmediate_iff : IsImmediate t ↔ ∃ v, immediate? t = some v := by
  cases hKind : t.kind <;> simp [IsImmediate, immediate?, hKind, Option.isSome_iff_exists]

theorem verdict_immediate :
    Verdict head (oneOf IsImmediate) ts Prod.snd (checked immediateOf head ts) := by
  refine verdict_checked proper_immediate fun t _ => ?_
  rw [isImmediate_iff, immediateOf]
  cases hImmediate : immediate? t with
  | some v => exact Or.inl ⟨⟨v, rfl⟩, v, rfl⟩
  | none => exact Or.inr ⟨by simp, _, rfl, Or.inr ⟨.immediate, rfl⟩⟩

/-! ## Memory operands -/

/-- What stands in front of the base. -/
def opening : Language Token :=
  separator "(" + oneOf IsImmediate * separator "("

theorem language_memory :
    Shape.memory.language = opening * (oneOf IsRegister * separator ")") := by
  rw [Shape.language, opening, add_mul, add_mul, one_mul, mul_assoc]

theorem not_isImmediate_of_is {text : String} (hIs : t.is .separator text = true) :
    ¬IsImmediate t := by
  rw [Token.is, Bool.and_eq_true, beq_iff_eq] at hIs
  simp [IsImmediate, hIs.1]

theorem proper_opening : Proper opening := by
  refine (proper_separator "(").add (proper_immediate.mul (proper_separator "(")) ?_
  rintro _ us vs ws ⟨t, rfl, hIs⟩ hMem hSame
  obtain ⟨_, ⟨u, rfl, hImmediate⟩, _, _, rfl⟩ := Language.mem_mul.mp hMem
  cases hSame
  exact not_isImmediate_of_is hIs hImmediate

/-- The offset and the parenthesis behind it. -/
def readOpening (head : Position) (ts : List Token) : Except Error (Immediate × List Token) := do
  let (t, ts) ← next head ts
  if t.is .separator "(" then pure (.literal 0, ts)
  else do
    let offset ← immediateOf t
    pure (offset, ← expect head "(" ts)

theorem verdict_opening : Verdict head opening ts Prod.snd (readOpening head ts) := by
  have hOffset : Verdict head (oneOf IsImmediate * separator "(") ts Prod.snd
      (checked immediateOf head ts >>= fun x => expect head "(" x.2 >>= fun us => pure (x.1, us)) :=
    verdict_immediate.bind proper_immediate (proper_separator "(").exists_word
      fun x _ => (verdict_expect "(").map (Prod.mk x.1) fun _ => rfl
  cases ts with
  | nil => exact hOffset.inr fun before t us hFront => by simp at hFront
  | cons t ts =>
    by_cases hIs : t.is .separator "(" = true
    · have hRead : readOpening head (t :: ts) = .ok (Immediate.literal 0, ts) := if_pos hIs
      rw [hRead]
      exact .read (Immediate.literal 0, ts) [t] (Or.inl ⟨t, rfl, hIs⟩) rfl
    · have hRead : readOpening head (t :: ts) = checked immediateOf head (t :: ts) >>=
          fun x => expect head "(" x.2 >>= fun us => pure (x.1, us) := by
        refine (if_neg hIs).trans ?_
        change _ = (immediateOf t >>= fun a => pure (a, ts)) >>= _
        rw [bind_assoc]
        rfl
      rw [hRead]
      refine hOffset.inr fun before u us hFront hMem => ?_
      cases before with
      | nil =>
        obtain ⟨_, hSplit⟩ := hFront
        cases hSplit
        exact hIs (cons_mem_oneOf.mp hMem).2
      | cons v before => simpa using (cons_mem_oneOf.mp hMem).1

theorem readMemory_eq : readMemory head true ts = readOpening head ts >>= fun x =>
    checked registerOf head x.2 >>= fun y => expect head ")" y.2 >>= fun us =>
      pure ((x.1, y.1), us) := by
  have hBase : ∀ (offset : Immediate) (us : List Token), (do
      let (t, ts) ← next head us
      let base ← registerOf t
      let ts ← expect head ")" ts
      return ((offset, base), ts) : Except Error _) =
        checked registerOf head us >>= fun y => expect head ")" y.2 >>= fun us =>
          pure ((offset, y.1), us) := by
    intro offset us
    cases us with
    | nil => rfl
    | cons u us =>
      change (registerOf u >>= _) = (registerOf u >>= _) >>= _
      cases registerOf u <;> rfl
  cases ts with
  | nil => rfl
  | cons t ts =>
    by_cases hIs : t.is .separator "(" = true
    · have hOpening : readOpening head (t :: ts) = .ok (Immediate.literal 0, ts) := if_pos hIs
      rw [hOpening]
      exact (if_pos hIs).trans (hBase _ ts)
    · have hOpening : readOpening head (t :: ts) = immediateOf t >>= fun offset =>
          expect head "(" ts >>= fun us => pure (offset, us) := if_neg hIs
      rw [hOpening]
      refine (if_neg hIs).trans ?_
      cases immediateOf t with
      | error e => rfl
      | ok offset =>
        cases expect head "(" ts with
        | error e => rfl
        | ok us => exact hBase offset us

/-! ## Lists of operands -/

theorem proper_shape (shape : Shape) : Proper shape.language := by
  cases shape with
  | register => exact proper_register
  | immediate => exact proper_immediate
  | memory =>
    rw [language_memory]
    exact proper_opening.mul (proper_register.mul (proper_separator ")"))

theorem proper_commaSeparated (shapes : List Shape) :
    Proper (commaSeparated (shapes.map Shape.language)) := by
  induction shapes with
  | nil => exact .one
  | cons shape shapes ih =>
    cases shapes with
    | nil => exact proper_shape shape
    | cons next rest => exact (proper_shape shape).mul ((proper_separator ",").mul ih)

theorem verdict_shape (shape : Shape) (hNamed : ∀ t ∈ ts, Named t) :
    Verdict head shape.language ts Prod.snd (readShape head true ts shape) := by
  cases shape with
  | register => exact verdict_register hNamed
  | immediate => exact verdict_immediate
  | memory =>
    change Verdict head _ ts Prod.snd (readMemory head true ts)
    rw [language_memory, readMemory_eq]
    have hBase := proper_register.mul (proper_separator ")")
    refine verdict_opening.bind proper_opening hBase.exists_word fun x hBehind => ?_
    refine (verdict_register fun t hMem => hNamed t (hBehind.mem hMem)).bind proper_register
      (proper_separator ")").exists_word fun y _ => ?_
    exact (verdict_expect ")").map (Prod.mk (x.1, y.1)) fun _ => rfl

/-- All operands but the first are read behind a comma. -/
theorem readShape_false (shape : Shape) : readShape head false ts shape =
    expect head "," ts >>= fun us => readShape head true us shape := by
  have hOperand : operand head false ts = expect head "," ts >>= next head := rfl
  cases hExpect : expect head "," ts with
  | error e =>
    rw [hExpect] at hOperand
    cases shape with
    | register => rw [readShape, hOperand]; rfl
    | immediate => rw [readShape, readImmediate, hOperand]; rfl
    | memory => rw [readShape, readMemory, hOperand]; rfl
  | ok us =>
    rw [hExpect] at hOperand
    cases shape with
    | register => rw [readShape, hOperand]; rfl
    | immediate => rw [readShape, readImmediate, hOperand]; rfl
    | memory => rw [readShape, readMemory, hOperand]; rfl

theorem readShapes_false (shape : Shape) (shapes : List Shape) :
    readShapes head false ts (shape :: shapes) =
      expect head "," ts >>= fun us => readShapes head true us (shape :: shapes) := by
  rw [readShapes, readShape_false, bind_assoc]
  rfl

theorem verdict_shapes (shapes : List Shape) :
    ∀ {ts : List Token}, (∀ t ∈ ts, Named t) →
      Verdict head (commaSeparated (shapes.map Shape.language)) ts Prod.snd
        (readShapes head true ts shapes) := by
  induction shapes with
  | nil =>
    intro ts _
    exact .read ((), ts) [] Language.nil_mem_one rfl
  | cons shape shapes ih =>
    intro ts hNamed
    have hFirst : Verdict head shape.language ts _ _ := verdict_shape shape hNamed
    cases shapes with
    | nil => exact hFirst.map (fun x => ((x.1, ()), x.2)) fun _ => rfl
    | cons next rest =>
      have hRest := (proper_separator ",").mul (proper_commaSeparated (next :: rest))
      refine hFirst.bind (proper_shape shape) hRest.exists_word fun x hBehind => ?_
      have hMore : Verdict head (separator "," * commaSeparated ((next :: rest).map Shape.language))
          x.2 Prod.snd (readShapes head false x.2 (next :: rest)) := by
        rw [readShapes_false]
        refine (verdict_expect ",").bind (proper_separator ",")
          (proper_commaSeparated (next :: rest)).exists_word fun us hBehind' => ?_
        exact ih fun t hMem => hNamed t (hBehind.mem (hBehind'.mem hMem))
      exact hMore.map (fun y => ((x.1, y.1), y.2)) fun _ => rfl

/-- The lists of operands that a mnemonic takes. -/
def accepted (m : Mnemonic) : Language Token :=
  commaSeparated ((shapes m.format).map Shape.language)

end MipsAsm.Operands
