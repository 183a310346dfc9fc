import MipsAsm.Assembly.Directive
import MipsAsm.Proofs.Token.Alike

/-! # Statements that differ in positions only

What operands and directives are read from tokens does not hang on positions, and errors blame
corresponding ones.
-/

namespace MipsAsm

open Outcome (Agree)

variable {P : Position → Position → Prop}

namespace Operands

variable {head head' : Position} {first : Bool} {t u : Token} {ts us : List Token}

/-- The same value, with tokens alike still unread. -/
def SameRead {α : Type} (P : Position → Position → Prop) (x y : α × List Token) : Prop :=
  x.1 = y.1 ∧ List.Forall₂ (Token.Alike P) x.2 y.2

/-- A token taken off, with tokens alike still unread. -/
def AlikeRead (P : Position → Position → Prop) (x y : Token × List Token) : Prop :=
  Token.Alike P x.1 y.1 ∧ List.Forall₂ (Token.Alike P) x.2 y.2

/-! ## Single tokens -/

theorem next_alike (hHead : P head head') (hTokens : List.Forall₂ (Token.Alike P) ts us) :
    Agree (Error.Alike P) (AlikeRead P) (next head ts) (next head' us) := by
  cases hTokens with
  | nil => exact .error (.located hHead _)
  | cons hToken hRest => exact .ok ⟨hToken, hRest⟩

theorem unexpected_alike {α β : Type} {V : α → β → Prop} (hToken : Token.Alike P t u) :
    Agree (Error.Alike P) V (unexpected t) (unexpected u) := by
  rw [unexpected, unexpected, hToken.text]
  exact .error (.located hToken.pos _)

theorem badOperand_alike {α β : Type} {V : α → β → Prop} (hToken : Token.Alike P t u)
    (expected : OperandKind) :
    Agree (Error.Alike P) V (badOperand t expected) (badOperand u expected) := by
  rw [badOperand, badOperand, hToken.text]
  exact .error (.located hToken.pos _)

theorem expect_alike (hHead : P head head') (separator : String)
    (hTokens : List.Forall₂ (Token.Alike P) ts us) :
    Agree (Error.Alike P) (List.Forall₂ (Token.Alike P)) (expect head separator ts)
      (expect head' separator us) := by
  refine (next_alike hHead hTokens).bind ?_
  rintro ⟨t, ts⟩ ⟨u, us⟩ ⟨hToken, hRest⟩
  dsimp only
  rw [hToken.is_eq]
  split
  · exact .ok hRest
  · exact unexpected_alike hToken

theorem operand_alike (hHead : P head head') (first : Bool)
    (hTokens : List.Forall₂ (Token.Alike P) ts us) :
    Agree (Error.Alike P) (AlikeRead P) (operand head first ts) (operand head' first us) := by
  cases first with
  | true => exact next_alike hHead hTokens
  | false =>
    refine (expect_alike hHead "," hTokens).bind ?_
    intro ts us hRest
    exact next_alike hHead hRest

theorem registerOf_alike (hToken : Token.Alike P t u) :
    Agree (Error.Alike P) Eq (registerOf t) (registerOf u) := by
  rw [registerOf, registerOf, hToken.kind, hToken.text]
  split
  · exact .ok rfl
  · exact badOperand_alike hToken _

theorem immediate?_alike (hToken : Token.Alike P t u) : immediate? t = immediate? u := by
  rw [immediate?, immediate?, hToken.kind, hToken.text, hToken.intValue?_eq]

theorem immediateOf_alike (hToken : Token.Alike P t u) :
    Agree (Error.Alike P) Eq (immediateOf t) (immediateOf u) := by
  rw [immediateOf, immediateOf, immediate?_alike hToken]
  split
  · exact .ok rfl
  · exact badOperand_alike hToken _

theorem stringOf_alike (hToken : Token.Alike P t u) :
    Agree (Error.Alike P) Eq (stringOf t) (stringOf u) := by
  rw [stringOf, stringOf, hToken.kind, hToken.text]
  split
  · exact .ok rfl
  · exact badOperand_alike hToken _

theorem finish_alike (hTokens : List.Forall₂ (Token.Alike P) ts us) :
    Agree (Error.Alike P) Eq (finish ts) (finish us) := by
  cases hTokens with
  | nil => exact .ok rfl
  | cons hToken _ => exact unexpected_alike hToken

/-! ## Operands of a shape -/

theorem readImmediate_alike (hHead : P head head') (first : Bool)
    (hTokens : List.Forall₂ (Token.Alike P) ts us) :
    Agree (Error.Alike P) (SameRead P) (readImmediate head first ts)
      (readImmediate head' first us) := by
  refine (operand_alike hHead first hTokens).bind ?_
  rintro ⟨t, ts⟩ ⟨u, us⟩ ⟨hToken, hRest⟩
  refine (immediateOf_alike hToken).bind ?_
  rintro v _ rfl
  exact .ok ⟨rfl, hRest⟩

/-- The base register behind the opening parenthesis of a memory operand. -/
theorem readBase_alike (hHead : P head head') (offset : Immediate)
    (hTokens : List.Forall₂ (Token.Alike P) ts us) :
    Agree (Error.Alike P) (SameRead P)
      (do
        let (t, ts) ← next head ts
        let base ← registerOf t
        let ts ← expect head ")" ts
        return ((offset, base), ts))
      (do
        let (t, ts) ← next head' us
        let base ← registerOf t
        let ts ← expect head' ")" ts
        return ((offset, base), ts)) := by
  refine (next_alike hHead hTokens).bind ?_
  rintro ⟨t, ts⟩ ⟨u, us⟩ ⟨hToken, hRest⟩
  refine (registerOf_alike hToken).bind ?_
  rintro base _ rfl
  refine (expect_alike hHead ")" hRest).bind ?_
  intro ts us hRest
  exact .ok ⟨rfl, hRest⟩

theorem readMemory_alike (hHead : P head head') (first : Bool)
    (hTokens : List.Forall₂ (Token.Alike P) ts us) :
    Agree (Error.Alike P) (SameRead P) (readMemory head first ts) (readMemory head' first us) := by
  refine (operand_alike hHead first hTokens).bind ?_
  rintro ⟨t, ts⟩ ⟨u, us⟩ ⟨hToken, hRest⟩
  dsimp only
  rw [hToken.is_eq]
  split
  · exact readBase_alike hHead _ hRest
  · refine (immediateOf_alike hToken).bind ?_
    rintro offset _ rfl
    refine (expect_alike hHead "(" hRest).bind ?_
    intro ts us hRest
    exact readBase_alike hHead offset hRest

theorem readShape_alike (hHead : P head head') (first : Bool) (shape : Shape)
    (hTokens : List.Forall₂ (Token.Alike P) ts us) :
    Agree (Error.Alike P) (SameRead P) (readShape head first ts shape)
      (readShape head' first us shape) := by
  cases shape with
  | register =>
    refine (operand_alike hHead first hTokens).bind ?_
    rintro ⟨t, ts⟩ ⟨u, us⟩ ⟨hToken, hRest⟩
    refine (registerOf_alike hToken).bind ?_
    rintro r _ rfl
    exact .ok ⟨rfl, hRest⟩
  | immediate => exact readImmediate_alike hHead first hTokens
  | memory => exact readMemory_alike hHead first hTokens

theorem readShapes_alike (hHead : P head head') (shapes : List Shape) :
    ∀ {first : Bool} {ts us : List Token}, List.Forall₂ (Token.Alike P) ts us →
      Agree (Error.Alike P) (SameRead P) (readShapes head first ts shapes)
        (readShapes head' first us shapes) := by
  induction shapes with
  | nil =>
    intro first ts us hTokens
    exact .ok ⟨rfl, hTokens⟩
  | cons shape shapes ih =>
    intro first ts us hTokens
    refine (readShape_alike hHead first shape hTokens).bind ?_
    rintro ⟨v, ts⟩ ⟨_, us⟩ ⟨rfl, hRest⟩
    refine (ih hRest).bind ?_
    rintro ⟨vs, ts⟩ ⟨_, us⟩ ⟨rfl, hRest⟩
    exact .ok ⟨rfl, hRest⟩

theorem moreImmediates_alike (hHead : P head head') (ts : List Token) :
    ∀ {us : List Token}, List.Forall₂ (Token.Alike P) ts us →
      Agree (Error.Alike P) Eq (moreImmediates head ts) (moreImmediates head' us) := by
  -- immediates stand behind commas, so the list is taken apart by twos
  fun_induction moreImmediates head ts with
  | case1 =>
    rintro _ ⟨⟩
    exact .ok rfl
  | case2 comma hComma =>
    rintro _ (_ | ⟨hToken, ⟨⟩⟩)
    rw [moreImmediates, ← hToken.is_eq, if_pos hComma]
    exact .error (.located hHead _)
  | case3 comma hOther =>
    rintro _ (_ | ⟨hToken, ⟨⟩⟩)
    rw [moreImmediates, ← hToken.is_eq, if_neg hOther]
    exact unexpected_alike hToken
  | case4 comma t ts hComma ih =>
    rintro _ (_ | ⟨hToken, _ | ⟨hValue, hRest⟩⟩)
    rw [moreImmediates, ← hToken.is_eq, if_pos hComma]
    refine (immediateOf_alike hValue).bind ?_
    rintro v _ rfl
    refine (ih hRest).bind ?_
    rintro vs _ rfl
    exact .ok rfl
  | case5 comma t ts hOther =>
    rintro _ (_ | ⟨hToken, _ | ⟨hValue, hRest⟩⟩)
    rw [moreImmediates, ← hToken.is_eq, if_neg hOther]
    exact unexpected_alike hToken

theorem immediates_alike (hHead : P head head') (hTokens : List.Forall₂ (Token.Alike P) ts us) :
    Agree (Error.Alike P) Eq (immediates head ts) (immediates head' us) := by
  refine (readImmediate_alike hHead true hTokens).bind ?_
  rintro ⟨v, ts⟩ ⟨_, us⟩ ⟨rfl, hRest⟩
  refine (moreImmediates_alike hHead ts hRest).bind ?_
  rintro vs _ rfl
  exact .ok rfl

end Operands

open Operands

theorem Instruction.parse_alike {head head' : Position} {ts us : List Token} (m : Isa.Mnemonic)
    (hHead : P head head') (hTokens : List.Forall₂ (Token.Alike P) ts us) :
    Agree (Error.Alike P) Eq (Instruction.parse m head ts) (Instruction.parse m head' us) := by
  refine (readShapes_alike hHead (shapes m.format) hTokens).bind ?_
  rintro ⟨vs, ts⟩ ⟨_, us⟩ ⟨rfl, hRest⟩
  refine (finish_alike hRest).bind ?_
  rintro _ _ rfl
  exact .ok rfl

/-! ## Directives -/

namespace Directive

variable {head head' : Token} {ts us : List Token}

theorem flawed_alike {α β : Type} {V : α → β → Prop} (hHead : Token.Alike P head head')
    (flaw : DirectiveFlaw) :
    Agree (Error.Alike P) V (flawed head flaw) (flawed head' flaw) := by
  rw [flawed, flawed, hHead.text]
  exact .error (.located hHead.pos _)

theorem parseSwitch_alike (hHead : Token.Alike P head head')
    (hTokens : List.Forall₂ (Token.Alike P) ts us) (target : Section) :
    Agree (Error.Alike P) Eq (parseSwitch head ts target) (parseSwitch head' us target) := by
  cases hTokens with
  | nil => exact .ok rfl
  | cons hToken hRest =>
    refine (readImmediate_alike hHead.pos true (.cons hToken hRest)).bind ?_
    rintro ⟨v, ts⟩ ⟨_, us⟩ ⟨rfl, hRest⟩
    cases v with
    | literal v =>
      refine (finish_alike hRest).bind ?_
      rintro _ _ rfl
      exact .ok rfl
    | symbol _ => exact flawed_alike hHead _

theorem parseString_alike (hHead : Token.Alike P head head')
    (hTokens : List.Forall₂ (Token.Alike P) ts us) (terminator : List UInt8) :
    Agree (Error.Alike P) Eq (parseString head ts terminator)
      (parseString head' us terminator) := by
  refine (operand_alike hHead.pos true hTokens).bind ?_
  rintro ⟨t, ts⟩ ⟨u, us⟩ ⟨hToken, hRest⟩
  refine (stringOf_alike hToken).bind ?_
  rintro s _ rfl
  refine (finish_alike hRest).bind ?_
  rintro _ _ rfl
  exact .ok rfl

theorem parseSpace_alike (hHead : Token.Alike P head head')
    (hTokens : List.Forall₂ (Token.Alike P) ts us) :
    Agree (Error.Alike P) Eq (parseSpace head ts) (parseSpace head' us) := by
  refine (readImmediate_alike hHead.pos true hTokens).bind ?_
  rintro ⟨v, ts⟩ ⟨_, us⟩ ⟨rfl, hRest⟩
  cases v with
  | literal v =>
    dsimp only
    split
    · exact flawed_alike hHead _
    · refine (finish_alike hRest).bind ?_
      rintro _ _ rfl
      exact .ok rfl
  | symbol _ => exact flawed_alike hHead _

theorem parseAlign_alike (hHead : Token.Alike P head head')
    (hTokens : List.Forall₂ (Token.Alike P) ts us) :
    Agree (Error.Alike P) Eq (parseAlign head ts) (parseAlign head' us) := by
  refine (readImmediate_alike hHead.pos true hTokens).bind ?_
  rintro ⟨v, ts⟩ ⟨_, us⟩ ⟨rfl, hRest⟩
  cases v with
  | literal v =>
    dsimp only
    split
    · refine (finish_alike hRest).bind ?_
      rintro _ _ rfl
      exact .ok rfl
    · exact flawed_alike hHead _
  | symbol _ => exact flawed_alike hHead _

theorem data_alike (hHead : Token.Alike P head head')
    (hTokens : List.Forall₂ (Token.Alike P) ts us) (width : Width) :
    Agree (Error.Alike P) Eq ((immediates head.pos ts).map (Directive.data width))
      ((immediates head'.pos us).map (Directive.data width)) :=
  (immediates_alike hHead.pos hTokens).map fun _ _ hSame => congrArg _ hSame

theorem parse_alike (hHead : Token.Alike P head head')
    (hTokens : List.Forall₂ (Token.Alike P) ts us) :
    Agree (Error.Alike P) Eq (parse head ts) (parse head' us) := by
  rw [parse, parse, hHead.text]
  split
  · exact parseSwitch_alike hHead hTokens .text
  · exact parseSwitch_alike hHead hTokens .data
  · exact data_alike hHead hTokens .word
  · exact data_alike hHead hTokens .half
  · exact data_alike hHead hTokens .byte
  · exact parseString_alike hHead hTokens []
  · exact parseString_alike hHead hTokens [0]
  · exact parseSpace_alike hHead hTokens
  · exact parseAlign_alike hHead hTokens
  · exact .error (.located hHead.pos _)

end Directive

end MipsAsm
