import MipsAsm.Proofs.Instruction.Grammar

/-! # Operands hold no labels

A reader of operands takes registers, immediates, strings and separators only. Where the tokens of
a statement are read to the end, none of them is a label.
-/

namespace MipsAsm

open Outcome (bind_eq_ok)

/-- None of the tokens is a label. -/
def Token.Plain (ts : List Token) : Prop :=
  ∀ t ∈ ts, t.kind ≠ .label

namespace Token.Plain

theorem nil : Plain [] :=
  fun _ hMem => absurd hMem List.not_mem_nil

theorem cons {t : Token} {ts : List Token} (hKind : t.kind ≠ .label) (hPlain : Plain ts) :
    Plain (t :: ts) :=
  List.forall_mem_cons.mpr ⟨hKind, hPlain⟩

theorem append {ts us : List Token} (hFront : Plain ts) (hBack : Plain us) : Plain (ts ++ us) :=
  List.forall_mem_append.mpr ⟨hFront, hBack⟩

end Token.Plain

namespace Operands

variable {head : Position} {first : Bool} {t : Token} {ts rest : List Token}

/-! ## Single tokens -/

theorem ne_label_of_is {text : String} (hIs : t.is .separator text = true) :
    t.kind ≠ .label := by
  rw [Token.is, Bool.and_eq_true, beq_iff_eq] at hIs
  rw [hIs.1]
  exact Token.Kind.noConfusion

theorem registerOf_ok {r : Isa.Register} (hRegister : registerOf t = .ok r) :
    t.kind ≠ .label := by
  rw [(registerOf_eq_ok.mp hRegister).1]
  exact Token.Kind.noConfusion

theorem immediateOf_ok {v : Immediate} (hImmediate : immediateOf t = .ok v) :
    t.kind ≠ .label := by
  intro hLabel
  simp [immediateOf_eq_ok, hLabel] at hImmediate

theorem stringOf_ok {s : String} (hString : stringOf t = .ok s) :
    t.kind ≠ .label := by
  intro hLabel
  simp only [stringOf, hLabel] at hString
  cases hString

theorem finish_ok (hFinish : finish ts = .ok ()) : Token.Plain ts := by
  rw [finish_eq_ok.mp hFinish]
  exact Token.Plain.nil

/-! ## Operands of a shape -/

theorem Lead.plain (hLead : Lead first ts) : Token.Plain ts := by
  cases first with
  | true =>
    obtain rfl : ts = [] := hLead
    exact Token.Plain.nil
  | false =>
    obtain ⟨comma, rfl, hComma⟩ := hLead
    exact Token.Plain.nil.cons (ne_label_of_is hComma)

theorem Written.plain {shape : Shape} {v : shape.Value} (hWritten : Written shape ts v) :
    Token.Plain ts := by
  cases shape with
  | register =>
    obtain ⟨t, rfl, hRegister⟩ := hWritten
    exact Token.Plain.nil.cons (registerOf_ok hRegister)
  | immediate =>
    obtain ⟨t, rfl, hImmediate⟩ := hWritten
    exact Token.Plain.nil.cons (immediateOf_ok hImmediate)
  | memory =>
    obtain ⟨front, opening, base, closing, rfl, hOffset, hOpen, hBase, hClose⟩ := hWritten
    have hFront : Token.Plain front := by
      rcases hOffset with ⟨rfl, _⟩ | ⟨t, rfl, hImmediate⟩
      · exact Token.Plain.nil
      · exact Token.Plain.nil.cons (immediateOf_ok hImmediate)
    have hBack : Token.Plain [base, closing] :=
      (Token.Plain.nil.cons (ne_label_of_is hClose)).cons (registerOf_ok hBase)
    exact hFront.append (hBack.cons (ne_label_of_is hOpen))

theorem Listed.plain (shapes : List Shape) : ∀ {first : Bool} {ts : List Token}
    {vs : Values shapes}, Listed first shapes ts vs → Token.Plain ts := by
  induction shapes with
  | nil =>
    rintro first _ vs rfl
    exact Token.Plain.nil
  | cons shape shapes ih =>
    rintro first _ vs ⟨lead, read, rest, rfl, hLead, hWritten, hListed⟩
    exact hLead.plain.append (hWritten.plain.append (ih hListed))

theorem operand_ok (hOperand : operand head first ts = .ok (t, rest))
    (hPlain : Token.Plain (t :: rest)) : Token.Plain ts := by
  obtain ⟨lead, hLead, rfl⟩ := operand_eq_ok.mp hOperand
  exact hLead.plain.append hPlain

theorem readImmediate_ok {v : Immediate} (hRead : readImmediate head first ts = .ok (v, rest))
    (hPlain : Token.Plain rest) : Token.Plain ts := by
  obtain ⟨lead, t, hLead, rfl, hImmediate⟩ := readImmediate_eq_ok.mp hRead
  exact hLead.plain.append (hPlain.cons (immediateOf_ok hImmediate))

theorem moreImmediates_ok {vs : List Immediate} (hRead : moreImmediates head ts = .ok vs) :
    Token.Plain ts := by
  fun_induction moreImmediates head ts generalizing vs with
  | case1 => exact Token.Plain.nil
  | case2 => cases hRead
  | case3 => cases hRead
  | case4 comma t ts hComma ih =>
    obtain ⟨_, hImmediate, hRest⟩ := bind_eq_ok.mp hRead
    obtain ⟨_, hMore, _⟩ := bind_eq_ok.mp hRest
    exact ((ih hMore).cons (immediateOf_ok hImmediate)).cons (ne_label_of_is hComma)
  | case5 => cases hRead

theorem immediates_ok {vs : List Immediate} (hRead : immediates head ts = .ok vs) :
    Token.Plain ts := by
  obtain ⟨⟨v, us⟩, hFirst, hRest⟩ := bind_eq_ok.mp hRead
  obtain ⟨_, hMore, _⟩ := bind_eq_ok.mp hRest
  exact readImmediate_ok hFirst (moreImmediates_ok hMore)

end Operands

theorem Instruction.plain_of_parse {m : Isa.Mnemonic} {head : Position} {ts : List Token}
    {i : Instruction} (hParse : Instruction.parse m head ts = .ok i) : Token.Plain ts := by
  obtain ⟨_, hListed, _⟩ := Instruction.parse_eq_ok.mp hParse
  exact Operands.Listed.plain _ hListed

end MipsAsm
