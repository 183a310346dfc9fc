import MipsAsm.Assembly.Statement
import MipsAsm.Proofs.Memory.Layout
import MipsAsm.Proofs.Outcome

/-! # What one line does to the layout

Whether a line succeeds or fails, it leaves cursors, segments and staged items as they were, moves
the cursor up, switches the section, or stages one item at a cursor that was moved up before.
Labels are left out of account here.
-/

namespace MipsAsm

open Memory (Image SegmentKind Track)
open Outcome (final final_of_ok final_of_error final_bind_of_ok final_bind_of_error)

def Section.kind : Section → SegmentKind
  | .text => .text
  | .data => .data

theorem Section.kind_injective {s t : Section} (hKind : s.kind = t.kind) : s = t := by
  cases s <;> cases t
  · rfl
  · cases hKind
  · cases hKind
  · rfl

/-! ## Alignment -/

/-- An aligned address is the nearest multiple that is not lower. -/
theorem alignUp_ok {pc q : UInt32} {alignment : Nat} (hPositive : 0 < alignment)
    (hAlign : alignUp pc alignment = .ok q) :
    pc.toNat ≤ q.toNat ∧ q.toNat < pc.toNat + alignment ∧ q.toNat % alignment = 0 := by
  rw [alignUp] at hAlign
  split at hAlign
  · rename_i hReach
    cases hAlign
    have hFloor := Nat.div_add_mod (pc.toNat + (alignment - 1)) alignment
    have hRest := Nat.mod_lt (pc.toNat + (alignment - 1)) hPositive
    rw [Nat.mul_comm] at hFloor
    rw [UInt32.toNat_ofNat_of_lt' (by simp only [UInt32.size]; omega)]
    exact ⟨by omega, by omega, Nat.mul_mod_left _ _⟩
  · cases hAlign

theorem alignUp_one (pc : UInt32) : alignUp pc 1 = .ok pc := by
  have hBound := pc.toNat_lt
  simp [alignUp, hBound]

/-! ## Labels -/

def Token.labelAt (t : Token) (address : UInt32) : Label :=
  ⟨t.labelName?.getD t.text, t.pos, address⟩

namespace LabelTable

def extend (t : LabelTable) (labels : List Label) : LabelTable :=
  ⟨t.labels ++ labels⟩

theorem extend_nil (t : LabelTable) : t.extend [] = t :=
  congrArg mk (List.append_nil _)

theorem extend_cons (t : LabelTable) (label : Label) (labels : List Label) :
    t.extend (label :: labels) = (t.extend [label]).extend labels :=
  congrArg mk (List.append_cons _ _ _)

end LabelTable

/-! ## Views of a state -/

namespace Assembly

def cursorOf (a : Assembly) : Section → Cursor
  | .text => a.text
  | .data => a.data

def movedTo (a : Assembly) (pc : UInt32) : Assembly :=
  a.withCursor { a.cursor with pc }

/-- The same layout with other labels. -/
def relabel (a : Assembly) (labels : LabelTable) (pending : List Token) : Assembly :=
  { a with labels, pending }

/-- The labels that wait and `names` are bound to the cursor. -/
def flush (a : Assembly) (names : List Token) : Assembly :=
  a.relabel (a.labels.extend ((a.pending ++ names).map (·.labelAt a.pc))) []

theorem cursor_eq (a : Assembly) : a.cursor = a.cursorOf a.active := by
  rw [cursor]
  split <;> rename_i hActive <;> rw [hActive] <;> rfl

theorem withCursor_eq (a : Assembly) (c : Cursor) : a.withCursor c =
    { a with
      text := if a.active = .text then c else a.text
      data := if a.active = .data then c else a.data } := by
  obtain ⟨active, text, data, pending, labels, memory, staged⟩ := a
  cases active <;> rfl

theorem cursorOf_withCursor (a : Assembly) (c : Cursor) (s : Section) :
    (a.withCursor c).cursorOf s = if s = a.active then c else a.cursorOf s := by
  rw [withCursor_eq]
  cases s with
  | text => simp only [cursorOf, eq_comm]
  | data => simp only [cursorOf, eq_comm]

@[simp] theorem memory_withCursor (a : Assembly) (c : Cursor) :
    (a.withCursor c).memory = a.memory := by
  rw [withCursor_eq]

@[simp] theorem staged_withCursor (a : Assembly) (c : Cursor) :
    (a.withCursor c).staged = a.staged := by
  rw [withCursor_eq]

@[simp] theorem active_withCursor (a : Assembly) (c : Cursor) :
    (a.withCursor c).active = a.active := by
  rw [withCursor_eq]

@[simp] theorem labels_withCursor (a : Assembly) (c : Cursor) :
    (a.withCursor c).labels = a.labels := by
  rw [withCursor_eq]

@[simp] theorem pending_withCursor (a : Assembly) (c : Cursor) :
    (a.withCursor c).pending = a.pending := by
  rw [withCursor_eq]

theorem pc_eq (a : Assembly) : a.pc = (a.cursorOf a.active).pc := by
  rw [pc, cursor_eq]

theorem movedTo_pc (a : Assembly) : a.movedTo a.pc = a := by
  obtain ⟨active, text, data, pending, labels, memory, staged⟩ := a
  cases active <;> rfl

theorem pc_movedTo (a : Assembly) (pc : UInt32) : (a.movedTo pc).pc = pc := by
  obtain ⟨active, text, data, pending, labels, memory, staged⟩ := a
  cases active <;> rfl

theorem pc_place (a : Assembly) (item : Item) (stop : UInt32) : (a.place item stop).pc = stop := by
  obtain ⟨active, text, data, pending, labels, memory, staged⟩ := a
  cases active <;> rfl

theorem place_relabel (a : Assembly) (labels : LabelTable) (pending : List Token) (item : Item)
    (stop : UInt32) :
    (a.relabel labels pending).place item stop = (a.place item stop).relabel labels pending := by
  obtain ⟨active, text, data, pending', labels', memory, staged⟩ := a
  cases active <;> rfl

theorem active_switch (a : Assembly) (target : Section) (address : Option Int) :
    (a.switch target address).active = target := by
  cases address with
  | none => rfl
  | some v => exact active_withCursor _ _

theorem switch_relabel (a : Assembly) (labels : LabelTable) (pending : List Token)
    (target : Section) (address : Option Int) :
    (a.relabel labels pending).switch target address =
      (a.switch target address).relabel labels pending := by
  cases address with
  | none => rfl
  | some v => cases target <;> rfl

end Assembly

/-! ## Effects -/

/-- Content stands where its kind may stand: instructions in the text section on word boundaries,
the values of a data directive on multiples of their width. -/
def WellPlaced (s : Section) (item : Item) : Prop :=
  match item.payload with
  | .code _ => s = .text ∧ item.address.toNat % 4 = 0
  | .data width _ => item.address.toNat % width.bytes = 0
  | .bytes _ | .space _ => True

inductive Effect (a : Assembly) : Assembly → Prop where
  | idle : Effect a a
  | moved (pc : UInt32) (hPc : a.pc.toNat ≤ pc.toNat) : Effect a (a.movedTo pc)
  | switched (target : Section) (address : Option Int) : Effect a (a.switch target address)
  | staged (item : Item) (stop : UInt32) (hStart : a.pc.toNat ≤ item.address.toNat)
      (hStop : item.address.toNat + item.size = stop.toNat) (hPlaced : WellPlaced a.active item) :
      Effect a ((a.movedTo item.address).place item stop)

/-- The layout of `b` is one that an effect on `a` gives. -/
def Affects (a b : Assembly) : Prop :=
  ∃ c labels pending, Effect a c ∧ b = c.relabel labels pending

theorem Affects.of_relabel {a b : Assembly} {labels : LabelTable} {pending : List Token}
    (hEffect : Affects a b) : Affects a (b.relabel labels pending) := by
  obtain ⟨c, _, _, hEffect, rfl⟩ := hEffect
  exact ⟨c, labels, pending, hEffect, rfl⟩

theorem Effect.affects {a b : Assembly} (hEffect : Effect a b) : Affects a b :=
  ⟨b, b.labels, b.pending, hEffect, rfl⟩

namespace Assemble

/-! ## Single steps -/

theorem liftExcept_cases {α : Type} (x : Except Error α) (a : Assembly) :
    (∃ v, x = .ok v ∧ liftExcept x a = .ok v a) ∨ ∃ e, liftExcept x a = .error e a := by
  cases x with
  | ok v => exact Or.inl ⟨v, rfl, rfl⟩
  | error e => exact Or.inr ⟨e, rfl⟩

theorem align_cases (alignment : Nat) (pos : Position) (a : Assembly) :
    (∃ pc, alignUp a.pc alignment = .ok pc ∧ align alignment pos a = .ok () (a.movedTo pc)) ∨
      ∃ e, align alignment pos a = .error e a := by
  rw [align]
  cases alignUp a.pc alignment with
  | ok pc => exact Or.inl ⟨pc, rfl, rfl⟩
  | error cause => exact Or.inr ⟨_, rfl⟩

theorem align_one (pos : Position) (a : Assembly) : align 1 pos a = .ok () a := by
  rw [align, alignUp_one]
  exact congrArg _ a.movedTo_pc

theorem defineLabel_cases (address : UInt32) (t : Token) (a : Assembly) :
    defineLabel address t a = .ok () { a with labels := a.labels.extend [t.labelAt address] } ∨
      ∃ e, defineLabel address t a = .error e a := by
  rw [defineLabel, LabelTable.define]
  split
  · rename_i hDefine
    split at hDefine
    · cases hDefine
    · cases hDefine
      exact Or.inl rfl
  · exact Or.inr ⟨_, rfl⟩

theorem defineLabels_cases (address : UInt32) (ts : List Token) (a : Assembly) :
    defineLabels address ts a =
        .ok () (a.relabel (a.labels.extend (ts.map (·.labelAt address))) a.pending) ∨
      ∃ e labels, defineLabels address ts a = .error e (a.relabel labels a.pending) := by
  induction ts generalizing a with
  | nil =>
    rw [List.map_nil, LabelTable.extend_nil]
    exact Or.inl rfl
  | cons t ts ih =>
    rcases defineLabel_cases address t a with hFirst | ⟨e, hFirst⟩
    · have hRest : defineLabels address (t :: ts) a =
          defineLabels address ts { a with labels := a.labels.extend [t.labelAt address] } := by
        change EStateM.bind _ _ _ = _
        rw [EStateM.bind, hFirst]
      rw [hRest, List.map_cons, LabelTable.extend_cons a.labels _ (ts.map _)]
      exact ih _
    · refine Or.inr ⟨e, a.labels, ?_⟩
      change EStateM.bind _ _ _ = _
      rw [EStateM.bind, hFirst]
      rfl

theorem define_cases (names : List Token) (a : Assembly) :
    define names a = .ok () (a.flush names) ∨
      ∃ e labels, define names a = .error e (a.relabel labels []) :=
  defineLabels_cases a.pc (a.pending ++ names) { a with pending := [] }

theorem final_define (names : List Token) (a : Assembly) :
    ∃ labels, final (define names) a = a.relabel labels [] := by
  rcases define_cases names a with hRun | ⟨_, labels, hRun⟩
  · exact ⟨_, final_of_ok hRun⟩
  · exact ⟨labels, final_of_error hRun⟩

theorem emit_cases (pos : Position) (payload : Payload) (a : Assembly) :
    (∃ stop : UInt32, a.pc.toNat + payload.size = stop.toNat ∧
      emit pos payload a = .ok () (a.place ⟨a.pc, pos, payload⟩ stop)) ∨
      ∃ e, emit pos payload a = .error e a := by
  by_cases hStop : a.pc.toNat + payload.size < 0x100000000
  · refine Or.inl ⟨UInt32.ofNat (a.pc.toNat + payload.size), ?_, if_pos hStop⟩
    rw [UInt32.toNat_ofNat_of_lt' hStop]
  · exact Or.inr ⟨_, if_neg hStop⟩

theorem checkSpace_cases (pos : Position) (count : Nat) (a : Assembly) :
    checkSpace pos count a = .ok () a ∨ ∃ e, checkSpace pos count a = .error e a := by
  by_cases hStop : min (a.pc.toNat + count) 0x7FFFFFFFFFFFFFFF < 0x100000000
  · exact Or.inl (if_pos hStop)
  · exact Or.inr ⟨_, if_neg hStop⟩

/-! ## Chains of steps -/

/-- How every item gets its place: align, bind the labels, stage. -/
def stage (alignment : Nat) (names : List Token) (pos : Position) (payload : Payload) :
    Assemble Unit := do
  align alignment pos
  define names
  emit pos payload

theorem final_stage {alignment : Nat} (hPositive : 0 < alignment) (names : List Token)
    (pos : Position) (payload : Payload) (a : Assembly)
    (hPlaced : ∀ pc : UInt32, pc.toNat % alignment = 0 → WellPlaced a.active ⟨pc, pos, payload⟩) :
    Affects a (final (stage alignment names pos payload) a) := by
  rcases align_cases alignment pos a with ⟨pc, hPc, hAlign⟩ | ⟨_, hAlign⟩
  · obtain ⟨hLe, _, hMultiple⟩ := alignUp_ok hPositive hPc
    rw [stage, final_bind_of_ok hAlign]
    rcases define_cases names (a.movedTo pc) with hDefine | ⟨_, labels, hDefine⟩
    · rw [final_bind_of_ok hDefine]
      have hHere : ((a.movedTo pc).flush names).pc = pc := a.pc_movedTo pc
      rcases emit_cases pos payload ((a.movedTo pc).flush names) with
        ⟨stop, hStop, hEmit⟩ | ⟨_, hEmit⟩
      · rw [final_of_ok hEmit, Assembly.flush, Assembly.place_relabel, ← Assembly.flush, hHere]
        rw [hHere] at hStop
        exact (Effect.staged ⟨pc, pos, payload⟩ stop hLe hStop
          (hPlaced pc hMultiple)).affects.of_relabel
      · rw [final_of_error hEmit]
        exact (Effect.moved pc hLe).affects.of_relabel
    · rw [final_bind_of_error hDefine]
      exact (Effect.moved pc hLe).affects.of_relabel
  · rw [stage, final_bind_of_error hAlign]
    exact Effect.idle.affects

theorem stage_one (names : List Token) (pos : Position) (payload : Payload) (a : Assembly) :
    stage 1 names pos payload a = (do define names; emit pos payload : Assemble Unit) a := by
  change EStateM.bind _ _ _ = _
  rw [EStateM.bind, align_one]

theorem final_directive (names : List Token) (pos : Position) (d : Directive) (a : Assembly) :
    Affects a (final (directive names pos d) a) := by
  cases d with
  | switch target address =>
    rcases define_cases [] a with hDefine | ⟨_, labels, hDefine⟩
    · rw [directive, final_bind_of_ok hDefine]
      change Affects a (final (define names) ((a.flush []).switch target address))
      obtain ⟨labels', hFinal⟩ := final_define names ((a.flush []).switch target address)
      rw [hFinal, Assembly.flush, Assembly.switch_relabel]
      exact (Effect.switched target address).affects.of_relabel.of_relabel
    · rw [directive, final_bind_of_error hDefine]
      exact Effect.idle.affects.of_relabel
  | data width values =>
    refine final_stage ?_ names pos (.data width values) a fun pc hMultiple => hMultiple
    cases width <;> decide
  | bytes content =>
    have hStage := final_stage Nat.one_pos names pos (.bytes content) a fun _ _ => trivial
    rw [final, stage_one] at hStage
    exact hStage
  | space count =>
    rcases checkSpace_cases pos count a with hCheck | ⟨_, hCheck⟩
    · have hStage := final_stage Nat.one_pos names pos (.space count) a fun _ _ => trivial
      rw [final, stage_one] at hStage
      rw [directive, final_bind_of_ok hCheck]
      exact hStage
    · rw [directive, final_bind_of_error hCheck]
      exact Effect.idle.affects
  | align exponent =>
    rcases align_cases (1 <<< exponent) pos a with ⟨pc, hPc, hAlign⟩ | ⟨_, hAlign⟩
    · obtain ⟨labels, hFinal⟩ := final_define names (a.movedTo pc)
      rw [directive, final_bind_of_ok hAlign, hFinal]
      obtain ⟨hLe, _, _⟩ := alignUp_ok (Nat.one_shiftLeft exponent ▸ Nat.two_pow_pos exponent) hPc
      exact (Effect.moved pc hLe).affects.of_relabel
    · rw [directive, final_bind_of_error hAlign]
      exact Effect.idle.affects

theorem instruction_of_text (names : List Token) (m : Isa.Mnemonic) (head : Token)
    (ts : List Token) (a : Assembly) (hText : a.active = .text) :
    instruction names m head ts a = (do
      let i ← liftExcept (Instruction.parse m head.pos ts)
      stage 4 names head.pos (.code i) : Assemble Unit) a := by
  rw [instruction]
  change (ite (a.active ≠ .text) _ _ : Assemble Unit) a = _
  rw [if_neg fun hOther => hOther hText]
  rfl

theorem instruction_of_ne_text (names : List Token) (m : Isa.Mnemonic) (head : Token)
    (ts : List Token) (a : Assembly) (hOther : a.active ≠ .text) :
    instruction names m head ts a =
      .error (Cause.instructionOutsideText.located head.pos) a := by
  rw [instruction]
  change (ite (a.active ≠ .text) _ _ : Assemble Unit) a = _
  rw [if_pos hOther]
  rfl

theorem final_instruction (names : List Token) (m : Isa.Mnemonic) (head : Token)
    (ts : List Token) (a : Assembly) : Affects a (final (instruction names m head ts) a) := by
  by_cases hText : a.active = .text
  · rw [final, instruction_of_text names m head ts a hText]
    change Affects a (final _ a)
    rcases liftExcept_cases (Instruction.parse m head.pos ts) a with ⟨i, _, hParse⟩ | ⟨_, hParse⟩
    · rw [final_bind_of_ok hParse]
      exact final_stage (by decide) names head.pos (.code i) a fun pc hMultiple =>
        ⟨hText, hMultiple⟩
    · rw [final_bind_of_error hParse]
      exact Effect.idle.affects
  · rw [final_of_error (instruction_of_ne_text names m head ts a hText)]
    exact Effect.idle.affects

theorem final_statement (names : List Token) (head : Token) (ts : List Token) (a : Assembly) :
    Affects a (final (statement names head ts) a) := by
  rw [statement]
  split
  · rcases liftExcept_cases (Directive.parse head ts) a with ⟨d, _, hParse⟩ | ⟨_, hParse⟩
    · rw [final_bind_of_ok hParse]
      exact final_directive names head.pos d a
    · rw [final_bind_of_error hParse]
      exact Effect.idle.affects
  · split
    · exact final_instruction names _ head ts a
    · exact Effect.idle.affects
  · exact Effect.idle.affects
  · exact Effect.idle.affects

theorem final_line (ts : List Token) (a : Assembly) : Affects a (final (line ts) a) := by
  rw [line]
  split
  · exact ⟨a, a.labels, _, Effect.idle, rfl⟩
  · exact final_statement _ _ _ a

end Assemble

end MipsAsm
