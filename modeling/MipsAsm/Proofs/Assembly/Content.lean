import MipsAsm.Proofs.Assembly.Labels

/-! # What a run keeps of its lines

Whether lines succeed or fail, a run keeps nothing of them but tokens that wait as labels, labels
made of such tokens, and items. Each line stages one item at most, at the position of its statement,
so that the items of a source stand in the order of their lines.
-/

namespace MipsAsm

open Outcome (final final_of_ok final_of_error final_bind_of_ok final_bind_of_error)

/-- Properties of the waiting tokens and the labels of a state, and of the items staged behind the
first `n`. -/
structure Assembly.Content (n : Nat) (T : Token → Prop) (L : Label → Prop) (S : Item → Prop)
    (a : Assembly) : Prop where
  pending : ∀ t ∈ a.pending, T t
  labels : ∀ label ∈ a.labels.labels, L label
  staged : ∀ item ∈ a.staged.toList.drop n, S item

variable {n : Nat} {T : Token → Prop} {L : Label → Prop} {S : Item → Prop} {a b : Assembly}

namespace Assembly.Content

theorem mono {T' : Token → Prop} {L' : Label → Prop} {S' : Item → Prop} (h : a.Content n T L S)
    (hToken : ∀ t, T t → T' t) (hLabel : ∀ l, L l → L' l) (hItem : ∀ i, S i → S' i) :
    a.Content n T' L' S' :=
  ⟨fun t hMem => hToken t (h.pending t hMem), fun l hMem => hLabel l (h.labels l hMem),
    fun i hMem => hItem i (h.staged i hMem)⟩

theorem movedTo (h : a.Content n T L S) (pc : UInt32) : (a.movedTo pc).Content n T L S := by
  rw [Assembly.movedTo, Assembly.withCursor_eq]
  exact ⟨h.pending, h.labels, h.staged⟩

theorem switch (h : a.Content n T L S) (target : Section) (address : Option Int) :
    (a.switch target address).Content n T L S := by
  cases address with
  | none => exact ⟨h.pending, h.labels, h.staged⟩
  | some v =>
    rw [Assembly.switch, Assembly.withCursor_eq]
    exact ⟨h.pending, h.labels, h.staged⟩

theorem place (h : a.Content n T L S) {item : Item} (hItem : S item) (stop : UInt32) :
    (a.place item stop).Content n T L S := by
  rw [Assembly.place, Assembly.withCursor_eq]
  refine ⟨h.pending, h.labels, ?_⟩
  rw [Array.toList_push, List.drop_append, List.forall_mem_append]
  refine ⟨h.staged, fun other hMem => ?_⟩
  cases List.mem_singleton.mp (List.mem_of_mem_drop hMem)
  exact hItem

theorem cleared (h : a.Content n T L S) :
    ({ a with staged := #[] } : Assembly).Content n T L S := by
  refine ⟨h.pending, h.labels, fun item hMem => ?_⟩
  cases List.mem_of_mem_drop hMem

end Assembly.Content

/-! ## Steps -/

namespace Assemble

/-- The property holds of the state that is left behind, in any case. -/
def Maintains {α : Type} (I : Assembly → Prop) (x : Assemble α) : Prop :=
  ∀ a, I a → I (final x a)

variable {α β : Type} {I : Assembly → Prop}

theorem Maintains.bind {x : Assemble α} {f : α → Assemble β} (hFirst : Maintains I x)
    (hRest : ∀ v, Maintains I (f v)) : Maintains I (x >>= f) := by
  intro a h
  have hNext := hFirst a h
  cases hRun : x a with
  | ok v b =>
    rw [final_of_ok hRun] at hNext
    rw [final_bind_of_ok hRun]
    exact hRest v b hNext
  | error e b =>
    rw [final_of_error hRun] at hNext
    rw [final_bind_of_error hRun]
    exact hNext

theorem Maintains.liftExcept_bind {x : Except Error α} {f : α → Assemble β}
    (hRest : ∀ v, x = .ok v → Maintains I (f v)) : Maintains I (liftExcept x >>= f) := by
  intro a h
  rcases liftExcept_cases x a with ⟨v, hValue, hRun⟩ | ⟨e, hRun⟩
  · rw [final_bind_of_ok hRun]
    exact hRest v hValue a h
  · rw [final_bind_of_error hRun]
    exact h

theorem Maintains.throw (e : Error) : Maintains I (throw e : Assemble α) :=
  fun _ h => h

variable {names : List Token} {pos : Position}

theorem maintains_align (alignment : Nat) (pos : Position) :
    Maintains (Assembly.Content n T L S) (align alignment pos) := by
  intro a h
  rcases align_cases alignment pos a with ⟨pc, _, hRun⟩ | ⟨_, hRun⟩
  · rw [final_of_ok hRun]
    exact h.movedTo pc
  · rw [final_of_error hRun]
    exact h

theorem maintains_checkSpace (pos : Position) (count : Nat) :
    Maintains I (checkSpace pos count) := by
  intro a h
  rcases checkSpace_cases pos count a with hRun | ⟨_, hRun⟩
  · rw [final_of_ok hRun]
    exact h
  · rw [final_of_error hRun]
    exact h

theorem maintains_emit {payload : Payload} (hItem : ∀ address, S ⟨address, pos, payload⟩) :
    Maintains (Assembly.Content n T L S) (emit pos payload) := by
  intro a h
  rcases emit_cases pos payload a with ⟨stop, _, hRun⟩ | ⟨_, hRun⟩
  · rw [final_of_ok hRun]
    exact h.place (hItem _) stop
  · rw [final_of_error hRun]
    exact h

section

variable (hLabel : ∀ t address, T t → L (t.labelAt address))
include hLabel

theorem maintains_defineLabels (address : UInt32) {ts : List Token} (hTokens : ∀ t ∈ ts, T t) :
    Maintains (Assembly.Content n T L S) (defineLabels address ts) := by
  induction ts with
  | nil => exact fun _ h => h
  | cons t ts ih =>
    obtain ⟨hToken, hRest⟩ := List.forall_mem_cons.mp hTokens
    refine Maintains.bind (fun a h => ?_) fun _ => ih hRest
    rcases defineLabel_cases address t a with hRun | ⟨_, hRun⟩
    · rw [final_of_ok hRun]
      refine ⟨h.pending, ?_, h.staged⟩
      exact List.forall_mem_append.mpr
        ⟨h.labels, List.forall_mem_singleton.mpr (hLabel t address hToken)⟩
    · rw [final_of_error hRun]
      exact h

theorem maintains_define (hNames : ∀ t ∈ names, T t) :
    Maintains (Assembly.Content n T L S) (define names) := by
  intro a h
  have hTokens : ∀ t ∈ a.pending ++ names, T t := List.forall_mem_append.mpr ⟨h.pending, hNames⟩
  exact maintains_defineLabels hLabel a.pc hTokens { a with pending := [] }
    ⟨List.forall_mem_nil _, h.labels, h.staged⟩

/-! ## Statements -/

theorem maintains_stage (hNames : ∀ t ∈ names, T t) (alignment : Nat) {payload : Payload}
    (hItem : ∀ address, S ⟨address, pos, payload⟩) :
    Maintains (Assembly.Content n T L S) (stage alignment names pos payload) :=
  (maintains_align alignment pos).bind fun _ =>
    (maintains_define hLabel hNames).bind fun _ => maintains_emit hItem

theorem maintains_directive (hNames : ∀ t ∈ names, T t) (d : Directive)
    (hItem : ∀ address payload, (∀ i, payload ≠ .code i) → S ⟨address, pos, payload⟩) :
    Maintains (Assembly.Content n T L S) (directive names pos d) := by
  cases d with
  | switch target address =>
    refine (maintains_define hLabel (List.forall_mem_nil _)).bind fun _ => ?_
    exact Maintains.bind (fun a h => h.switch target address) fun _ =>
      maintains_define hLabel hNames
  | data width values =>
    apply maintains_stage hLabel hNames
    exact fun address => hItem address _ fun _ => Payload.noConfusion
  | bytes content =>
    refine (maintains_define hLabel hNames).bind fun _ => maintains_emit ?_
    exact fun address => hItem address _ fun _ => Payload.noConfusion
  | space count =>
    refine (maintains_checkSpace pos count).bind fun _ =>
      (maintains_define hLabel hNames).bind fun _ => maintains_emit ?_
    exact fun address => hItem address _ fun _ => Payload.noConfusion
  | align exponent =>
    exact (maintains_align _ pos).bind fun _ => maintains_define hLabel hNames

theorem maintains_instruction (hNames : ∀ t ∈ names, T t) (m : Isa.Mnemonic) (head : Token)
    (operands : List Token)
    (hItem : ∀ address i, Instruction.parse m head.pos operands = .ok i →
      S ⟨address, head.pos, .code i⟩) :
    Maintains (Assembly.Content n T L S) (instruction names m head operands) := by
  have hStaged : Maintains (Assembly.Content n T L S) (do
      let i ← liftExcept (Instruction.parse m head.pos operands)
      stage 4 names head.pos (.code i)) :=
    .liftExcept_bind fun i hParse =>
      maintains_stage hLabel hNames 4 fun address => hItem address i hParse
  intro a h
  by_cases hText : a.active = .text
  · have hNext := hStaged a h
    rw [final, ← instruction_of_text names m head operands a hText] at hNext
    exact hNext
  · rw [final_of_error (instruction_of_ne_text names m head operands a hText)]
    exact h

/-- What a statement stages stands at its head, and an instruction was parsed from its operands. -/
theorem maintains_statement (hNames : ∀ t ∈ names, T t) {head : Token} {operands : List Token}
    (hItem : ∀ address payload,
      (∀ i, payload = .code i → ∃ m, Instruction.parse m head.pos operands = .ok i) →
        S ⟨address, head.pos, payload⟩) :
    Maintains (Assembly.Content n T L S) (statement names head operands) := by
  rw [statement]
  split
  · refine .liftExcept_bind fun d _ => maintains_directive hLabel hNames d ?_
    exact fun address payload hOther => hItem address payload fun i hCode => absurd hCode (hOther i)
  · split
    · apply maintains_instruction hLabel hNames
      intro address i hParse
      apply hItem
      rintro _ ⟨⟩
      exact ⟨_, hParse⟩
    · exact .throw _
  · exact .throw _
  · exact .throw _

theorem maintains_line {ts : List Token} (hNames : ∀ t ∈ ts, t.kind = .label → T t)
    (hItem : ∀ head operands address payload, ts.dropWhile Token.isLabel = head :: operands →
      (∀ i, payload = .code i → ∃ m, Instruction.parse m head.pos operands = .ok i) →
        S ⟨address, head.pos, payload⟩) :
    Maintains (Assembly.Content n T L S) (line ts) := by
  have hFront : ∀ t ∈ ts.takeWhile Token.isLabel, T t := by
    intro t hMem
    have hLabel : t.isLabel = true := List.mem_takeWhile_imp hMem
    exact hNames t ((List.takeWhile_sublist _).subset hMem) (eq_of_beq hLabel)
  rw [line_eq]
  split
  · intro a h
    exact ⟨List.forall_mem_append.mpr ⟨h.pending, hFront⟩, h.labels, h.staged⟩
  · rename_i head operands hHead
    exact maintains_statement hLabel hFront fun address payload =>
      hItem head operands address payload hHead

end

/-! ## Lines -/

/-- Induction over the lines of a source, up to one that fails. -/
theorem lines_induction {source : Nat} {J : Nat → Assembly → Prop}
    (hLine : ∀ index cs ts, Token.scanLine streamOptions source index cs = .ok ts →
      ∀ a, J index a → J (index + 1) (final (line ts) a))
    (hEnd : ∀ index a, J index a → J index (final (define []) a)) (raw : List Token.RawLine) :
    ∀ index a, J index a → ∃ stop, J stop (final (lines source index raw) a) := by
  induction raw with
  | nil =>
    intro index a h
    exact ⟨index, hEnd index a h⟩
  | cons first rest ih =>
    intro index a h
    cases first with
    | undecodable => exact ⟨index, h⟩
    | text cs =>
      rw [lines]
      cases hScan : Token.scanLine streamOptions source index cs with
      | error e => exact ⟨index, h⟩
      | ok ts =>
        have hNext := hLine index cs ts hScan a h
        change ∃ stop, J stop (final (do line ts; lines source (index + 1) rest) a)
        cases hRun : line ts a with
        | ok _ b =>
          rw [final_of_ok hRun] at hNext
          rw [final_bind_of_ok hRun]
          exact ih (index + 1) b hNext
        | error e b =>
          rw [final_of_error hRun] at hNext
          rw [final_bind_of_error hRun]
          exact ⟨index + 1, hNext⟩

/-! ## The order of items -/

/-- Items of lines in front of one, each behind the items of earlier lines. -/
structure Rising (source index : Nat) (items : List Item) : Prop where
  sorted : items.Pairwise fun i j => i.pos.line < j.pos.line
  placed : ∀ item ∈ items, item.pos.source = source ∧ item.pos.line < index

theorem Rising.skip {source index : Nat} {items : List Item} (hRising : Rising source index items) :
    Rising source (index + 1) items :=
  ⟨hRising.sorted, fun i hMem =>
    ⟨(hRising.placed i hMem).1, Nat.lt_succ_of_lt (hRising.placed i hMem).2⟩⟩

theorem Rising.concat {source index : Nat} {items : List Item} {item : Item}
    (hRising : Rising source index items) (hSource : item.pos.source = source)
    (hLine : item.pos.line = index) : Rising source (index + 1) (items ++ [item]) := by
  constructor
  · refine List.pairwise_append.mpr ⟨hRising.sorted, List.pairwise_singleton _ _, ?_⟩
    intro i hMem j hLast
    cases List.mem_singleton.mp hLast
    exact hLine ▸ (hRising.placed i hMem).2
  · refine List.forall_mem_append.mpr ⟨hRising.skip.placed, List.forall_mem_singleton.mpr ?_⟩
    exact ⟨hSource, hLine ▸ Nat.lt_succ_self _⟩

theorem staged_line (ts : List Token) (a : Assembly) :
    (final (line ts) a).staged = a.staged ∨
      ∃ item, (final (line ts) a).staged = a.staged.push item := by
  obtain ⟨b, labels, pending, hEffect, hFinal⟩ := final_line ts a
  rw [hFinal]
  cases hEffect with
  | idle => exact Or.inl rfl
  | moved pc _ => exact Or.inl (Effect.staged_movedTo a pc)
  | switched target address => exact Or.inl (Effect.staged_switch a target address)
  | staged item stop _ _ _ => exact Or.inr ⟨item, Effect.staged_movedTo_place a item stop⟩

theorem rising_line {source index : Nat} {ts : List Token} {a : Assembly}
    (hTokens : ∀ t ∈ ts, t.pos.source = source ∧ t.pos.line = index)
    (hRising : Rising source index a.staged.toList) :
    Rising source (index + 1) (final (line ts) a).staged.toList := by
  -- all that is staged behind the items that are there stands on this line
  have hContent : (final (line ts) a).Content a.staged.size (fun _ => True) (fun _ => True)
      fun item => item.pos.source = source ∧ item.pos.line = index := by
    refine maintains_line (fun _ _ _ => trivial) (fun _ _ _ => trivial) ?_ a
      ⟨fun _ _ => trivial, fun _ _ => trivial, ?_⟩
    · intro head operands address payload hHead _
      exact hTokens head ((List.dropWhile_sublist _).subset (hHead ▸ List.mem_cons_self))
    · rw [← Array.length_toList, List.drop_length]
      exact List.forall_mem_nil _
  rcases staged_line ts a with hSame | ⟨item, hPush⟩
  · rw [hSame]
    exact hRising.skip
  · have hItem := hContent.staged item
    rw [hPush, Array.toList_push, ← Array.length_toList, List.drop_left] at hItem
    obtain ⟨hSource, hLine⟩ := hItem List.mem_cons_self
    rw [hPush, Array.toList_push]
    exact hRising.concat hSource hLine

end Assemble

end MipsAsm
