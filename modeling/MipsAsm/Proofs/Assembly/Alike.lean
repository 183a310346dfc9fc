import MipsAsm.Proofs.Assembly.Effect
import MipsAsm.Proofs.Instruction.Alike
import MipsAsm.Proofs.Memory.Alike

/-! # Runs that differ in positions and byte order only

Two states of an assembly run are alike if they stand at the same cursors with the same segments
and go on from given labels and items with labels and items alike. Every step keeps states alike,
also when it fails. So the same lines, taken at another place, have the same effect.
-/

namespace MipsAsm

open Outcome (Agree AgreeAt Respects)

variable {P : Position → Position → Prop}

structure Label.Alike (P : Position → Position → Prop) (l k : Label) : Prop where
  name : l.name = k.name
  pos : P l.pos k.pos
  address : l.address = k.address

structure Item.Alike (P : Position → Position → Prop) (i j : Item) : Prop where
  address : i.address = j.address
  pos : P i.pos j.pos
  payload : i.payload = j.payload

/-- Two lists go on from given ones with corresponding elements. -/
def Extends {α : Type} (R : α → α → Prop) (front front' xs ys : List α) : Prop :=
  ∃ new new', xs = front ++ new ∧ ys = front' ++ new' ∧ List.Forall₂ R new new'

theorem Extends.self {α : Type} (R : α → α → Prop) (front front' : List α) :
    Extends R front front' front front' :=
  ⟨[], [], (List.append_nil _).symm, (List.append_nil _).symm, .nil⟩

theorem Extends.forall₂ {α : Type} {R : α → α → Prop} {xs ys : List α}
    (hExtends : Extends R [] [] xs ys) : List.Forall₂ R xs ys := by
  obtain ⟨new, new', rfl, rfl, hNew⟩ := hExtends
  exact hNew

theorem Extends.concat {α : Type} {R : α → α → Prop} {front front' xs ys : List α} {x y : α}
    (hExtends : Extends R front front' xs ys) (hLast : R x y) :
    Extends R front front' (xs ++ [x]) (ys ++ [y]) := by
  obtain ⟨new, new', rfl, rfl, hNew⟩ := hExtends
  refine ⟨new ++ [x], new' ++ [y], List.append_assoc .., List.append_assoc .., ?_⟩
  exact List.rel_append hNew (.cons hLast .nil)

/-! ## Label tables -/

namespace LabelTable

def Alike (P : Position → Position → Prop) (front : List Label) (t u : LabelTable) : Prop :=
  Extends (Label.Alike P) front front t.labels u.labels

variable {front : List Label} {t u : LabelTable}

/-- Look-ups see names and addresses only. -/
theorem address?_eq (t : LabelTable) (name : String) : t.address? name =
    ((t.labels.map fun l => (l.name, l.address)).find? fun x => x.1 == name).map Prod.snd := by
  rw [address?, find?, List.find?_map, Option.map_map]
  rfl

theorem Alike.address?_eq (hTable : Alike P front t u) (name : String) :
    t.address? name = u.address? name := by
  obtain ⟨new, new', hT, hU, hNew⟩ := hTable
  have hSame : new.map (fun l => (l.name, l.address)) = new'.map fun l => (l.name, l.address) := by
    rw [← List.forall₂_eq_eq_eq, List.forall₂_map_left_iff, List.forall₂_map_right_iff]
    exact hNew.imp fun l k hLabel => Prod.ext hLabel.name hLabel.address
  rw [LabelTable.address?_eq, LabelTable.address?_eq, hT, hU, List.map_append, List.map_append,
    hSame]

theorem Alike.define {l k : Label} (hTable : Alike P front t u) (hLabel : l.Alike P k) :
    Agree Eq (Alike P front) (t.define l) (u.define k) := by
  have hFound := hTable.address?_eq l.name
  rw [address?, address?] at hFound
  rw [LabelTable.define, LabelTable.define, ← hLabel.name]
  cases hT : t.find? l.name with
  | none =>
    rw [hT, Option.map_none, eq_comm, Option.map_eq_none_iff] at hFound
    rw [hFound]
    exact .ok (hTable.concat hLabel)
  | some old =>
    cases hU : u.find? l.name with
    | none => simp [hT, hU] at hFound
    | some old' => exact .error rfl

end LabelTable

/-! ## States -/

/-- What two runs have in front of the part in which they are compared: a byte order each, the same
labels, and their own items. -/
structure Origin where
  endian : Memory.Endian
  endian' : Memory.Endian
  labels : List Label
  items : List Item
  items' : List Item

/-- Runs compared from their start on. -/
def Origin.ofOrders (e e' : Memory.Endian) : Origin :=
  ⟨e, e', [], [], []⟩

structure Assembly.Alike (P : Position → Position → Prop) (o : Origin) (a b : Assembly) : Prop where
  active : a.active = b.active
  text : a.text = b.text
  data : a.data = b.data
  pending : List.Forall₂ (Token.Alike P) a.pending b.pending
  labels : a.labels.Alike P o.labels b.labels
  memory : a.memory.Alike o.endian o.endian' b.memory
  staged : Extends (Item.Alike P) o.items o.items' a.staged.toList b.staged.toList

namespace Assembly.Alike

variable {o : Origin} {a b : Assembly}

theorem cursor (hState : Alike P o a b) : a.cursor = b.cursor := by
  rw [Assembly.cursor, Assembly.cursor, hState.active, hState.text, hState.data]

theorem pc (hState : Alike P o a b) : a.pc = b.pc := by
  rw [Assembly.pc, Assembly.pc, hState.cursor]

theorem withCursor (hState : Alike P o a b) (c : Cursor) :
    Alike P o (a.withCursor c) (b.withCursor c) := by
  rw [withCursor_eq, withCursor_eq, hState.active, hState.text, hState.data]
  exact ⟨rfl, rfl, rfl, hState.pending, hState.labels, hState.memory, hState.staged⟩

theorem relabel (hState : Alike P o a b) {labels labels' : LabelTable}
    {pending pending' : List Token} (hLabels : labels.Alike P o.labels labels')
    (hPending : List.Forall₂ (Token.Alike P) pending pending') :
    Alike P o (a.relabel labels pending) (b.relabel labels' pending') :=
  ⟨hState.active, hState.text, hState.data, hPending, hLabels, hState.memory, hState.staged⟩

theorem switch (hState : Alike P o a b) (target : Section) (address : Option Int) :
    Alike P o (a.switch target address) (b.switch target address) := by
  have hEntered : ∀ {m n : Memory.Image}, m.Alike o.endian o.endian' n →
      Alike P o { a with active := target, memory := m } { b with active := target, memory := n } :=
    fun hMemory =>
      ⟨rfl, hState.text, hState.data, hState.pending, hState.labels, hMemory, hState.staged⟩
  cases address with
  | none => exact hEntered hState.memory
  | some v => exact (hEntered (hState.memory.openSegment target v)).withCursor _

theorem place (hState : Alike P o a b) {item item' : Item} (hItem : item.Alike P item')
    (stop : UInt32) : Alike P o (a.place item stop) (b.place item' stop) := by
  have hStaged : Extends (Item.Alike P) o.items o.items' (a.staged.push item).toList
      (b.staged.push item').toList := by
    rw [Array.toList_push, Array.toList_push]
    exact hState.staged.concat hItem
  have hPlaced : ∀ {m n : Memory.Image}, m.Alike o.endian o.endian' n →
      Alike P o { a with active := b.active, memory := m, staged := a.staged.push item }
        { b with memory := n, staged := b.staged.push item' } := fun hMemory =>
    ⟨rfl, hState.text, hState.data, hState.pending, hState.labels, hMemory, hStaged⟩
  rw [Assembly.place, Assembly.place, hState.active, hState.cursor, hItem.address]
  refine (hPlaced (Memory.Image.Alike.extendSegment ?_ _ stop)).withCursor _
  split
  · exact hState.memory
  · exact hState.memory.openSegment _ _

end Assembly.Alike

/-! ## Steps -/

namespace Assemble

/-- The computations take states alike to states alike. -/
abbrev Keeps {α β : Type} (P : Position → Position → Prop) (o : Origin) (V : α → β → Prop)
    (x : Assemble α) (y : Assemble β) : Prop :=
  Respects (Error.Alike P) (Assembly.Alike P o) V x y

variable {o : Origin} {names names' : List Token} {pos pos' : Position}

theorem liftExcept_keeps {α β : Type} {V : α → β → Prop} {x : Except Error α}
    {y : Except Error β} (hAgree : Agree (Error.Alike P) V x y) :
    Keeps P o V (liftExcept x) (liftExcept y) := by
  intro a b hState
  cases hAgree with
  | ok hValue => exact .ok hValue hState
  | error hError => exact .error hError hState

theorem align_keeps (alignment : Nat) (hPos : P pos pos') :
    Keeps P o Eq (align alignment pos) (align alignment pos') := by
  intro a b hState
  rw [align, align, hState.pc, hState.cursor]
  cases alignUp b.pc alignment with
  | ok pc => exact .ok rfl (hState.withCursor _)
  | error cause => exact .error (.located hPos cause) hState

theorem defineLabel_keeps {t u : Token} (address : UInt32) (hToken : t.Alike P u) :
    Keeps P o Eq (defineLabel address t) (defineLabel address u) := by
  intro a b hState
  have hLabel : Label.Alike P ⟨t.labelName?.getD t.text, t.pos, address⟩
      ⟨u.labelName?.getD u.text, u.pos, address⟩ := by
    refine ⟨?_, hToken.pos, rfl⟩
    rw [hToken.labelName?_eq, hToken.text]
  have hDefine := hState.labels.define hLabel
  rw [defineLabel, defineLabel]
  cases hA : a.labels.define ⟨t.labelName?.getD t.text, t.pos, address⟩ with
  | ok labels =>
    obtain ⟨labels', hB, hTable⟩ := hDefine.exists_of_ok hA
    rw [hB]
    exact .ok rfl (hState.relabel hTable hState.pending)
  | error cause =>
    obtain ⟨_, hB, rfl⟩ := hDefine.exists_of_error hA
    rw [hB]
    exact .error (.located hToken.pos cause) hState

theorem defineLabels_keeps {ts us : List Token} (address : UInt32)
    (hTokens : List.Forall₂ (Token.Alike P) ts us) :
    Keeps P o Eq (defineLabels address ts) (defineLabels address us) := by
  induction hTokens with
  | nil => exact .pure rfl
  | cons hToken _ ih => exact (defineLabel_keeps address hToken).bind fun _ _ _ => ih

theorem define_keeps (hNames : List.Forall₂ (Token.Alike P) names names') :
    Keeps P o Eq (define names) (define names') := by
  intro a b hState
  change AgreeAt _ _ _ (defineLabels a.pc (a.pending ++ names) { a with pending := [] })
    (defineLabels b.pc (b.pending ++ names') { b with pending := [] })
  rw [hState.pc]
  exact defineLabels_keeps b.pc (List.rel_append hState.pending hNames) _ _
    (hState.relabel hState.labels .nil)

theorem emit_eq (pos : Position) (payload : Payload) (a : Assembly) : emit pos payload a =
    if a.pc.toNat + payload.size < 0x100000000 then
      .ok () (a.place ⟨a.pc, pos, payload⟩ (UInt32.ofNat (a.pc.toNat + payload.size)))
    else .error ((Cause.addressOverflow (a.pc.toNat + payload.size : Nat)).located pos) a :=
  rfl

theorem emit_keeps (hPos : P pos pos') (payload : Payload) :
    Keeps P o Eq (emit pos payload) (emit pos' payload) := by
  intro a b hState
  rw [emit_eq, emit_eq, hState.pc]
  by_cases hStop : b.pc.toNat + payload.size < 0x100000000
  · rw [if_pos hStop, if_pos hStop]
    have hItem : Item.Alike P ⟨b.pc, pos, payload⟩ ⟨b.pc, pos', payload⟩ := ⟨rfl, hPos, rfl⟩
    exact .ok rfl (hState.place hItem _)
  · rw [if_neg hStop, if_neg hStop]
    exact .error (.located hPos _) hState

theorem checkSpace_keeps (hPos : P pos pos') (count : Nat) :
    Keeps P o Eq (checkSpace pos count) (checkSpace pos' count) := by
  intro a b hState
  rw [checkSpace, checkSpace, hState.pc]
  by_cases hStop : min (b.pc.toNat + count) 0x7FFFFFFFFFFFFFFF < 0x100000000
  · rw [if_pos hStop, if_pos hStop]
    exact .ok rfl hState
  · rw [if_neg hStop, if_neg hStop]
    exact .error (.located hPos _) hState

theorem stage_keeps (alignment : Nat) (hNames : List.Forall₂ (Token.Alike P) names names')
    (hPos : P pos pos') (payload : Payload) :
    Keeps P o Eq (stage alignment names pos payload) (stage alignment names' pos' payload) :=
  (align_keeps alignment hPos).bind fun _ _ _ =>
    (define_keeps hNames).bind fun _ _ _ => emit_keeps hPos payload

theorem directive_keeps (hNames : List.Forall₂ (Token.Alike P) names names') (hPos : P pos pos')
    (d : Directive) : Keeps P o Eq (directive names pos d) (directive names' pos' d) := by
  cases d with
  | switch target address =>
    refine (define_keeps .nil).bind fun _ _ _ => ?_
    refine (Respects.modify fun _ _ hState => ?_).bind fun _ _ _ => define_keeps hNames
    exact hState.switch target address
  | data width values => exact stage_keeps width.bytes hNames hPos (.data width values)
  | bytes content => exact (define_keeps hNames).bind fun _ _ _ => emit_keeps hPos (.bytes content)
  | space count =>
    exact (checkSpace_keeps hPos count).bind fun _ _ _ =>
      (define_keeps hNames).bind fun _ _ _ => emit_keeps hPos (.space count)
  | align exponent => exact (align_keeps _ hPos).bind fun _ _ _ => define_keeps hNames

theorem instruction_keeps {head head' : Token} {ts us : List Token}
    (hNames : List.Forall₂ (Token.Alike P) names names') (m : Isa.Mnemonic)
    (hHead : head.Alike P head') (hTokens : List.Forall₂ (Token.Alike P) ts us) :
    Keeps P o Eq (instruction names m head ts) (instruction names' m head' us) := by
  intro a b hState
  by_cases hText : a.active = .text
  · rw [instruction_of_text names m head ts a hText,
      instruction_of_text names' m head' us b (hState.active ▸ hText)]
    refine Respects.bind (liftExcept_keeps (Instruction.parse_alike m hHead.pos hTokens)) ?_ _ _
      hState
    rintro i _ rfl
    exact stage_keeps 4 hNames hHead.pos (.code i)
  · rw [instruction_of_ne_text names m head ts a hText,
      instruction_of_ne_text names' m head' us b (hState.active ▸ hText)]
    exact .error (.located hHead.pos _) hState

theorem statement_keeps {head head' : Token} {ts us : List Token}
    (hNames : List.Forall₂ (Token.Alike P) names names') (hHead : head.Alike P head')
    (hTokens : List.Forall₂ (Token.Alike P) ts us) :
    Keeps P o Eq (statement names head ts) (statement names' head' us) := by
  rw [statement, statement, ← hHead.kind, ← hHead.text]
  split
  · refine (liftExcept_keeps (Directive.parse_alike hHead hTokens)).bind ?_
    rintro d _ rfl
    exact directive_keeps hNames hHead.pos d
  · split
    · exact instruction_keeps hNames _ hHead hTokens
    · exact .throw (.located hHead.pos _)
  · exact .throw (.located hHead.pos _)
  · exact .throw (.located hHead.pos _)

theorem line_keeps {ts us : List Token} (hTokens : List.Forall₂ (Token.Alike P) ts us) :
    Keeps P o Eq (line ts) (line us) := by
  obtain ⟨hNames, hRest⟩ := Token.takeWhile_dropWhile_alike .label hTokens
  rw [line, line]
  generalize (ts.dropWhile fun t => t.kind == .label) = rest at hRest ⊢
  generalize (us.dropWhile fun t => t.kind == .label) = rest' at hRest ⊢
  cases hRest with
  | nil =>
    refine .modify fun a b hState => ?_
    exact hState.relabel hState.labels (List.rel_append hState.pending hNames)
  | cons hHead hOperands => exact statement_keeps hNames hHead hOperands

/-! ## Lines -/

/-- Lines without the end of their source. -/
def body (source : Nat) : Nat → List Token.RawLine → Assemble Unit
  | _, [] => pure ()
  | _, .undecodable :: _ => throw .fileRead
  | index, .text cs :: rest => do
    let ts ← liftExcept ((Token.scanLine streamOptions source index cs).mapError Error.lexical)
    line ts
    body source (index + 1) rest

theorem body_keeps {source source' shift : Nat}
    (hPlace : ∀ index col, P ⟨source, index, col⟩ ⟨source', index + shift, col⟩)
    (raw : List Token.RawLine) (index : Nat) :
    Keeps P o Eq (body source index raw) (body source' (index + shift) raw) := by
  induction raw generalizing index with
  | nil => exact .pure rfl
  | cons raw rest ih =>
    cases raw with
    | undecodable => exact .throw (.same rfl)
    | text cs =>
      refine (liftExcept_keeps (Token.scanLine_alike (hPlace index) cs)).bind fun _ _ hTokens => ?_
      refine (line_keeps hTokens).bind fun _ _ _ => ?_
      rw [Nat.add_right_comm]
      exact ih (index + 1)

theorem lines_eq_body (source : Nat) (raw : List Token.RawLine) (index : Nat) :
    lines source index raw = (do body source index raw; define []) := by
  induction raw generalizing index with
  | nil => rfl
  | cons raw rest ih =>
    cases raw with
    | undecodable => rfl
    | text cs =>
      rw [lines, body]
      simp only [ih, bind_assoc]

theorem lines_keeps {source source' shift : Nat}
    (hPlace : ∀ index col, P ⟨source, index, col⟩ ⟨source', index + shift, col⟩)
    (raw : List Token.RawLine) (index : Nat) :
    Keeps P o Eq (lines source index raw) (lines source' (index + shift) raw) := by
  rw [lines_eq_body, lines_eq_body]
  exact (body_keeps hPlace raw index).bind fun _ _ _ => define_keeps .nil

end Assemble

/-! ## Sources -/

namespace Assembly

/-- What a source comes to, once its lines have run. -/
def concluded : EStateM.Result Error Assembly Unit → Except Error (Array Item) × Assembly
  | .ok _ a => (.ok a.staged, { a with staged := #[] })
  | .error e a => (.error e, { a with staged := #[] })

theorem parse_eq (a : Assembly) (source : Nat) (raw : List Token.RawLine) :
    a.parse source raw = concluded (Assemble.lines source 0 raw { a with staged := #[] }) := by
  rw [parse]
  cases Assemble.lines source 0 raw { a with staged := #[] } <;> rfl

variable {e e' : Memory.Endian} {a b : Assembly}

theorem Alike.cleared (hState : Alike P (.ofOrders e e') a b) :
    Alike P (.ofOrders e e') { a with staged := #[] } { b with staged := #[] } :=
  { hState with staged := Extends.self _ _ _ }

theorem concluded_alike {x y : EStateM.Result Error Assembly Unit}
    (hRuns : AgreeAt (Error.Alike P) (Alike P (.ofOrders e e')) Eq x y) :
    Agree (Error.Alike P) (fun is js => List.Forall₂ (Item.Alike P) is.toList js.toList)
        (concluded x).1 (concluded y).1 ∧
      Alike P (.ofOrders e e') (concluded x).2 (concluded y).2 := by
  cases hRuns with
  | ok _ hState => exact ⟨.ok hState.staged.forall₂, hState.cleared⟩
  | error hError hState => exact ⟨.error hError, hState.cleared⟩

theorem Alike.parse (hState : Alike P (.ofOrders e e') a b) {source : Nat}
    (hPlace : ∀ index col, P ⟨source, index, col⟩ ⟨source, index, col⟩)
    (raw : List Token.RawLine) :
    Agree (Error.Alike P) (fun is js => List.Forall₂ (Item.Alike P) is.toList js.toList)
        (a.parse source raw).1 (b.parse source raw).1 ∧
      Alike P (.ofOrders e e') (a.parse source raw).2 (b.parse source raw).2 := by
  rw [parse_eq, parse_eq]
  have hRuns : AgreeAt _ _ _ (Assemble.lines source 0 raw { a with staged := #[] })
      (Assemble.lines source (0 + 0) raw { b with staged := #[] }) :=
    Assemble.lines_keeps hPlace raw 0 _ _ hState.cleared
  exact concluded_alike hRuns

end Assembly

end MipsAsm
