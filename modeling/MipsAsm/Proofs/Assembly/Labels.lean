import Mathlib.Data.List.Forall2
import Mathlib.Data.List.TakeWhile
import MipsAsm.Proofs.Assembly.History
import MipsAsm.Proofs.Assembly.Role
import MipsAsm.Proofs.Token.LabelName

/-! # Where labels are bound

A label waits for the first statement on its own line or on a later one, and that statement decides
the address. The table of a source that is assembled grows by the labels of the source, in order.
-/

namespace MipsAsm

open Outcome (bind_eq_ok pure_eq_ok run_bind_eq_ok final final_of_ok)

def Token.isLabel (t : Token) : Bool :=
  t.kind == .label

/-! ## The address of a label -/

/-- Whether labels stand on the line in question or have been waiting since earlier ones. -/
inductive Standing where
  | onLine
  | before
  deriving DecidableEq, Repr

/-- The statement of a line, which leads from `a` to `b`, gives labels an address: that of the item
it stages, the aligned cursor, or the cursor of the section it enters or leaves. -/
def Fixes (a b : Assembly) (head : Token) (operands : List Token) (standing : Standing)
    (address : UInt32) : Prop :=
  match head.role, standing with
  | .emits, _ => ∃ item, b.staged = a.staged.push item ∧ item.address = address
  | .aligns, _ => ∃ exponent, Directive.parse head operands = .ok (.align exponent) ∧
      alignUp a.pc (1 <<< exponent) = .ok address
  | .switches target, .onLine => (b.cursorOf target).pc = address
  | .switches _, .before => (a.cursorOf a.active).pc = address

/-- The address that lines give to labels on the first of them or in front of it. -/
inductive Decides : Assembly → List (List Token) → Standing → UInt32 → Prop where
  | statement {a : Assembly} {ts : List Token} {rest : List (List Token)} {standing : Standing}
      {address : UInt32} (head : Token) (operands : List Token)
      (hHead : ts.dropWhile Token.isLabel = head :: operands)
      (hFixes : Fixes a (final (Assemble.line ts) a) head operands standing address) :
      Decides a (ts :: rest) standing address
  | later {a : Assembly} {ts : List Token} {rest : List (List Token)} {standing : Standing}
      {address : UInt32} (hNone : ts.dropWhile Token.isLabel = [])
      (hLater : Decides (final (Assemble.line ts) a) rest .before address) :
      Decides a (ts :: rest) standing address
  | ended {a : Assembly} {standing : Standing} : Decides a [] standing (a.cursorOf a.active).pc

/-- A label of a source, with the state in front of its line and the lines from there on. -/
structure Site where
  token : Token
  state : Assembly
  lines : List (List Token)

structure Site.Binds (site : Site) (label : Label) : Prop where
  name : site.token.labelName? = some label.name
  pos : label.pos = site.token.pos
  address : Decides site.state site.lines .onLine label.address

theorem Fixes.unique {a b : Assembly} {head : Token} {operands : List Token} {standing : Standing}
    {x y : UInt32} (hX : Fixes a b head operands standing x)
    (hY : Fixes a b head operands standing y) : x = y := by
  cases hRole : head.role with
  | emits =>
    simp only [Fixes, hRole] at hX hY
    obtain ⟨item, hStaged, rfl⟩ := hX
    obtain ⟨other, hStaged', rfl⟩ := hY
    rw [(Array.push_eq_push.mp (hStaged.symm.trans hStaged')).1]
  | aligns =>
    simp only [Fixes, hRole] at hX hY
    obtain ⟨exponent, hParse, hAlign⟩ := hX
    obtain ⟨other, hParse', hAlign'⟩ := hY
    cases hParse.symm.trans hParse'
    exact Except.ok.inj (hAlign.symm.trans hAlign')
  | switches target =>
    cases standing <;> simp only [Fixes, hRole] at hX hY <;> exact hX.symm.trans hY

theorem Decides.unique {a : Assembly} {tss : List (List Token)} {standing : Standing} {x y : UInt32}
    (hX : Decides a tss standing x) (hY : Decides a tss standing y) : x = y := by
  induction hX with
  | statement head operands hHead hFixes =>
    cases hY with
    | statement _ _ hHead' hFixes' =>
      cases hHead.symm.trans hHead'
      exact hFixes.unique hFixes'
    | later hNone => cases hHead.symm.trans hNone
  | later hNone _ ih =>
    cases hY with
    | statement _ _ hHead => cases hNone.symm.trans hHead
    | later _ hLater => exact ih hLater
  | ended =>
    cases hY
    rfl

theorem Site.rightUnique_binds : Relator.RightUnique Site.Binds := by
  rintro site ⟨name, pos, address⟩ ⟨name', pos', address'⟩ hFirst hSecond
  cases hFirst.name.symm.trans hSecond.name
  cases hFirst.pos.trans hSecond.pos.symm
  cases hFirst.address.unique hSecond.address
  rfl

def Assembly.sites (a : Assembly) : List (List Token) → List Site
  | [] => []
  | ts :: rest =>
    (ts.filter Token.isLabel).map (fun t => ⟨t, a, ts :: rest⟩) ++
      (final (Assemble.line ts) a).sites rest

theorem Assembly.map_token_sites (a : Assembly) (tss : List (List Token)) :
    (a.sites tss).map Site.token = tss.flatten.filter Token.isLabel := by
  induction tss generalizing a with
  | nil => rfl
  | cons ts rest ih =>
    rw [sites, List.map_append, List.map_map, ih, List.flatten_cons, List.filter_append]
    exact congrArg (· ++ _) (List.map_id _)

/-! ## Labels that a statement binds -/

/-- The labels that wait are bound to one address and `names` to another. -/
structure Flushed (a b : Assembly) (names : List Token) (waiting own : UInt32) : Prop where
  pending : b.pending = []
  labels : b.labels.labels =
    a.labels.labels ++ (a.pending.map (·.labelAt waiting) ++ names.map (·.labelAt own))

/-- A statement that leads from `a` to `b` binds `names` and the labels that wait, each to the
address that it fixes for them. -/
def Settles (a b : Assembly) (names : List Token) (head : Token) (operands : List Token) : Prop :=
  ∃ waiting own, Fixes a b head operands .before waiting ∧ Fixes a b head operands .onLine own ∧
    Flushed a b names waiting own

theorem Flushed.flush {a b : Assembly} (names : List Token) (hLabels : b.labels = a.labels)
    (hPending : b.pending = a.pending) : Flushed a (b.flush names) names b.pc b.pc := by
  refine ⟨rfl, ?_⟩
  change b.labels.labels ++ (b.pending ++ names).map (·.labelAt b.pc) = _
  rw [hLabels, hPending, List.map_append]

theorem Flushed.movedTo (a : Assembly) (pc : UInt32) (names : List Token) :
    Flushed a ((a.movedTo pc).flush names) names pc pc := by
  have hFlushed : Flushed a ((a.movedTo pc).flush names) names (a.movedTo pc).pc (a.movedTo pc).pc :=
    Flushed.flush names (Assembly.labels_withCursor _ _) (Assembly.pending_withCursor _ _)
  rw [Assembly.pc_movedTo] at hFlushed
  exact hFlushed

theorem Flushed.place {a b : Assembly} {names : List Token} {waiting own : UInt32}
    (hFlushed : Flushed a b names waiting own) (item : Item) (stop : UInt32) :
    Flushed a (b.place item stop) names waiting own := by
  refine ⟨?_, ?_⟩
  · rw [Assembly.place, Assembly.pending_withCursor]
    exact hFlushed.pending
  · rw [Assembly.place, Assembly.labels_withCursor]
    exact hFlushed.labels

theorem Flushed.switch (a : Assembly) (names : List Token) (target : Section)
    (address : Option Int) :
    let b := ((a.flush []).switch target address).flush names
    Flushed a b names (a.cursorOf a.active).pc (b.cursorOf target).pc := by
  intro b
  have hSwitch : (a.flush []).switch target address =
      (a.switch target address).relabel (a.flush []).labels [] :=
    Assembly.switch_relabel _ _ _ _ _
  have hHere : ((a.flush []).switch target address).pc = (b.cursorOf target).pc := by
    rw [Assembly.pc_eq, Assembly.active_switch]
    rfl
  refine ⟨rfl, ?_⟩
  calc
    b.labels.labels = (a.flush []).labels.labels ++
        names.map (·.labelAt ((a.flush []).switch target address).pc) := by
      change ((a.flush []).switch target address).labels.labels ++
        (((a.flush []).switch target address).pending ++ names).map _ = _
      rw [hSwitch]
      rfl
    _ = a.labels.labels ++ a.pending.map (·.labelAt a.pc) ++
        names.map (·.labelAt (b.cursorOf target).pc) := by
      rw [hHere, Assembly.flush, List.append_nil]
      rfl
    _ = _ := by rw [List.append_assoc, Assembly.pc_eq a]

namespace Assemble

/-! ## Steps that succeed -/

theorem liftExcept_ok {α : Type} {x : Except Error α} {a b : Assembly} {v : α}
    (hRun : liftExcept x a = .ok v b) : x = .ok v ∧ b = a := by
  cases x with
  | ok w =>
    cases hRun
    exact ⟨rfl, rfl⟩
  | error e => cases hRun

theorem define_ok {names : List Token} {a b : Assembly} (hRun : define names a = .ok () b) :
    b = a.flush names := by
  rcases define_cases names a with hOk | ⟨_, _, hError⟩
  · cases hOk.symm.trans hRun
    rfl
  · cases hError.symm.trans hRun

theorem align_ok {alignment : Nat} {pos : Position} {a b : Assembly}
    (hRun : align alignment pos a = .ok () b) :
    ∃ pc, alignUp a.pc alignment = .ok pc ∧ b = a.movedTo pc := by
  rcases align_cases alignment pos a with ⟨pc, hPc, hOk⟩ | ⟨_, hError⟩
  · cases hOk.symm.trans hRun
    exact ⟨pc, hPc, rfl⟩
  · cases hError.symm.trans hRun

theorem emit_ok {pos : Position} {payload : Payload} {a b : Assembly}
    (hRun : emit pos payload a = .ok () b) :
    ∃ stop, b = a.place ⟨a.pc, pos, payload⟩ stop := by
  rcases emit_cases pos payload a with ⟨stop, _, hOk⟩ | ⟨_, hError⟩
  · cases hOk.symm.trans hRun
    exact ⟨stop, rfl⟩
  · cases hError.symm.trans hRun

theorem checkSpace_ok {pos : Position} {count : Nat} {a b : Assembly}
    (hRun : checkSpace pos count a = .ok () b) : b = a := by
  rcases checkSpace_cases pos count a with hOk | ⟨_, hError⟩
  · cases hOk.symm.trans hRun
    rfl
  · cases hError.symm.trans hRun

theorem stage_ok {alignment : Nat} {names : List Token} {pos : Position} {payload : Payload}
    {a b : Assembly} (hRun : stage alignment names pos payload a = .ok () b) :
    ∃ item, b.staged = a.staged.push item ∧ Flushed a b names item.address item.address := by
  obtain ⟨_, _, hAlign, hRest⟩ := run_bind_eq_ok.mp hRun
  obtain ⟨_, _, hDefine, hEmit⟩ := run_bind_eq_ok.mp hRest
  obtain ⟨pc, _, rfl⟩ := align_ok hAlign
  cases define_ok hDefine
  obtain ⟨stop, rfl⟩ := emit_ok hEmit
  have hHere : ((a.movedTo pc).flush names).pc = pc := a.pc_movedTo pc
  rw [hHere]
  refine ⟨⟨pc, pos, payload⟩, ?_, (Flushed.movedTo a pc names).place _ stop⟩
  have hStaged : ((a.movedTo pc).flush names).staged = a.staged := Effect.staged_movedTo a pc
  rw [Effect.staged_place, hStaged]

/-! ## Statements that succeed -/

theorem settles_of_stage {alignment : Nat} {names : List Token} {pos : Position} {payload : Payload}
    {head : Token} {operands : List Token} {a b : Assembly} (hRole : head.role = .emits)
    (hRun : stage alignment names pos payload a = .ok () b) :
    Settles a b names head operands := by
  obtain ⟨item, hStaged, hFlushed⟩ := stage_ok hRun
  have hFixes : ∀ standing, Fixes a b head operands standing item.address := by
    intro standing
    simp only [Fixes, hRole]
    exact ⟨item, hStaged, rfl⟩
  exact ⟨_, _, hFixes .before, hFixes .onLine, hFlushed⟩

theorem directive_ok {names : List Token} {head : Token} {operands : List Token} {d : Directive}
    {a b : Assembly} (hRole : head.role = d.role)
    (hParse : Directive.parse head operands = .ok d)
    (hRun : directive names head.pos d a = .ok () b) :
    Settles a b names head operands := by
  cases d with
  | switch target address =>
    obtain ⟨_, _, hLeave, hRest⟩ := run_bind_eq_ok.mp hRun
    cases define_ok hLeave
    have hEnter : define names ((a.flush []).switch target address) = .ok () b := hRest
    cases define_ok hEnter
    have hHead : head.role = .switches target := hRole
    refine ⟨_, _, ?_, ?_, Flushed.switch a names target address⟩ <;> simp only [Fixes, hHead]
  | data width values => exact settles_of_stage hRole hRun
  | bytes content =>
    have hStage : stage 1 names head.pos (.bytes content) a = .ok () b := by
      rw [stage_one]
      exact hRun
    exact settles_of_stage hRole hStage
  | space count =>
    obtain ⟨_, c, hCheck, hRest⟩ := run_bind_eq_ok.mp hRun
    cases checkSpace_ok hCheck
    have hStage : stage 1 names head.pos (.space count) a = .ok () b := by
      rw [stage_one]
      exact hRest
    exact settles_of_stage hRole hStage
  | align exponent =>
    obtain ⟨_, _, hAlign, hDefine⟩ := run_bind_eq_ok.mp hRun
    obtain ⟨pc, hPc, rfl⟩ := align_ok hAlign
    cases define_ok hDefine
    have hFixes : ∀ standing, Fixes a ((a.movedTo pc).flush names) head operands standing pc := by
      intro standing
      have hHead : head.role = .aligns := hRole
      simp only [Fixes, hHead]
      exact ⟨exponent, hParse, hPc⟩
    exact ⟨pc, pc, hFixes .before, hFixes .onLine, Flushed.movedTo a pc names⟩

theorem instruction_ok {names : List Token} {m : Isa.Mnemonic} {head : Token}
    {operands : List Token} {a b : Assembly} (hRole : head.role = .emits)
    (hRun : instruction names m head operands a = .ok () b) :
    Token.Plain operands ∧ Settles a b names head operands := by
  by_cases hText : a.active = .text
  · rw [instruction_of_text names m head operands a hText] at hRun
    obtain ⟨i, _, hLift, hStage⟩ := run_bind_eq_ok.mp hRun
    obtain ⟨hParse, rfl⟩ := liftExcept_ok hLift
    exact ⟨Instruction.plain_of_parse hParse, settles_of_stage hRole hStage⟩
  · cases (instruction_of_ne_text names m head operands a hText).symm.trans hRun

theorem statement_ok {names : List Token} {head : Token} {operands : List Token}
    {a b : Assembly} (hRun : statement names head operands a = .ok () b) :
    Token.Plain (head :: operands) ∧ Settles a b names head operands := by
  cases hKind : head.kind with
  | directive =>
    rw [statement, hKind] at hRun
    obtain ⟨d, _, hLift, hDirective⟩ := run_bind_eq_ok.mp hRun
    obtain ⟨hParse, rfl⟩ := liftExcept_ok hLift
    obtain ⟨hRole, hPlain⟩ := Directive.parse_ok hParse
    have hHead : head.role = d.role := by
      rw [Token.role, if_pos hKind, hRole]
    exact ⟨hPlain.cons (by rw [hKind]; exact Token.Kind.noConfusion),
      directive_ok hHead hParse hDirective⟩
  | mnemonic =>
    have hRole : head.role = .emits := by
      rw [Token.role, if_neg (by rw [hKind]; exact Token.Kind.noConfusion)]
    rw [statement, hKind] at hRun
    cases hName : Isa.Mnemonic.ofName? head.text with
    | some m =>
      simp only [hName] at hRun
      obtain ⟨hPlain, hSettles⟩ := instruction_ok hRole hRun
      exact ⟨hPlain.cons (by rw [hKind]; exact Token.Kind.noConfusion), hSettles⟩
    | none =>
      simp only [hName] at hRun
      cases hRun
  | _ =>
    rw [statement, hKind] at hRun
    cases hRun

/-! ## Lines that succeed -/

theorem line_eq (ts : List Token) : line ts =
    match ts.dropWhile Token.isLabel with
    | [] => modify fun a => { a with pending := a.pending ++ ts.takeWhile Token.isLabel }
    | head :: operands => statement (ts.takeWhile Token.isLabel) head operands :=
  rfl

theorem filter_isLabel_eq {ts : List Token} (hPlain : Token.Plain (ts.dropWhile Token.isLabel)) :
    ts.filter Token.isLabel = ts.takeWhile Token.isLabel := by
  have hFront : (ts.takeWhile Token.isLabel).filter Token.isLabel = ts.takeWhile Token.isLabel :=
    List.filter_eq_self.mpr fun _ hMem => List.mem_takeWhile_imp hMem
  have hBack : (ts.dropWhile Token.isLabel).filter Token.isLabel = [] :=
    List.filter_eq_nil_iff.mpr fun t hMem hLabel => hPlain t hMem (eq_of_beq hLabel)
  calc
    ts.filter Token.isLabel
        = (ts.takeWhile Token.isLabel ++ ts.dropWhile Token.isLabel).filter Token.isLabel := by
      rw [List.takeWhile_append_dropWhile]
    _ = ts.takeWhile Token.isLabel := by
      rw [List.filter_append, hFront, hBack, List.append_nil]

theorem line_of_labels {ts : List Token} (hNone : ts.dropWhile Token.isLabel = [])
    (a : Assembly) :
    line ts a = .ok () (a.relabel a.labels (a.pending ++ ts.filter Token.isLabel)) := by
  rw [line_eq, hNone, filter_isLabel_eq (hNone ▸ Token.Plain.nil)]
  rfl

theorem line_ok {ts : List Token} {head : Token} {operands : List Token} {a b : Assembly}
    (hHead : ts.dropWhile Token.isLabel = head :: operands)
    (hRun : line ts a = .ok () b) :
    Settles a b (ts.filter Token.isLabel) head operands := by
  rw [line_eq, hHead] at hRun
  obtain ⟨hPlain, hSettles⟩ := statement_ok hRun
  rw [filter_isLabel_eq (hHead ▸ hPlain)]
  exact hSettles

/-! ## Sources that succeed -/

def tokenLines (source : Nat) : Nat → List Token.RawLine → Except Error (List (List Token))
  | _, [] => .ok []
  | _, .undecodable :: _ => .error .fileRead
  | index, .text cs :: rest => do
    let ts ← (Token.scanLine streamOptions source index cs).mapError Error.lexical
    return ts :: (← tokenLines source (index + 1) rest)

theorem named_of_scan {source index : Nat} {cs : List Char} {ts : List Token}
    (hScan : (Token.scanLine streamOptions source index cs).mapError Error.lexical = .ok ts) :
    ∀ t ∈ ts, t.kind = .label → ∃ name, t.labelName? = some name := by
  cases hTokens : Token.scanLine streamOptions source index cs with
  | error e =>
    rw [hTokens] at hScan
    cases hScan
  | ok us =>
    rw [hTokens] at hScan
    cases hScan
    exact Token.Scanner.labelName?_of_mem_tokens hTokens

theorem binds_of_decides {ts : List Token} {a : Assembly} {lines : List (List Token)}
    {address : UInt32} (hNamed : ∀ t ∈ ts, t.kind = .label → ∃ name, t.labelName? = some name)
    (hDecides : Decides a lines .onLine address) :
    List.Forall₂ Site.Binds
      ((ts.filter Token.isLabel).map fun t => ⟨t, a, lines⟩)
      ((ts.filter Token.isLabel).map (·.labelAt address)) := by
  rw [List.forall₂_map_left_iff, List.forall₂_map_right_iff, List.forall₂_same]
  intro t hMem
  obtain ⟨hLine, hLabel⟩ := List.mem_filter.mp hMem
  obtain ⟨name, hName⟩ := hNamed t hLine (eq_of_beq hLabel)
  refine ⟨?_, rfl, hDecides⟩
  rw [Token.labelAt, hName]
  rfl

/-- Between `a` and `b`, lines bind the labels that wait in front of them, then their own. -/
structure Bound (a b : Assembly) (tss : List (List Token)) (waiting : UInt32)
    (new : List Label) : Prop where
  decides : Decides a tss .before waiting
  pending : b.pending = []
  labels : b.labels.labels = a.labels.labels ++ (a.pending.map (·.labelAt waiting) ++ new)
  binds : List.Forall₂ Site.Binds (a.sites tss) new

theorem Bound.ended (a : Assembly) : Bound a (a.flush []) [] (a.cursorOf a.active).pc [] := by
  refine ⟨Decides.ended, rfl, ?_, List.Forall₂.nil⟩
  rw [← Assembly.pc_eq]
  exact (Flushed.flush [] rfl rfl).labels

theorem Bound.cons {ts : List Token} {a b c : Assembly} {tss : List (List Token)}
    {waiting : UInt32} {new : List Label}
    (hNamed : ∀ t ∈ ts, t.kind = .label → ∃ name, t.labelName? = some name)
    (hLine : line ts a = .ok () c) (hBound : Bound c b tss waiting new) :
    ∃ waiting' new', Bound a b (ts :: tss) waiting' new' := by
  have hFinal : final (line ts) a = c := final_of_ok hLine
  cases hHead : ts.dropWhile Token.isLabel with
  | nil =>
    -- without a statement, the labels of the line join those that wait
    have hDecides : ∀ standing, Decides a (ts :: tss) standing waiting := fun _ =>
      Decides.later hHead (hFinal ▸ hBound.decides)
    refine ⟨waiting, (ts.filter Token.isLabel).map (·.labelAt waiting) ++ new, hDecides .before,
      hBound.pending, ?_, ?_⟩
    · cases (line_of_labels hHead a).symm.trans hLine
      rw [hBound.labels, ← List.append_assoc (a.pending.map _), ← List.map_append]
      rfl
    · rw [Assembly.sites, hFinal]
      exact List.rel_append (binds_of_decides hNamed (hDecides .onLine)) hBound.binds
  | cons head operands =>
    -- a statement binds both kinds, at a change of section to different addresses
    obtain ⟨before, own, hBefore, hOwn, hFlushed⟩ := line_ok hHead hLine
    rw [← hFinal] at hBefore hOwn
    refine ⟨before, (ts.filter Token.isLabel).map (·.labelAt own) ++ new,
      Decides.statement head operands hHead hBefore, hBound.pending, ?_, ?_⟩
    · rw [hBound.labels, hFlushed.pending, hFlushed.labels, List.map_nil, List.nil_append,
        List.append_assoc, List.append_assoc]
    · rw [Assembly.sites, hFinal]
      exact List.rel_append
        (binds_of_decides hNamed (Decides.statement head operands hHead hOwn)) hBound.binds

theorem lines_ok {source : Nat} (raw : List Token.RawLine) :
    ∀ {index : Nat} {a b : Assembly}, lines source index raw a = .ok () b →
      ∃ tss waiting new, tokenLines source index raw = .ok tss ∧ Bound a b tss waiting new := by
  -- the labels that wait in front of the lines stay general
  induction raw with
  | nil =>
    intro index a b hRun
    cases define_ok hRun
    exact ⟨[], _, [], rfl, Bound.ended a⟩
  | cons l raw ih =>
    intro index a b hRun
    cases l with
    | undecodable => cases hRun
    | text cs =>
      obtain ⟨ts, _, hLift, hRest⟩ := run_bind_eq_ok.mp hRun
      obtain ⟨hScan, rfl⟩ := liftExcept_ok hLift
      obtain ⟨_, c, hLine, hLines⟩ := run_bind_eq_ok.mp hRest
      obtain ⟨tss, waiting, new, hTokens, hBound⟩ := ih hLines
      obtain ⟨waiting', new', hBound'⟩ := hBound.cons (named_of_scan hScan) hLine
      refine ⟨ts :: tss, waiting', new', ?_, hBound'⟩
      rw [tokenLines, hScan, hTokens]
      rfl

end Assemble

/-- **Labels are bound to what follows them.** The table grows by the labels of the source, in
order and each with its name and position; the first statement on the line of a label or behind it
decides the address. -/
theorem labels_of_parse (a b : Assembly) (source : Nat) (raw : List Token.RawLine)
    (items : Array Item) (hPending : a.pending = [])
    (hParse : a.parse source raw = (.ok items, b)) :
    ∃ tss new, Assemble.tokenLines source 0 raw = .ok tss ∧
      b.labels.labels = a.labels.labels ++ new ∧
      (Assembly.sites { a with staged := #[] } tss).map Site.token =
        tss.flatten.filter Token.isLabel ∧
      List.Forall₂ Site.Binds (Assembly.sites { a with staged := #[] } tss) new ∧
      (∀ other, List.Forall₂ Site.Binds (Assembly.sites { a with staged := #[] } tss) other →
        other = new) := by
  rw [Assembly.parse] at hParse
  split at hParse
  · rename_i c hRun
    cases hParse
    obtain ⟨tss, waiting, new, hTokens, hBound⟩ := Assemble.lines_ok raw hRun
    refine ⟨tss, new, hTokens, ?_, Assembly.map_token_sites _ _, hBound.binds, fun other hOther =>
      Site.rightUnique_binds.forall₂ hOther hBound.binds⟩
    have hLabels := hBound.labels
    simp only [hPending, List.map_nil, List.nil_append] at hLabels
    exact hLabels
  · cases hParse

/-- Labels in front of an instruction, at a change of section, at an alignment, behind a gap and at
the end. -/
def signposts : List Token.RawLine :=
  Token.linesOfText
    "a:\n\nb: j b\nc:\nd: .data\ne: .align 2\n.space 1\nf: .half 7\ng:"

def signpostsStart : Assembly :=
  .ofBases 2 1 (.ofCapacity 4 .little)

theorem labels_of_signposts : ∃ items b tss,
    signpostsStart.pending = [] ∧ signpostsStart.parse 0 signposts = (.ok items, b) ∧
    b.labels.labels.map (fun l => (l.name, l.address)) =
      [("a", 4), ("b", 4), ("c", 8), ("d", 1), ("e", 4), ("f", 6), ("g", 8)] ∧
    Assemble.tokenLines 0 0 signposts = .ok tss ∧
    List.Forall₂ Site.Binds (signpostsStart.sites tss) b.labels.labels := by
  have hOk : (signpostsStart.parse 0 signposts).1.isOk = true := by
    decide +kernel
  have hTable : (signpostsStart.parse 0 signposts).2.labels.labels.map
      (fun l => (l.name, l.address)) =
        [("a", 4), ("b", 4), ("c", 8), ("d", 1), ("e", 4), ("f", 6), ("g", 8)] := by
    decide +kernel
  cases hParse : signpostsStart.parse 0 signposts with
  | mk outcome b =>
    rw [hParse] at hOk hTable
    cases outcome with
    | error e => cases hOk
    | ok items =>
      obtain ⟨tss, new, hTokens, hLabels, _, hBinds, _⟩ :=
        labels_of_parse signpostsStart b 0 signposts items rfl hParse
      have hNew : b.labels.labels = new := hLabels
      exact ⟨items, b, tss, rfl, rfl, hTable, hTokens, hNew ▸ hBinds⟩

end MipsAsm
