import Mathlib.Data.List.Forall2
import MipsAsm.Error
import MipsAsm.Proofs.Agreement
import MipsAsm.Proofs.Token.Reading

/-! # Tokens that differ in positions only

Tokens are alike if they have the same kind and text and their positions correspond. A line that is
scanned at another place, with its columns counted from elsewhere, gives tokens alike or an error
of the same cause.
-/

namespace MipsAsm

open Outcome (Agree)
open Automaton (Action Event Machine Stop)

variable {P Q : Position → Position → Prop}

structure Token.Alike (P : Position → Position → Prop) (t u : Token) : Prop where
  kind : t.kind = u.kind
  text : t.text = u.text
  pos : P t.pos u.pos

structure Token.LexicalError.Alike (P : Position → Position → Prop) (e f : LexicalError) : Prop where
  cause : e.cause = f.cause
  pos : P e.pos f.pos

/-- The same cause at corresponding positions, or the same error without one. -/
inductive Error.Alike (P : Position → Position → Prop) : Error → Error → Prop where
  | lexical {e f : Token.LexicalError} (hAlike : e.Alike P f) : Alike P (.lexical e) (.lexical f)
  | located {p q : Position} (hPos : P p q) (cause : Cause) :
      Alike P (cause.located p) (cause.located q)
  | same {e : Error} (hNone : e.pos? = none) : Alike P e e

theorem Token.LexicalError.Alike.eq {e f : LexicalError} (hAlike : e.Alike Eq f) : e = f := by
  obtain ⟨pos, cause⟩ := e
  obtain ⟨rfl, rfl⟩ := hAlike
  rfl

theorem Error.Alike.eq {e f : Error} (hAlike : Error.Alike Eq e f) : e = f := by
  cases hAlike with
  | lexical hAlike => rw [hAlike.eq]
  | located hPos cause => rw [hPos]
  | same => rfl

namespace Token

theorem Alike.mono {t u : Token} (hAlike : Alike P t u) (hPos : ∀ p q, P p q → Q p q) :
    Alike Q t u :=
  ⟨hAlike.kind, hAlike.text, hPos _ _ hAlike.pos⟩

variable {t u : Token} {ts us : List Token}

theorem Alike.is_eq (hAlike : Alike P t u) (kind : Kind) (text : String) :
    t.is kind text = u.is kind text := by
  rw [is, is, hAlike.kind, hAlike.text]

theorem Alike.labelName?_eq (hAlike : Alike P t u) : t.labelName? = u.labelName? := by
  rw [labelName?, labelName?, hAlike.kind, hAlike.text]

theorem Alike.intValue?_eq (hAlike : Alike P t u) : t.intValue? = u.intValue? := by
  rw [intValue?, intValue?, hAlike.kind, hAlike.text]

theorem takeWhile_dropWhile_alike (kind : Kind) (hTokens : List.Forall₂ (Alike P) ts us) :
    List.Forall₂ (Alike P) (ts.takeWhile fun t => t.kind == kind)
        (us.takeWhile fun t => t.kind == kind) ∧
      List.Forall₂ (Alike P) (ts.dropWhile fun t => t.kind == kind)
        (us.dropWhile fun t => t.kind == kind) := by
  induction hTokens with
  | nil => exact ⟨.nil, .nil⟩
  | @cons t u ts us hHead hTail ih =>
    rw [List.takeWhile_cons, List.takeWhile_cons, List.dropWhile_cons, List.dropWhile_cons,
      hHead.kind]
    split
    · exact ⟨.cons hHead ih.1, ih.2⟩
    · exact ⟨.nil, .cons hHead hTail⟩

/-! ## Lines at another place -/

/-- A line is moved to another source and index, and its columns to the right. -/
structure Relocation where
  source : Nat
  line : Nat
  source' : Nat
  line' : Nat
  shift : Nat

variable {r : Relocation}

def Relocation.Maps (r : Relocation) (p q : Position) : Prop :=
  p = ⟨r.source, r.line, p.col⟩ ∧ q = ⟨r.source', r.line', p.col + r.shift⟩

structure Draft.Alike (r : Relocation) (d d' : Draft) : Prop where
  source : d.source = r.source
  line : d.line = r.line
  eq : d' = ⟨r.source', r.line', d.col.map (· + r.shift), d.kind, d.reversed,
    d.marked.map (· + r.shift)⟩

structure StopAlike (r : Relocation) (x y : Stop State Draft) : Prop where
  state : y.state = x.state
  col : y.col = x.col + r.shift
  rest : y.rest = x.rest
  result : x.result.Alike r y.result

structure Scanner.Alike (r : Relocation) (s s' : Scanner) : Prop where
  source : s.source = r.source
  line : s.line = r.line
  eq : s' = ⟨s.options, r.source', r.line', s.col + r.shift, s.rest⟩

theorem Draft.Alike.react {d d' : Draft} (hDraft : d.Alike r d') (c : Char) (col : Nat)
    (a : Action Kind) :
    (d.react (a.event c col)).Alike r (d'.react (a.event c (col + r.shift))) := by
  obtain ⟨hSource, hLine, rfl⟩ := hDraft
  cases a <;> exact ⟨hSource, hLine, by simp [Action.event, Draft.react, fresh, hSource, hLine]⟩

theorem Draft.Alike.foldl {d d' : Draft} (hDraft : d.Alike r d') (c : Char) (col : Nat)
    (actions : List (Action Kind)) :
    ((actions.map (·.event c col)).foldl Draft.react d).Alike r
      ((actions.map (·.event c (col + r.shift))).foldl Draft.react d') := by
  induction actions generalizing d d' with
  | nil => exact hDraft
  | cons a actions ih => exact ih (hDraft.react c col a)

theorem runFrom_alike (m : Machine State Kind) (cs : List Char) :
    ∀ (state : State) (col : Nat) {d d' : Draft}, d.Alike r d' →
      StopAlike r (m.runFrom Draft.react state col d cs)
        (m.runFrom Draft.react state (col + r.shift) d' cs) := by
  induction cs with
  | nil =>
    intro state col d d' hDraft
    exact ⟨rfl, rfl, rfl, hDraft⟩
  | cons c cs ih =>
    intro state col d d' hDraft
    rw [Machine.runFrom, Machine.runFrom]
    split
    · exact ⟨rfl, rfl, rfl, hDraft⟩
    · rename_i e _
      rw [Nat.add_right_comm]
      exact ih e.target (col + 1) (hDraft.foldl c col e.actions)

theorem Draft.Alike.accept {d d' : Draft} (hDraft : d.Alike r d') :
    Agree (LexicalError.Alike r.Maps) (Option.Rel (Token.Alike r.Maps)) (Scanner.accept d)
      (Scanner.accept d') := by
  obtain ⟨source, line, col, kind, reversed, marked⟩ := d
  obtain ⟨rfl, rfl, rfl⟩ := hDraft
  cases col with
  | none => exact .ok .none
  | some col =>
    have hMaps : r.Maps ⟨r.source, r.line, col⟩ ⟨r.source', r.line', col + r.shift⟩ := ⟨rfl, rfl⟩
    cases kind with
    | none => exact .ok .none
    | some kind =>
      simp only [Scanner.accept, build?, pos?, text, Option.map_some, Option.pure_def,
        Option.bind_eq_bind, Option.bind_some]
      cases kind with
      | label =>
        dsimp only
        split
        · exact .error ⟨rfl, hMaps⟩
        · exact .ok (.some ⟨rfl, rfl, hMaps⟩)
      | _ => exact .ok (.some ⟨rfl, rfl, hMaps⟩)

namespace Scanner.Alike

variable {s s' : Scanner}

theorem run (hScanner : s.Alike r s') : StopAlike r s.run s'.run := by
  obtain ⟨hSource, hLine, rfl⟩ := hScanner
  exact runFrom_alike (machine s.options) s.rest .start s.col ⟨hSource, hLine, rfl⟩

theorem reject (hScanner : s.Alike r s') (state : State) (col : Nat) :
    (s.reject state col).Alike r.Maps (s'.reject state (col + r.shift)) := by
  obtain ⟨hSource, hLine, rfl⟩ := hScanner
  refine ⟨?_, ?_, rfl⟩
  · simp only [Scanner.reject, Nat.add_sub_add_right]
  · rw [← hSource, ← hLine]
    rfl

theorem conclude (hScanner : s.Alike r s') {x y : Stop State Draft} (hStop : StopAlike r x y) :
    Agree (LexicalError.Alike r.Maps) (Option.Rel (Token.Alike r.Maps)) (s.conclude x)
      (s'.conclude y) := by
  have hOptions : s'.options = s.options := by rw [hScanner.eq]
  rw [Scanner.conclude, Scanner.conclude, hOptions, hStop.state, hStop.rest]
  split
  · exact hStop.result.accept
  · split
    · exact .ok .none
    · -- the blamed column is marked in both drafts or in none
      have hCol : y.result.marked.getD y.col = x.result.marked.getD x.col + r.shift := by
        rw [hStop.result.eq, hStop.col]
        cases x.result.marked <;> rfl
      rw [hCol]
      exact .error (hScanner.reject _ _)

theorem next (hScanner : s.Alike r s') :
    Agree (LexicalError.Alike r.Maps) (Option.Rel (Token.Alike r.Maps)) s.next.1 s'.next.1 ∧
      s.next.2.Alike r s'.next.2 := by
  have hStop := hScanner.run
  have hRest : s'.rest = s.rest := by rw [hScanner.eq]
  rw [Scanner.next, Scanner.next, hRest]
  split
  · exact ⟨.ok .none, hScanner⟩
  · refine ⟨hScanner.conclude hStop, hScanner.source, hScanner.line, ?_⟩
    dsimp only
    rw [hStop.col, hStop.rest, hScanner.eq]

theorem tokens (hScanner : s.Alike r s') :
    Agree (LexicalError.Alike r.Maps) (List.Forall₂ (Token.Alike r.Maps)) s.tokens s'.tokens := by
  fun_induction Scanner.tokens s generalizing s' with
  | case1 s e hNext =>
    obtain ⟨f, hNext', hError⟩ := hScanner.next.1.exists_of_error hNext
    rw [tokens_of_error hNext']
    exact .error hError
  | case2 s hNext =>
    obtain ⟨_, hNext', ⟨⟩⟩ := hScanner.next.1.exists_of_ok hNext
    rw [tokens_of_none hNext']
    exact .ok .nil
  | case3 s t hNext e hTokens ih =>
    obtain ⟨_, hNext', ⟨hToken⟩⟩ := hScanner.next.1.exists_of_ok hNext
    obtain ⟨f, hTokens', hError⟩ := (ih hScanner.next.2).exists_of_error hTokens
    rw [tokens_of_some hNext', hTokens']
    exact .error hError
  | case4 s t hNext ts hTokens ih =>
    obtain ⟨_, hNext', ⟨hToken⟩⟩ := hScanner.next.1.exists_of_ok hNext
    obtain ⟨us, hTokens', hRest⟩ := (ih hScanner.next.2).exists_of_ok hTokens
    rw [tokens_of_some hNext', hTokens']
    exact .ok (.cons hToken hRest)

end Scanner.Alike

theorem scanLine_alike {options : Options} {source line source' line' : Nat}
    (hPlace : ∀ col, P ⟨source, line, col⟩ ⟨source', line', col⟩) (cs : List Char) :
    Agree (Error.Alike P) (List.Forall₂ (Alike P))
      ((scanLine options source line cs).mapError Error.lexical)
      ((scanLine options source' line' cs).mapError Error.lexical) := by
  have hMaps : ∀ p q, Relocation.Maps ⟨source, line, source', line', 0⟩ p q → P p q := by
    rintro p _ ⟨hPos, rfl⟩
    rw [hPos]
    exact hPlace p.col
  have hScanner : (Scanner.ofLine options source line cs).Alike ⟨source, line, source', line', 0⟩
      (Scanner.ofLine options source' line' cs) := ⟨rfl, rfl, rfl⟩
  apply hScanner.tokens.mapError
  · intro e f hError
    exact .lexical ⟨hError.cause, hMaps _ _ hError.pos⟩
  · intro ts us hTokens
    exact hTokens.imp fun _ _ hAlike => hAlike.mono hMaps

end Token

end MipsAsm
