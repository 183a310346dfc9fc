import MipsAsm.Automaton.Basic
import Mathlib.Computability.Language

/-! # Walks of an automaton

A walk reads all of its input, where a run stops at the first character without an edge. Every run
is a walk in front of an input that it cannot enter. Which state a walk ends in is a matter of
languages: walks through one language and then another go through their product.
-/

namespace MipsAsm.Automaton

open Computability

/-! ## Words -/

/-- The words of one character. -/
def one (p : Char → Bool) : Language Char :=
  {w | ∃ c, p c = true ∧ w = [c]}

theorem singleton_mem_one {p : Char → Bool} {c : Char} (hClass : p c = true) : [c] ∈ one p :=
  ⟨c, hClass, rfl⟩

theorem snoc_mem_mul {A : Language Char} {p : Char → Bool} {w : List Char} {c : Char}
    (hMem : w ∈ A) (hClass : p c = true) : w ++ [c] ∈ A * one p :=
  Language.append_mem_mul hMem (singleton_mem_one hClass)

theorem mem_mul_kstar {A B : Language Char} {w : List Char} (hMem : w ∈ A) : w ∈ A * B∗ := by
  rw [← List.append_nil w]
  exact Language.append_mem_mul hMem (Language.nil_mem_kstar B)

theorem append_mem_kstar {A : Language Char} {x y : List Char} (hX : x ∈ A) (hY : y ∈ A∗) :
    x ++ y ∈ A∗ :=
  (mul_kstar_le_kstar : A * A∗ ≤ A∗) (Language.append_mem_mul hX hY)

theorem append_mem_mul_kstar {A B : Language Char} {x y : List Char} (hX : x ∈ A * B∗)
    (hY : y ∈ B) : x ++ y ∈ A * B∗ := by
  obtain ⟨a, hA, b, hB, rfl⟩ := Language.mem_mul.mp hX
  rw [List.append_assoc]
  exact Language.append_mem_mul hA
    ((kstar_mul_le_kstar : B∗ * B ≤ B∗) (Language.append_mem_mul hB hY))

namespace Machine

variable {σ κ α : Type}

/-- The state after reading all of an input, if no edge is missing. -/
def after? (m : Machine σ κ) (state : σ) : List Char → Option σ
  | [] => some state
  | c :: cs => (m.edge? state c).bind fun e => m.after? e.target cs

/-- A walk with what the events on its way make of `acc`. -/
def walk (m : Machine σ κ) (react : α → Event κ → α) (state : σ) (col : Nat) (acc : α) :
    List Char → Option (σ × α)
  | [] => some (state, acc)
  | c :: cs => (m.edge? state c).bind fun e =>
      m.walk react e.target (col + 1) ((e.events c col).foldl react acc) cs

/-- No edge leads into the input. -/
def Stuck (m : Machine σ κ) (state : σ) (cs : List Char) : Prop :=
  ∀ c ∈ cs.head?, m.edge? state c = none

theorem stuck_nil (m : Machine σ κ) (state : σ) : m.Stuck state [] := by
  simp [Stuck]

theorem Stuck.of_head? {m : Machine σ κ} {state : σ} {cs cs' : List Char}
    (hStuck : m.Stuck state cs) (hHead : cs'.head? = cs.head?) : m.Stuck state cs' := by
  rw [Stuck, hHead]
  exact hStuck

theorem Stuck.of_append {m : Machine σ κ} {state : σ} {xs ys zs : List Char}
    (hStuck : m.Stuck state (xs ++ ys)) (hEmpty : xs = [] → zs = []) :
    m.Stuck state (xs ++ zs) := by
  cases xs with
  | nil =>
    rw [hEmpty rfl]
    exact m.stuck_nil state
  | cons c xs => exact hStuck

/-! ## States -/

theorem after?_append (m : Machine σ κ) (state : σ) (xs ys : List Char) :
    m.after? state (xs ++ ys) = (m.after? state xs).bind fun t => m.after? t ys := by
  induction xs generalizing state with
  | nil => rfl
  | cons c xs ih =>
    rw [List.cons_append, after?, after?]
    cases m.edge? state c with
    | none => rfl
    | some e => exact ih e.target

theorem after?_singleton (m : Machine σ κ) (state : σ) (c : Char) :
    m.after? state [c] = (m.edge? state c).map Edge.target := by
  rw [after?]
  cases m.edge? state c <;> rfl

/-- The state of a walk does not hang on what the events make. -/
theorem map_fst_walk (m : Machine σ κ) (react : α → Event κ → α) (cs : List Char) :
    ∀ (state : σ) (col : Nat) (acc : α),
      (m.walk react state col acc cs).map Prod.fst = m.after? state cs := by
  induction cs with
  | nil => intro state col acc; rfl
  | cons c cs ih =>
    intro state col acc
    rw [walk, after?]
    cases m.edge? state c with
    | none => rfl
    | some e => exact ih e.target (col + 1) _

theorem exists_walk_of_after? {m : Machine σ κ} {state t : σ} {cs : List Char}
    (hAfter : m.after? state cs = some t) (react : α → Event κ → α) (col : Nat) (acc : α) :
    ∃ result, m.walk react state col acc cs = some (t, result) := by
  rw [← m.map_fst_walk react cs state col acc] at hAfter
  obtain ⟨⟨u, result⟩, hWalk, rfl⟩ := Option.map_eq_some_iff.mp hAfter
  exact ⟨result, hWalk⟩

theorem after?_of_walk {m : Machine σ κ} {react : α → Event κ → α} {state t : σ} {col : Nat}
    {acc result : α} {cs : List Char} (hWalk : m.walk react state col acc cs = some (t, result)) :
    m.after? state cs = some t := by
  rw [← m.map_fst_walk react cs state col acc, hWalk]
  rfl

/-! ## Walks and runs -/

theorem walk_append (m : Machine σ κ) (react : α → Event κ → α) (xs ys : List Char) :
    ∀ (state : σ) (col : Nat) (acc : α), m.walk react state col acc (xs ++ ys) =
      (m.walk react state col acc xs).bind fun p =>
        m.walk react p.1 (col + xs.length) p.2 ys := by
  induction xs with
  | nil => intro state col acc; rfl
  | cons c xs ih =>
    intro state col acc
    rw [List.cons_append, walk, walk]
    cases m.edge? state c with
    | none => rfl
    | some e =>
      have hCol : col + 1 + xs.length = col + (c :: xs).length := by
        rw [List.length_cons]; omega
      rw [Option.bind_some, Option.bind_some, ih, hCol]

/-- What holds at the start and survives each edge holds after a walk. -/
theorem walk_induction {m : Machine σ κ} {react : α → Event κ → α} {start : σ} {col : Nat}
    {acc : α} (P : σ → List Char → α → Prop) (hStart : P start [] acc)
    (hStep : ∀ state read result c e, P state read result → m.edge? state c = some e →
      P e.target (read ++ [c]) ((e.events c (col + read.length)).foldl react result))
    (cs : List Char) :
    ∀ {t : σ} {result : α}, m.walk react start col acc cs = some (t, result) → P t cs result := by
  -- the input grows at its end, as it does in a walk
  induction cs using List.reverseRecOn with
  | nil =>
    intro t result hWalk
    cases hWalk
    exact hStart
  | append_singleton cs c ih =>
    intro t result hWalk
    rw [walk_append, Option.bind_eq_some_iff] at hWalk
    obtain ⟨⟨u, middle⟩, hFront, hLast⟩ := hWalk
    rw [walk, Option.bind_eq_some_iff] at hLast
    obtain ⟨e, hEdge, hEnd⟩ := hLast
    cases hEnd
    exact hStep u cs middle c e (ih hFront) hEdge

theorem runFrom_of_walk {m : Machine σ κ} {react : α → Event κ → α} {t : σ} {result : α}
    {rest : List Char} (hStuck : m.Stuck t rest) (read : List Char) :
    ∀ {state : σ} {col : Nat} {acc : α}, m.walk react state col acc read = some (t, result) →
      m.runFrom react state col acc (read ++ rest) = ⟨t, col + read.length, rest, result⟩ := by
  induction read with
  | nil =>
    intro state col acc hWalk
    cases hWalk
    cases rest with
    | nil => rfl
    | cons c rest =>
      rw [List.nil_append, runFrom, hStuck c rfl]
      rfl
  | cons c read ih =>
    intro state col acc hWalk
    rw [walk, Option.bind_eq_some_iff] at hWalk
    obtain ⟨e, hEdge, hTail⟩ := hWalk
    have hCol : col + 1 + read.length = col + (c :: read).length := by
      rw [List.length_cons]; omega
    rw [List.cons_append, runFrom, hEdge]
    simp only [ih hTail, hCol]

/-- Every input has a walk that goes as far as edges lead. -/
theorem exists_walk_stuck (m : Machine σ κ) (react : α → Event κ → α) (cs : List Char) :
    ∀ (state : σ) (col : Nat) (acc : α), ∃ read rest t result, cs = read ++ rest ∧
      m.walk react state col acc read = some (t, result) ∧ m.Stuck t rest := by
  induction cs with
  | nil =>
    intro state col acc
    exact ⟨[], [], state, acc, rfl, rfl, m.stuck_nil state⟩
  | cons c cs ih =>
    intro state col acc
    cases hEdge : m.edge? state c with
    | none =>
      refine ⟨[], c :: cs, state, acc, rfl, rfl, ?_⟩
      simp [Stuck, hEdge]
    | some e =>
      obtain ⟨read, rest, t, result, rfl, hWalk, hStuck⟩ :=
        ih e.target (col + 1) ((e.events c col).foldl react acc)
      refine ⟨c :: read, rest, t, result, rfl, ?_, hStuck⟩
      rw [walk, hEdge]
      exact hWalk

/-! ## Languages -/

/-- Every word of a language leads from one state to the other. -/
def Leads (m : Machine σ κ) (state : σ) (words : Language Char) (t : σ) : Prop :=
  ∀ w ∈ words, m.after? state w = some t

namespace Leads

variable {m : Machine σ κ} {s t u : σ} {A B : Language Char}

theorem edge {p : Char → Bool}
    (hEdge : ∀ c, p c = true → (m.edge? s c).map Edge.target = some t) :
    m.Leads s (one p) t := by
  rintro w ⟨c, hClass, rfl⟩
  rw [after?_singleton, hEdge c hClass]

theorem mul (hFirst : m.Leads s A t) (hSecond : m.Leads t B u) : m.Leads s (A * B) u := by
  intro w hMem
  obtain ⟨x, hX, y, hY, rfl⟩ := Language.mem_mul.mp hMem
  rw [after?_append, hFirst x hX]
  exact hSecond y hY

theorem add (hFirst : m.Leads s A t) (hSecond : m.Leads s B t) : m.Leads s (A + B) t := by
  intro w hMem
  rcases (Language.mem_add A B w).mp hMem with hA | hB
  · exact hFirst w hA
  · exact hSecond w hB

theorem kstar (hLoop : m.Leads s A s) : m.Leads s A∗ s := by
  intro w hMem
  obtain ⟨parts, rfl, hParts⟩ := Language.mem_kstar.mp hMem
  clear hMem
  induction parts with
  | nil => rfl
  | cons x parts ih =>
    rw [List.flatten_cons, after?_append, hLoop x (hParts x List.mem_cons_self)]
    exact ih fun y hY => hParts y (List.mem_cons_of_mem x hY)

end Leads

end Machine

end MipsAsm.Automaton
