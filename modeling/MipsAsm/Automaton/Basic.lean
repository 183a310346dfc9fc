import MipsAsm.Automaton.CharSet

/-! # Automata with actions

Each state lists its outgoing edges, and the first edge whose set holds the next character is
taken. An edge carries actions; taking it turns them into events for whoever builds a result. A
run goes on until no edge matches or the input ends.
-/

namespace MipsAsm.Automaton

inductive Action (κ : Type) where
  /-- Begin at the current column. -/
  | start
  /-- Take the character that was read. -/
  | append
  /-- Take a fixed character instead. -/
  | appendLit (c : Char)
  | setKind (kind : κ)
  /-- Remember the current column as the one to blame. -/
  | mark
  deriving DecidableEq, Repr

inductive Event (κ : Type) where
  | start (col : Nat)
  | push (c : Char)
  | setKind (kind : κ)
  | mark (col : Nat)
  deriving DecidableEq, Repr

def Action.event {κ : Type} (c : Char) (col : Nat) : Action κ → Event κ
  | .start => .start col
  | .append => .push c
  | .appendLit lit => .push lit
  | .setKind kind => .setKind kind
  | .mark => .mark col

structure Edge (σ κ : Type) where
  target : σ
  on : CharSet
  actions : List (Action κ)

def Edge.events {σ κ : Type} (e : Edge σ κ) (c : Char) (col : Nat) : List (Event κ) :=
  e.actions.map fun a => a.event c col

structure Machine (σ κ : Type) where
  start : σ
  name : σ → String
  accepting : σ → Bool
  edges : σ → List (Edge σ κ)

/-- Where a run ended: the state, the column and the characters not read. -/
structure Stop (σ α : Type) where
  state : σ
  col : Nat
  rest : List Char
  result : α

namespace Machine

variable {σ κ α : Type}

def edge? (m : Machine σ κ) (state : σ) (c : Char) : Option (Edge σ κ) :=
  (m.edges state).find? fun e => e.on.contains c

/-- Runs from `state`, feeding every event to `react`. -/
def runFrom (m : Machine σ κ) (react : α → Event κ → α) (state : σ) (col : Nat) (acc : α) :
    List Char → Stop σ α
  | [] => ⟨state, col, [], acc⟩
  | c :: cs =>
    match m.edge? state c with
    | none => ⟨state, col, c :: cs, acc⟩
    | some e => runFrom m react e.target (col + 1) ((e.events c col).foldl react acc) cs

def run (m : Machine σ κ) (react : α → Event κ → α) (col : Nat) (acc : α) (cs : List Char) :
    Stop σ α :=
  m.runFrom react m.start col acc cs

/-- A run reads a part of the input from its front and advances one column per character. -/
theorem runFrom_split (m : Machine σ κ) (react : α → Event κ → α) (cs : List Char) :
    ∀ (state : σ) (col : Nat) (acc : α), ∃ read,
      cs = read ++ (m.runFrom react state col acc cs).rest ∧
        (m.runFrom react state col acc cs).col = col + read.length := by
  induction cs with
  | nil => intro state col acc; exact ⟨[], rfl, rfl⟩
  | cons c cs ih =>
    intro state col acc
    rw [runFrom]
    split
    · exact ⟨[], rfl, rfl⟩
    · rename_i e _
      obtain ⟨read, hRest, hCol⟩ :=
        ih e.target (col + 1) ((e.events c col).foldl react acc)
      refine ⟨c :: read, ?_, ?_⟩
      · rw [List.cons_append, ← hRest]
      · rw [hCol, List.length_cons]; omega

/-- A run that reads nothing changes nothing. -/
theorem runFrom_of_length_eq (m : Machine σ κ) (react : α → Event κ → α) (state : σ) (col : Nat)
    (acc : α) (cs : List Char) (hNone : (m.runFrom react state col acc cs).rest.length = cs.length) :
    m.runFrom react state col acc cs = ⟨state, col, cs, acc⟩ := by
  cases cs with
  | nil => rfl
  | cons c cs =>
    rw [runFrom] at hNone ⊢
    split
    · rfl
    · rename_i e hEdge
      simp only [hEdge] at hNone
      obtain ⟨read, hRest, _⟩ :=
        m.runFrom_split react cs e.target (col + 1) ((e.events c col).foldl react acc)
      have hLength := congrArg List.length hRest
      rw [List.length_append, hNone, List.length_cons] at hLength
      omega

theorem length_run_rest_le (m : Machine σ κ) (react : α → Event κ → α) (col : Nat) (acc : α)
    (cs : List Char) : (m.run react col acc cs).rest.length ≤ cs.length := by
  obtain ⟨read, hRest, _⟩ := m.runFrom_split react cs m.start col acc
  have hLength := congrArg List.length hRest
  rw [List.length_append] at hLength
  exact Nat.le.intro (by rw [run, Nat.add_comm]; exact hLength.symm)

end Machine

/-- A machine given by a list of named states, numbered from 0 with the start first, and a list of
edges with their source states. -/
structure Table (κ : Type) where
  states : List (String × Bool)
  edges : List (Nat × Edge Nat κ)

def Table.machine {κ : Type} (t : Table κ) : Machine Nat κ where
  start := 0
  name n := (t.states[n]?.map Prod.fst).getD ""
  accepting n := (t.states[n]?.map Prod.snd).getD false
  edges n := (t.edges.filter fun e => e.1 == n).map Prod.snd

end MipsAsm.Automaton
