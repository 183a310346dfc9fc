import MipsAsm.Token.Scanner

/-! # Names of labels

Only an edge on a colon makes a label of a draft, and nothing follows it, so that every scanned
label has its colon at the end and a name in front of it.
-/

namespace MipsAsm.Token

open Automaton

/-! ## Edges -/

theorem label_not_mem_commentEdges (options : Options) :
    ∀ e ∈ commentEdges options, Action.setKind Kind.label ∉ e.actions := by
  rw [commentEdges]
  split <;> simp

/-- The one kind of edge that makes a label. -/
theorem eq_of_label_mem (options : Options) (state : State) :
    ∀ e ∈ edges options state, .setKind .label ∈ e.actions →
      e = ⟨.label, .of ":", [.append, .setKind .label]⟩ := by
  cases state with
  | start =>
    rw [edges, List.forall_mem_append]
    refine ⟨by simp [opening], ?_⟩
    intro e hComment hLabel
    exact absurd hLabel (label_not_mem_commentEdges options e hComment)
  | _ => simp [edges, spoiling]

/-! ## Drafts -/

namespace Draft

/-- A draft of a label ends with a colon, and the automaton stands where it cannot go on. -/
def Named (state : State) (d : Draft) : Prop :=
  d.kind = some .label → state = .label ∧ d.reversed.head? = some ':'

theorem kind_react_ne {d : Draft} (hKind : d.kind ≠ some .label) {action : Action Kind}
    (hAction : action ≠ .setKind .label) (c : Char) (col : Nat) :
    (d.react (action.event c col)).kind ≠ some .label := by
  cases action with
  | setKind kind =>
    intro hEq
    exact hAction (congrArg _ (Option.some.inj hEq))
  | start => exact (Option.some_ne_none _).symm
  | append => exact hKind
  | appendLit _ => exact hKind
  | mark => exact hKind

theorem kind_foldl_ne (c : Char) (col : Nat) (actions : List (Action Kind)) :
    ∀ {d : Draft}, d.kind ≠ some .label → .setKind .label ∉ actions →
      ((actions.map fun a => a.event c col).foldl react d).kind ≠ some .label := by
  induction actions with
  | nil =>
    intro d hKind _
    exact hKind
  | cons action actions ih =>
    intro d hKind hFree
    rw [List.mem_cons, not_or] at hFree
    exact ih (kind_react_ne hKind (Ne.symm hFree.1) c col) hFree.2

theorem Named.step {options : Options} {state : State} {d : Draft} (hNamed : Named state d)
    {c : Char} {e : Edge State Kind} (hEdge : (machine options).edge? state c = some e)
    (col : Nat) : Named e.target ((e.events c col).foldl react d) := by
  have hMem : e ∈ edges options state := List.mem_of_find?_eq_some hEdge
  have hOn := List.find?_some hEdge
  by_cases hLabel : .setKind .label ∈ e.actions
  · rw [eq_of_label_mem options state e hMem hLabel] at hOn ⊢
    intro _
    refine ⟨rfl, ?_⟩
    have hColon : c = ':' := by simpa [CharSet.of, CharSet.contains] using hOn
    rw [hColon]
    rfl
  · have hKind : d.kind ≠ some .label := by
      intro hKind
      rw [(hNamed hKind).1] at hMem
      exact absurd hMem List.not_mem_nil
    intro hAfter
    exact absurd hAfter (kind_foldl_ne c col e.actions hKind hLabel)

theorem Named.runFrom {options : Options} (cs : List Char) :
    ∀ {state : State} {col : Nat} {d : Draft}, Named state d →
      Named ((machine options).runFrom react state col d cs).state
        ((machine options).runFrom react state col d cs).result := by
  induction cs with
  | nil =>
    intro state col d hNamed
    exact hNamed
  | cons c cs ih =>
    intro state col d hNamed
    rw [Machine.runFrom]
    split
    · exact hNamed
    · rename_i e hEdge
      exact ih (hNamed.step hEdge col)

theorem Named.getLast?_text {state : State} {d : Draft} (hNamed : Named state d) {t : Token}
    (hBuild : d.build? = some t) (hKind : t.kind = .label) :
    t.text.toList.getLast? = some ':' := by
  simp only [build?, Option.bind_eq_bind, Option.bind_eq_some_iff, Option.pure_def] at hBuild
  obtain ⟨pos, _, kind, hDraft, hToken⟩ := hBuild
  cases hToken
  have hHead := (hNamed (hDraft.trans (congrArg some hKind))).2
  rw [text, String.toList_ofList, List.getLast?_reverse, hHead]

end Draft

/-! ## Tokens -/

theorem labelName?_of_getLast? {t : Token} (hKind : t.kind = .label)
    (hColon : t.text.toList.getLast? = some ':') :
    t.labelName? = some (String.ofList t.text.toList.dropLast) := by
  simp only [labelName?, hKind, hColon]

theorem classify_ne_label (text : String) : classify text ≠ .label := by
  rw [classify]
  split
  · exact Kind.noConfusion
  · split <;> exact Kind.noConfusion

namespace Scanner

theorem labelName?_of_accept {d : Draft} {state : State} (hNamed : d.Named state) {t : Token}
    (hAccept : accept d = .ok (some t)) (hKind : t.kind = .label) :
    ∃ name, t.labelName? = some name := by
  rw [accept] at hAccept
  split at hAccept
  · cases hAccept
  · rename_i token hBuild
    split at hAccept
    · cases hAccept
      exact absurd hKind (classify_ne_label token.text)
    · split at hAccept
      · cases hAccept
      · cases hAccept
        exact ⟨_, labelName?_of_getLast? hKind (hNamed.getLast?_text hBuild hKind)⟩
    · cases hAccept
      contradiction

theorem labelName?_of_next {s : Scanner} {t : Token} (hNext : s.next.1 = .ok (some t))
    (hKind : t.kind = .label) : ∃ name, t.labelName? = some name := by
  rw [next] at hNext
  split at hNext
  · cases hNext
  · have hNamed : Draft.Named s.run.state s.run.result :=
      Draft.Named.runFrom s.rest fun hFresh => absurd hFresh (Option.some_ne_none _).symm
    simp only [conclude] at hNext
    split at hNext
    · exact labelName?_of_accept hNamed hNext hKind
    · split at hNext <;> cases hNext

theorem labelName?_of_mem_tokens {s : Scanner} {ts : List Token} (hTokens : s.tokens = .ok ts) :
    ∀ t ∈ ts, t.kind = .label → ∃ name, t.labelName? = some name := by
  fun_induction tokens s generalizing ts with
  | case1 => cases hTokens
  | case2 =>
    cases hTokens
    exact fun t hMem => nomatch hMem
  | case3 => cases hTokens
  | case4 s token hNext rest hRest ih =>
    cases hTokens
    intro t hMem hKind
    rcases List.mem_cons.mp hMem with rfl | hTail
    · exact labelName?_of_next hNext hKind
    · exact ih hRest t hTail hKind

end Scanner

end MipsAsm.Token
