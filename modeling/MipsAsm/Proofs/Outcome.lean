/-! # Outcomes of computations that may fail

Success of a chain is success of each link. A computation over a state leaves one behind in any
case, also when it fails.
-/

namespace MipsAsm.Outcome

variable {ε σ α β : Type}

theorem bind_eq_ok {x : Except ε α} {f : α → Except ε β} {b : β} :
    x >>= f = .ok b ↔ ∃ a, x = .ok a ∧ f a = .ok b := by
  cases x with
  | error e => simp [bind, Except.bind]
  | ok a => simp [bind, Except.bind]

theorem map_eq_ok {x : Except ε α} {f : α → β} {b : β} :
    x.map f = .ok b ↔ ∃ a, x = .ok a ∧ f a = b := by
  cases x with
  | error e => simp [Except.map]
  | ok a => simp [Except.map]

theorem mapError_eq_ok {x : Except ε α} {f : ε → β} {a : α} :
    x.mapError f = .ok a ↔ x = .ok a := by
  cases x with
  | error e =>
    constructor
    · rintro ⟨⟩
    · rintro ⟨⟩
  | ok b =>
    constructor
    · rintro ⟨⟩
      rfl
    · rintro ⟨⟩
      rfl

theorem pure_eq_ok {a b : α} : (pure a : Except ε α) = .ok b ↔ a = b := by
  simp [pure, Except.pure]

theorem length_of_mapM_eq_ok {f : α → Except ε β} {xs : List α} {ys : List β}
    (hMap : xs.mapM f = .ok ys) : ys.length = xs.length := by
  induction xs generalizing ys with
  | nil =>
    cases pure_eq_ok.mp hMap
    rfl
  | cons x xs ih =>
    rw [List.mapM_cons] at hMap
    obtain ⟨y, _, hRest⟩ := bind_eq_ok.mp hMap
    obtain ⟨zs, hTail, hCons⟩ := bind_eq_ok.mp hRest
    cases pure_eq_ok.mp hCons
    rw [List.length_cons, List.length_cons, ih hTail]

theorem run_bind_eq_ok {x : EStateM ε σ α} {f : α → EStateM ε σ β} {s u : σ} {b : β} :
    (x >>= f) s = .ok b u ↔ ∃ a t, x s = .ok a t ∧ f a t = .ok b u := by
  change EStateM.bind x f s = .ok b u ↔ _
  rw [EStateM.bind]
  split
  · rename_i a t hFirst
    rw [hFirst]
    constructor
    · intro hSecond
      exact ⟨a, t, rfl, hSecond⟩
    · rintro ⟨a', t', hEq, hSecond⟩
      cases hEq
      exact hSecond
  · rename_i e t hFirst
    simp [hFirst]

theorem run_bind_eq_error {x : EStateM ε σ α} {f : α → EStateM ε σ β} {s u : σ} {e : ε} :
    (x >>= f) s = .error e u ↔ x s = .error e u ∨ ∃ a t, x s = .ok a t ∧ f a t = .error e u := by
  change EStateM.bind x f s = .error e u ↔ _
  rw [EStateM.bind]
  split
  · rename_i a t hFirst
    rw [hFirst]
    constructor
    · intro hSecond
      exact Or.inr ⟨a, t, rfl, hSecond⟩
    · rintro (hEq | ⟨a', t', hEq, hSecond⟩)
      · cases hEq
      · cases hEq
        exact hSecond
  · rename_i d t hFirst
    simp [hFirst]

theorem run_bind_of_ok {x : EStateM ε σ α} {f : α → EStateM ε σ β} {s t : σ} {a : α}
    (hRun : x s = .ok a t) : (x >>= f) s = f a t := by
  change EStateM.bind x f s = _
  rw [EStateM.bind, hRun]

theorem run_bind_of_error {x : EStateM ε σ α} {f : α → EStateM ε σ β} {s t : σ} {e : ε}
    (hRun : x s = .error e t) : (x >>= f) s = .error e t := by
  change EStateM.bind x f s = _
  rw [EStateM.bind, hRun]

instance decidableEqResult [DecidableEq ε] [DecidableEq σ] [DecidableEq α] :
    DecidableEq (EStateM.Result ε σ α)
  | .ok a s, .ok b t => decidable_of_iff (a = b ∧ s = t) (by simp)
  | .error d s, .error e t => decidable_of_iff (d = e ∧ s = t) (by simp)
  | .ok _ _, .error _ _ => isFalse (by simp)
  | .error _ _, .ok _ _ => isFalse (by simp)

/-- The state that a computation leaves behind. -/
def final (x : EStateM ε σ α) (s : σ) : σ :=
  match x s with
  | .ok _ t => t
  | .error _ t => t

theorem final_of_ok {x : EStateM ε σ α} {s t : σ} {a : α} (hRun : x s = .ok a t) :
    final x s = t := by
  rw [final, hRun]

theorem final_of_error {x : EStateM ε σ α} {s t : σ} {e : ε} (hRun : x s = .error e t) :
    final x s = t := by
  rw [final, hRun]

theorem final_bind_of_ok {x : EStateM ε σ α} {f : α → EStateM ε σ β} {s t : σ} {a : α}
    (hRun : x s = .ok a t) : final (x >>= f) s = final (f a) t := by
  rw [final, run_bind_of_ok hRun, final]

theorem final_bind_of_error {x : EStateM ε σ α} {f : α → EStateM ε σ β} {s t : σ} {e : ε}
    (hRun : x s = .error e t) : final (x >>= f) s = t :=
  final_of_error (run_bind_of_error hRun)

end MipsAsm.Outcome
