import MipsAsm.Proofs.Outcome

/-! # Two computations side by side

Two computations agree if both succeed with values that correspond, or both fail with errors that
correspond. Computations over a state also have to leave corresponding states behind, in either
case. Agreement of a chain is agreement of its links.
-/

namespace MipsAsm.Outcome

variable {ε ε' σ σ' α α' β β' : Type}

inductive Agree (E : ε → ε' → Prop) (V : α → α' → Prop) : Except ε α → Except ε' α' → Prop where
  | ok {a : α} {b : α'} (hValue : V a b) : Agree E V (.ok a) (.ok b)
  | error {e : ε} {f : ε'} (hError : E e f) : Agree E V (.error e) (.error f)

namespace Agree

variable {E : ε → ε' → Prop} {V : α → α' → Prop} {W : β → β' → Prop}
  {x : Except ε α} {y : Except ε' α'}

theorem bind {f : α → Except ε β} {g : α' → Except ε' β'} (hFirst : Agree E V x y)
    (hRest : ∀ a b, V a b → Agree E W (f a) (g b)) : Agree E W (x >>= f) (y >>= g) := by
  cases hFirst with
  | ok hValue => exact hRest _ _ hValue
  | error hError => exact .error hError

theorem map {f : α → β} {g : α' → β'} (hAgree : Agree E V x y)
    (hValue : ∀ a b, V a b → W (f a) (g b)) : Agree E W (x.map f) (y.map g) := by
  cases hAgree with
  | ok h => exact .ok (hValue _ _ h)
  | error hError => exact .error hError

theorem mapError {D : β → β' → Prop} {U : α → α' → Prop} {f : ε → β} {g : ε' → β'}
    (hAgree : Agree E V x y) (hError : ∀ d e, E d e → D (f d) (g e))
    (hValue : ∀ a b, V a b → U a b) : Agree D U (x.mapError f) (y.mapError g) := by
  cases hAgree with
  | ok h => exact .ok (hValue _ _ h)
  | error h => exact .error (hError _ _ h)

theorem exists_of_ok {a : α} (hAgree : Agree E V x y) (hOk : x = .ok a) :
    ∃ b, y = .ok b ∧ V a b := by
  cases hAgree with
  | ok hValue =>
    cases hOk
    exact ⟨_, rfl, hValue⟩
  | error _ => cases hOk

theorem exists_of_error {e : ε} (hAgree : Agree E V x y) (hFail : x = .error e) :
    ∃ f, y = .error f ∧ E e f := by
  cases hAgree with
  | ok _ => cases hFail
  | error hError =>
    cases hFail
    exact ⟨_, rfl, hError⟩

end Agree

/-! ## Computations over a state -/

inductive AgreeAt (E : ε → ε' → Prop) (S : σ → σ' → Prop) (V : α → α' → Prop) :
    EStateM.Result ε σ α → EStateM.Result ε' σ' α' → Prop where
  | ok {a : α} {b : α'} {s : σ} {t : σ'} (hValue : V a b) (hState : S s t) :
      AgreeAt E S V (.ok a s) (.ok b t)
  | error {e : ε} {f : ε'} {s : σ} {t : σ'} (hError : E e f) (hState : S s t) :
      AgreeAt E S V (.error e s) (.error f t)

/-- From corresponding states the computations agree. -/
def Respects (E : ε → ε' → Prop) (S : σ → σ' → Prop) (V : α → α' → Prop)
    (x : EStateM ε σ α) (y : EStateM ε' σ' α') : Prop :=
  ∀ s t, S s t → AgreeAt E S V (x s) (y t)

namespace AgreeAt

variable {E : ε → ε' → Prop} {S : σ → σ' → Prop} {V : α → α' → Prop}

theorem exists_of_ok {x : EStateM.Result ε σ α} {y : EStateM.Result ε' σ' α'} {a : α} {s : σ}
    (hAgree : AgreeAt E S V x y) (hOk : x = .ok a s) : ∃ b t, y = .ok b t ∧ V a b ∧ S s t := by
  cases hAgree with
  | ok hValue hState =>
    cases hOk
    exact ⟨_, _, rfl, hValue, hState⟩
  | error _ _ => cases hOk

theorem exists_of_error {x : EStateM.Result ε σ α} {y : EStateM.Result ε' σ' α'} {e : ε} {s : σ}
    (hAgree : AgreeAt E S V x y) (hFail : x = .error e s) : ∃ f t, y = .error f t ∧ E e f ∧ S s t := by
  cases hAgree with
  | ok _ _ => cases hFail
  | error hError hState =>
    cases hFail
    exact ⟨_, _, rfl, hError, hState⟩

end AgreeAt

namespace Respects

variable {E : ε → ε' → Prop} {S : σ → σ' → Prop} {V : α → α' → Prop} {W : β → β' → Prop}

theorem pure {a : α} {b : α'} (hValue : V a b) :
    Respects E S V (Pure.pure a : EStateM ε σ α) (Pure.pure b : EStateM ε' σ' α') :=
  fun _ _ hState => .ok hValue hState

theorem throw {e : ε} {f : ε'} (hError : E e f) :
    Respects E S V (throw e : EStateM ε σ α) (throw f : EStateM ε' σ' α') :=
  fun _ _ hState => .error hError hState

theorem modify {f : σ → σ} {g : σ' → σ'} (hStep : ∀ s t, S s t → S (f s) (g t)) :
    Respects E S Eq (modify f : EStateM ε σ PUnit) (modify g : EStateM ε' σ' PUnit) :=
  fun _ _ hState => .ok rfl (hStep _ _ hState)

theorem bind {x : EStateM ε σ α} {y : EStateM ε' σ' α'} {f : α → EStateM ε σ β}
    {g : α' → EStateM ε' σ' β'} (hFirst : Respects E S V x y)
    (hRest : ∀ a b, V a b → Respects E S W (f a) (g b)) :
    Respects E S W (x >>= f) (y >>= g) := by
  intro s t hState
  change AgreeAt E S W (EStateM.bind x f s) (EStateM.bind y g t)
  have hStart := hFirst s t hState
  rw [EStateM.bind, EStateM.bind]
  cases hX : x s with
  | ok a s' =>
    rw [hX] at hStart
    obtain ⟨b, t', hY, hValue, hNext⟩ := hStart.exists_of_ok rfl
    rw [hY]
    exact hRest a b hValue s' t' hNext
  | error e s' =>
    rw [hX] at hStart
    obtain ⟨f, t', hY, hError, hNext⟩ := hStart.exists_of_error rfl
    rw [hY]
    exact .error hError hNext

end Respects

end MipsAsm.Outcome
