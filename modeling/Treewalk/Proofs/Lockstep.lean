import Mathlib

/-!
# Computations in lockstep

Two computations with a state and failures run in *lockstep* if, from related states, they end in
related states and either both answer, with related answers, or both fail, with related failures.
For some failures of the first computation nothing is asked of the second one.

There is one rule for each way in which computations are put together, so that lockstep is found by
following the two definitions side by side.

## Main definitions

* `Tie`: which states and failures are related, and which failures ask for nothing.
* `Lockstep`: two computations in lockstep.
* `Maps`: answers that correspond to each other by a function.

## Main results

* `Lockstep.bind`: one computation after another.
-/

namespace Treewalk

/-- How the states and failures of two computations are related. -/
structure Tie (ε σ : Type) where
  /-- States that correspond to each other. -/
  state : σ → σ → Prop
  /-- Failures that correspond to each other. -/
  error : ε → ε → Prop
  /-- Failures of the first computation after which nothing is asked of the second one. -/
  free : ε → Prop

variable {ε σ α β γ δ : Type} {T : Tie ε σ}

/-- Outcomes that correspond to each other, where answers do so by a relation. -/
inductive Tie.Outcome (T : Tie ε σ) (R : α → β → Prop) :
    EStateM.Result ε σ α → EStateM.Result ε σ β → Prop
  /-- Both computations answer. -/
  | ok {a : α} {b : β} {s t : σ} (ha : R a b) (hs : T.state s t) : T.Outcome R (.ok a s) (.ok b t)
  /-- Both computations fail. -/
  | error {e e' : ε} {s t : σ} (he : T.error e e') (hs : T.state s t) :
    T.Outcome R (.error e s) (.error e' t)
  /-- The first computation fails, and the second one does not matter. -/
  | free {e : ε} {s : σ} {o : EStateM.Result ε σ β} (he : T.free e) : T.Outcome R (.error e s) o

/-- Two computations in lockstep, with answers that correspond by a relation. -/
def Lockstep (T : Tie ε σ) (R : α → β → Prop) (x : EStateM ε σ α) (y : EStateM ε σ β) : Prop :=
  ∀ s t, T.state s t → T.Outcome R (x s) (y t)

/-- Answers of which the second one is a function of the first one. -/
abbrev Maps (f : α → β) (a : α) (b : β) : Prop :=
  b = f a

namespace Lockstep

variable {R : α → β → Prop} {x : EStateM ε σ α} {y : EStateM ε σ β}

/-- Answers without a step. -/
theorem pure {a : α} {b : β} (h : R a b) :
    Lockstep T R (Pure.pure a : EStateM ε σ α) (Pure.pure b : EStateM ε σ β) :=
  fun _ _ hst => .ok h hst

/-- Failures. -/
theorem throw {e e' : ε} (h : T.error e e') :
    Lockstep T R (MonadExcept.throw e : EStateM ε σ α) (MonadExcept.throw e' : EStateM ε σ β) :=
  fun _ _ hst => .error h hst

/-- One computation after another. -/
theorem bind {S : γ → δ → Prop} {f : α → EStateM ε σ γ} {g : β → EStateM ε σ δ}
    (h : Lockstep T R x y) (h' : ∀ a b, R a b → Lockstep T S (f a) (g b)) :
    Lockstep T S (x >>= f) (y >>= g) := by
  intro s t hst
  have hout := h s t hst
  change T.Outcome S (EStateM.bind x f s) (EStateM.bind y g t)
  unfold EStateM.bind
  generalize x s = o, y t = o' at hout
  cases hout with
  | ok ha hs => exact h' _ _ ha _ _ hs
  | error he hs => exact .error he hs
  | free he => exact .free he

/-- One computation after another, where the answers in between correspond by a function. -/
theorem bind_map {S : γ → δ → Prop} {e : α → β} {f : α → EStateM ε σ γ} {g : β → EStateM ε σ δ}
    (h : Lockstep T (Maps e) x y) (h' : ∀ a, Lockstep T S (f a) (g (e a))) :
    Lockstep T S (x >>= f) (y >>= g) :=
  h.bind fun a _ ha => ha ▸ h' a

/-- The state is looked at before the rest of a computation. -/
theorem get_bind {f : σ → EStateM ε σ α} {g : σ → EStateM ε σ β}
    (h : ∀ s t, T.state s t → Lockstep T R (f s) (g t)) :
    Lockstep T R (MonadState.get >>= f) (MonadState.get >>= g) :=
  fun s t hst => h s t hst s t hst

/-- The state is changed. -/
theorem modified {f g : σ → σ} {R : PUnit → PUnit → Prop} (hR : R ⟨⟩ ⟨⟩)
    (h : ∀ s t, T.state s t → T.state (f s) (g t)) :
    Lockstep T R (modify f : EStateM ε σ PUnit) (modify g) :=
  fun s t hst => .ok hR (h s t hst)

/-- The state is replaced. -/
theorem put {s t : σ} {R : PUnit → PUnit → Prop} (hR : R ⟨⟩ ⟨⟩) (h : T.state s t) :
    Lockstep T R (set s : EStateM ε σ PUnit) (set t) :=
  fun _ _ _ => .ok hR h

/-- Two computations each, chosen by conditions that agree. -/
theorem ite {p q : Prop} [Decidable p] [Decidable q] {x' : EStateM ε σ α} {y' : EStateM ε σ β}
    (hpq : p ↔ q) (h : Lockstep T R x y) (h' : Lockstep T R x' y') :
    Lockstep T R (if p then x else x') (if q then y else y') := by
  by_cases hp : p
  · rwa [if_pos hp, if_pos (hpq.mp hp)]
  · rwa [if_neg hp, if_neg fun hq => hp (hpq.mpr hq)]

end Lockstep

end Treewalk
