import Treewalk.Proofs.Relocation.Operations
import Treewalk.Proofs.Run.Rules
import Treewalk.Proofs.Run.Sequence

/-!
# The current frame is restored

Only blocks and calls go to another frame, and they come back from it, whether what they execute there
ends normally, returns or fails. So whatever is evaluated, executed or called leaves the frame current
that was current before.

## Main definitions

* `Run.KeepsCurrent`: a computation after which the same frame is current, however it ends.
* `Run.Rules.keepsCurrent`: this property as one that passes from parts to the whole.

## Main results

* `evaluators_keepCurrent`: expressions, statements and calls.
-/

namespace Treewalk

/-- A computation after which, however it ends, the frame is current that was current before. -/
structure Run.KeepsCurrent {α : Type} (x : Run α) : Prop where
  ok : ∀ m a m', x m = .ok a m' → m'.current = m.current
  error : ∀ m e m', x m = .error e m' → m'.current = m.current

namespace Run.KeepsCurrent

variable {α β : Type} {x : Run α} {f : α → Run β}

/-- A computation that always answers. -/
theorem of_ok (h : ∀ m, ∃ a m', x m = .ok a m' ∧ m'.current = m.current) : KeepsCurrent x := by
  constructor
  · intro m a m' hx
    obtain ⟨b, m'', hx', hcurrent⟩ := h m
    cases hx.symm.trans hx'
    exact hcurrent
  · intro m e m' hx
    obtain ⟨b, m'', hx', -⟩ := h m
    cases hx.symm.trans hx'

theorem pure (a : α) : KeepsCurrent (Pure.pure a) :=
  .of_ok fun m => ⟨a, m, rfl, rfl⟩

theorem throw (e : Interrupt) : KeepsCurrent (MonadExcept.throw e : Run α) := by
  constructor
  · intro m a m' hx
    cases hx
  · intro m e m' hx
    cases hx
    rfl

/-- One computation after another. -/
theorem bind (hx : KeepsCurrent x) (hf : ∀ a, KeepsCurrent (f a)) : KeepsCurrent (x >>= f) := by
  constructor
  · intro m b m' h
    rw [bind_apply] at h
    cases hm : x m with
    | ok a m₁ =>
      rw [hm] at h
      exact ((hf a).ok m₁ b m' h).trans (hx.ok m a m₁ hm)
    | error e m₁ =>
      rw [hm] at h
      cases h
  · intro m e m' h
    rw [bind_apply] at h
    cases hm : x m with
    | ok a m₁ =>
      rw [hm] at h
      exact ((hf a).error m₁ e m' h).trans (hx.ok m a m₁ hm)
    | error e₁ m₁ =>
      rw [hm] at h
      cases h
      exact hx.error m e m' hm

/-- A computation in another frame, which need not keep that frame: the frame of before is current
again after it. -/
theorem within (i : Nat) (x : Run α) : KeepsCurrent (Run.within i x) := by
  constructor
  · intro m a m' h
    unfold Run.within at h
    split at h
    · cases h
      rfl
    · cases h
  · intro m e m' h
    unfold Run.within at h
    split at h
    · cases h
    · cases h
      rfl

end Run.KeepsCurrent

/-! ### Operations -/

namespace Run

open KeepsCurrent

theorem keepsCurrent_readLine (line : Nat) : KeepsCurrent (readLine line) := by
  have hvalue (taken : Line.Taken) : KeepsCurrent (lineValue line taken) := by
    cases taken with
    | malformed => exact .throw _
    | ended | text _ => exact .pure _
  rw [readLine_eq]
  exact ⟨fun m a m' h => (hvalue _).ok { m with input := (Line.read m.input).2 } a m' h,
    fun m e m' h => (hvalue _).error { m with input := (Line.read m.input).2 } e m' h⟩

theorem keepsCurrent_writeValue (v : Value) (ending : String) :
    KeepsCurrent (writeValue v ending) :=
  .of_ok fun _ => ⟨_, _, rfl, rfl⟩

theorem IsOperation.keepsCurrent {α : Type} {x : Run α} (h : IsOperation x) : KeepsCurrent x := by
  cases h with
  | throw e => exact .throw e
  | native n arguments line =>
    cases n with
    | clock => exact .of_ok fun _ => ⟨_, _, rfl, rfl⟩
    | print | printLine => exact keepsCurrent_writeValue _ _
    | readLine => exact keepsCurrent_readLine line
  | _ => exact .of_ok fun _ => ⟨_, _, rfl, rfl⟩

/-- Single computations after which the same frame is current. -/
def Rules.keepsCurrent : Rules Unit where
  Holds x := KeepsCurrent (x ())
  operation h := h.keepsCurrent
  bind := .bind
  within frame _ := .within frame _

end Run

/-! ### Programs -/

/-- Expressions, statements and calls leave the frame current that was current before. -/
theorem evaluators_keepCurrent (lookup : Lookup) (fuel : Nat) :
    Run.Rules.keepsCurrent.OfEvaluators fun _ => evaluators lookup fuel :=
  Run.Rules.keepsCurrent.evaluators lookup fuel

/-- Statements that end normally leave the frame current that was current before. -/
theorem Executes.current_eq {lookup : Lookup} {fuel : Nat} {ss : List Stmt} {m m' : Machine}
    (h : Executes (execute lookup fuel) ss m m') : m'.current = m.current := by
  induction h with
  | nil m => rfl
  | cons hs _ ih => exact ih.trans (((evaluators_keepCurrent lookup fuel).execute _).ok _ _ _ hs)

end Treewalk
