import Treewalk.Evaluation
import Treewalk.Proofs.Scope.Walk

/-!
# Moments of a run

The evaluators are given a *probe*: a computation that is run just before every expression is
evaluated and just before every statement is executed. A probe that does nothing leaves them as they
are.

A run *comes to* a node on a machine if stopping there, and only there, changes its outcome for some
way of stopping.

## Main definitions

* `probed`: the evaluators with a probe.
* `ComesTo`: the moments of a run.

## Main results

* `probed_pure`: a probe that does nothing.
* `ComesTo.of_stops`: a run that can be stopped at a moment comes to it.
* `ComesTo.initializer`: a run of a block comes to the initializer at the beginning of it.
-/

namespace Treewalk

/-- The evaluators with a given fuel and a probe that is run before every expression and every
statement. -/
def probed (probe : Node → Run Unit) (lookup : Lookup) : (fuel : Nat) → Evaluators
  | 0 => ⟨fun _ => throw .outOfFuel, fun _ => throw .outOfFuel, fun _ _ => throw .outOfFuel⟩
  | fuel + 1 =>
    { evaluate := fun e => do
        probe (.expr e)
        evaluateStep lookup (probed probe lookup fuel) e
      execute := fun s => do
        probe (.stmt s)
        executeStep (probed probe lookup fuel) fuel s
      invoke := invokeStep (probed probe lookup fuel) }

/-- Executes the statements of a program with a probe. -/
def interpretProbed (probe : Node → Run Unit) (lookup : Lookup) (fuel : Nat) (body : List Stmt) :
    Run Unit := do
  let _ ← executeAll (probed probe lookup fuel).execute body

open Classical in
/-- The probe that stops at one node on one machine. -/
noncomputable def stopAt (node : Node) (m : Machine) (stop : Interrupt) : Node → Run Unit :=
  fun node' m' => if node' = node ∧ m' = m then .error stop m' else .ok () m'

/-- A run of a program from a machine comes to a node on a machine. -/
def ComesTo (fuel : Nat) (body : List Stmt) (start : Machine) (node : Node) (m : Machine) : Prop :=
  ∃ stop, interpretProbed (stopAt node m stop) .resolved fuel body start ≠
    interpret .resolved fuel body start

/-- A probe that does nothing leaves the evaluators as they are. -/
theorem probed_pure (lookup : Lookup) (fuel : Nat) :
    probed (fun _ => pure ()) lookup fuel = evaluators lookup fuel := by
  induction fuel with
  | zero => rfl
  | succ fuel ih =>
    rw [probed, ih]
    rfl

/-! ### Stopping -/

/-- A computation on a machine is stopped. -/
def Run.Stops {α : Type} (x : Run α) (m : Machine) (stop : Interrupt) : Prop :=
  ∃ m', x m = .error stop m'

namespace Run.Stops

variable {α β : Type} {x : Run α} {m m' : Machine} {stop : Interrupt}

theorem bind (h : Stops x m stop) (f : α → Run β) : Stops (x >>= f) m stop := by
  obtain ⟨m', hx⟩ := h
  refine ⟨m', ?_⟩
  change EStateM.bind x f m = _
  rw [EStateM.bind, hx]

theorem bind_ok {f : α → Run β} {a : α} (hx : x m = .ok a m') (h : Stops (f a) m' stop) :
    Stops (x >>= f) m stop := by
  obtain ⟨m'', hf⟩ := h
  refine ⟨m'', ?_⟩
  change EStateM.bind x f m = _
  rw [EStateM.bind, hx]
  exact hf

theorem within {i : Nat} (h : Stops x { m with current := i } stop) :
    Stops (Run.within i x) m stop := by
  obtain ⟨m', hx⟩ := h
  exact ⟨{ m' with current := m.current }, by simp only [Run.within, hx]⟩

/-- A computation is stopped in one way at most. -/
theorem not_forall (x : Run α) (m : Machine) : ¬ ∀ stop, Stops x m stop := by
  intro h
  obtain ⟨m₁, h₁⟩ := h .outOfFuel
  obtain ⟨m₂, h₂⟩ := h (.raised ⟨.notCallable, 0⟩)
  rw [h₁] at h₂
  cases h₂

/-- So of computations that are stopped in all ways, not all are the same. -/
theorem exists_ne {x : Interrupt → Run α} (h : ∀ stop, Stops (x stop) m stop) (y : Run α) :
    ∃ stop, x stop m ≠ y m := by
  by_contra hsame
  refine not_forall y m fun stop => ?_
  obtain ⟨m', hstop⟩ := h stop
  exact ⟨m', (not_not.mp fun hne => hsame ⟨stop, fun heq => hne heq.symm⟩).trans hstop⟩

end Run.Stops

section Stopping

variable {node node' : Node} {m m' start : Machine} {stop : Interrupt} {fuel : Nat}
  {body : List Stmt}

theorem stops_stopAt : Run.Stops (stopAt node m stop node) m stop :=
  ⟨m, if_pos ⟨rfl, rfl⟩⟩

theorem stopAt_of_ne (h : node' ≠ node ∨ m' ≠ m) : stopAt node m stop node' m' = .ok () m' :=
  if_neg fun ⟨h₁, h₂⟩ => h.elim (· h₁) (· h₂)

/-- A run that can be stopped at a moment comes to it. -/
theorem ComesTo.of_stops (h : ∀ stop,
    Run.Stops (interpretProbed (stopAt node m stop) .resolved fuel body) start stop) :
    ComesTo fuel body start node m :=
  Run.Stops.exists_ne h _

/-- A run of a block comes to the initializer at the beginning of it, in a new frame. -/
theorem ComesTo.initializer (start : Machine) (fuel : Nat) (name : Name) (e : Expr)
    (ss others : List Stmt) :
    ComesTo (fuel + 3) (.block (.variable name (some e) :: ss) :: others) start (.expr e)
      { start with
        frames := start.frames.add (some start.current)
        current := start.frames.size } := by
  refine .of_stops fun stop => ?_
  have hpass (s : Stmt) (m m' : Machine) : stopAt (.expr e) m stop (.stmt s) m' = .ok () m' :=
    stopAt_of_ne (.inl nofun)
  refine Run.Stops.bind (Run.Stops.bind (Run.Stops.bind_ok (hpass _ _ _) ?_) _) _
  refine Run.Stops.bind_ok rfl (Run.Stops.bind_ok rfl (Run.Stops.within ?_))
  refine Run.Stops.bind (Run.Stops.bind_ok (hpass _ _ _) ?_) _
  exact Run.Stops.bind (Run.Stops.bind stops_stopAt _) _

end Stopping

end Treewalk
