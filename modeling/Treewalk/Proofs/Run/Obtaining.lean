import Treewalk.Proofs.Run.Activation
import Treewalk.Proofs.Run.Alignment

/-!
# The values that a run obtains

The evaluators are given an *inspector*: a computation that is run just after every expression that has
a value, and which is told of the expression, of the machine before it, and of the value. An inspector
that does nothing leaves the evaluators as they are.

A run *obtains* a value of an expression if stopping there, and only there, changes its outcome for some
way of stopping. Sealed frames of the machine on which the value is obtained are kept to the end of the
run, just as those of the moments of a run are.

## Main definitions

* `inspected`: the evaluators with an inspector.
* `Obtains`: the values that a run obtains.

## Main results

* `Obtains.exists_evaluate`: a value that is obtained is the value of the expression.
* `inspected_tracks`: the evaluators with an inspector do the same as those without.
* `keptIn_of_obtains`: sealed frames of the machine on which a value is obtained are kept.
-/

namespace Treewalk

/-- Evaluates an expression in a given way and inspects the value. -/
def inspect (inspector : Expr → Machine → Value → Run Unit) (e : Expr) (x : Run Value) : Run Value := do
  let m ← get
  let v ← x
  inspector e m v
  return v

/-- The evaluators with a given fuel and an inspector. -/
def inspected (inspector : Expr → Machine → Value → Run Unit) (lookup : Lookup) :
    (fuel : Nat) → Evaluators
  | 0 => ⟨fun _ => throw .outOfFuel, fun _ => throw .outOfFuel, fun _ _ => throw .outOfFuel⟩
  | fuel + 1 =>
    { evaluate := fun e => inspect inspector e (evaluateStep lookup (inspected inspector lookup fuel) e)
      execute := executeStep (inspected inspector lookup fuel) fuel
      invoke := invokeStep (inspected inspector lookup fuel) }

/-- Executes the statements of a program with an inspector. -/
def interpretInspected (inspector : Expr → Machine → Value → Run Unit) (lookup : Lookup) (fuel : Nat)
    (body : List Stmt) : Run Unit := do
  let _ ← executeAll (inspected inspector lookup fuel).execute body

open Classical in
/-- The inspector that stops where one expression, evaluated on one machine, has one value on another
machine. -/
noncomputable def inspectAt (e : Expr) (m : Machine) (v : Value) (m' : Machine) (stop : Interrupt) :
    Expr → Machine → Value → Run Unit :=
  fun e₁ m₁ v₁ m₁' =>
    if e₁ = e ∧ m₁ = m ∧ v₁ = v ∧ m₁' = m' then .error stop m₁' else .ok () m₁'

/-- A run of a program evaluates an expression on the machine `m` and obtains a value on the machine
`m'`. -/
def Obtains (fuel : Nat) (body : List Stmt) (start : Machine) (e : Expr) (m : Machine) (v : Value)
    (m' : Machine) : Prop :=
  ∃ stop, interpretInspected (inspectAt e m v m' stop) .resolved fuel body start ≠
    interpret .resolved fuel body start

section Inspect

variable {inspector : Expr → Machine → Value → Run Unit} {e : Expr} {x : Run Value} {m m' : Machine}
  {v : Value}

theorem inspect_of_ok (hx : x m = .ok v m') (hpass : inspector e m v m' = .ok () m') :
    inspect inspector e x m = .ok v m' := by
  refine (Run.get_bind_apply _ m).trans ((Run.bind_of_ok hx).trans ?_)
  exact Run.bind_of_ok hpass

theorem inspect_of_error {stop : Interrupt} (hx : x m = .error stop m') :
    inspect inspector e x m = .error stop m' := by
  refine (Run.get_bind_apply _ m).trans ?_
  rw [Run.bind_apply, hx]

/-- If an inspector passes at the values that expressions have, it leaves the evaluators as they are. -/
theorem inspected_eq {lookup : Lookup}
    (hpass : ∀ e m v m', (∃ k, evaluate lookup k e m = .ok v m') → inspector e m v m' = .ok () m')
    (fuel : Nat) : inspected inspector lookup fuel = evaluators lookup fuel := by
  induction fuel with
  | zero => rfl
  | succ fuel ih =>
    have hevaluate : (fun e => inspect inspector e
        (evaluateStep lookup (evaluators lookup fuel) e)) = evaluate lookup (fuel + 1) := by
      refine funext fun e => funext fun m => ?_
      rw [evaluate_succ]
      cases hstep : evaluateStep lookup (evaluators lookup fuel) e m with
      | ok v m' => exact inspect_of_ok hstep (hpass e m v m' ⟨fuel + 1, hstep⟩)
      | error stop m' => exact inspect_of_error hstep
    rw [inspected, ih, hevaluate]
    rfl

end Inspect

section Obtains

variable {fuel : Nat} {body : List Stmt} {start : Machine} {e : Expr} {m m' : Machine} {v : Value}

/-- A run that can be stopped where an expression has a value obtains it. -/
theorem Obtains.of_stops (h : ∀ stop, Run.Stops
      (interpretInspected (inspectAt e m v m' stop) .resolved fuel body) start stop) :
    Obtains fuel body start e m v m' :=
  Run.Stops.exists_ne h _

theorem stops_inspect {x : Run Value} {stop : Interrupt} (hx : x m = .ok v m') :
    Run.Stops (inspect (inspectAt e m v m' stop) e x) m stop := by
  refine Run.Stops.bind_ok rfl (Run.Stops.bind_ok hx ?_)
  exact Run.Stops.bind ⟨m', if_pos ⟨rfl, rfl, rfl, rfl⟩⟩ _

theorem inspectAt_of_ne {stop : Interrupt} {e₁ : Expr} {m₁ m₁' : Machine} {v₁ : Value}
    (h : ¬ (e₁ = e ∧ m₁ = m ∧ v₁ = v ∧ m₁' = m')) :
    inspectAt e m v m' stop e₁ m₁ v₁ m₁' = .ok () m₁' :=
  if_neg h

/-- A value that a run obtains is the value of the expression. -/
theorem Obtains.exists_evaluate (h : Obtains fuel body start e m v m') :
    ∃ k, evaluate .resolved k e m = .ok v m' := by
  by_contra hnot
  obtain ⟨stop, hstop⟩ := h
  refine hstop ?_
  have hpass (e₁ : Expr) (m₁ : Machine) (v₁ : Value) (m₁' : Machine)
      (hv : ∃ k, evaluate .resolved k e₁ m₁ = .ok v₁ m₁') :
      inspectAt e m v m' stop e₁ m₁ v₁ m₁' = .ok () m₁' := by
    refine inspectAt_of_ne ?_
    rintro ⟨rfl, rfl, rfl, rfl⟩
    exact hnot hv
  rw [interpretInspected, inspected_eq hpass]
  rfl

end Obtains

/-! ### Sealed frames -/

section Tracks

variable {W : World} {ds : Distances} {last : Frames} {plan : Plan} {start : Machine}
  {inspector : Expr → Machine → Value → Run Unit}

/-- If an inspector passes where the frames are kept in the last ones, the evaluators do the same with
it as without. -/
theorem inspected_tracks (hpass : ∀ e m v m', m'.frames.KeptIn last → inspector e m v m' = .ok () m')
    (hguides : Guides W.seen) (hcomes : ∀ node m, W.comes node m) (fuel : Nat) :
    EvaluatorsTrack W ds last (inspected inspector .resolved fuel) (evaluators .resolved fuel) := by
  have hinspect {e : Expr} {x' x : Run Value} {grows : Nat → Prop} {plan : Plan} {m : Machine}
      {Q : Value → Plan → Machine → Prop} (h : Tracks W ds last grows x' x plan m Q) :
      Tracks W ds last grows (inspect inspector e x') x plan m Q := by
    refine ⟨fun hlast => ?_, h.leaves⟩
    have hsame := h.same hlast
    cases hx : x m with
    | ok v m' =>
      rw [hx] at hlast hsame
      exact inspect_of_ok hsame (hpass e m v m' hlast)
    | error stop m' =>
      rw [hx] at hsame
      exact inspect_of_error hsame
  induction fuel with
  | zero =>
    exact ⟨fun ho _ _ => .throw ho _, fun ho _ _ => .throw ho _, fun ho _ _ _ => .throw ho _,
      fun ho _ _ => .throw ho _⟩
  | succ fuel ih =>
    refine ⟨fun ho hseen hstands => ?_, fun ho hseen hstands => ?_, ih.invokeStep hguides,
      fun {id name _ _ _ _} ho _ _ => ?_⟩
    · exact hinspect (ih.evaluateStep hguides ho hseen hstands)
    · exact ih.executeStep hguides fuel (hcomes _ _) ho hseen hstands
    · exact hinspect (.readVariable ho .resolved id name)

/-- Sealed frames of the machine on which a run obtains a value are kept to the end of the run. -/
theorem keptIn_of_obtains (hguides : Guides W.seen) {body : List Stmt}
    (hbody : ∀ v ∈ Site.outermost.along body, W.seen v) (hcomes : ∀ node m, W.comes node m)
    (ho : Ordered W ds plan start) (hcurrent : start.current = globalFrame) {fuel : Nat} {e : Expr}
    {m m' : Machine} {v : Value} (h : Obtains fuel body start e m v m') :
    m'.frames.KeptIn (Run.framesAfter (interpret .resolved fuel body start)) := by
  by_contra hnot
  obtain ⟨stop, hstop⟩ := h
  have hpass (e₁ : Expr) (m₁ : Machine) (v₁ : Value) (m₁' : Machine)
      (hkept : m₁'.frames.KeptIn (Run.framesAfter (interpret .resolved fuel body start))) :
      inspectAt e m v m' stop e₁ m₁ v₁ m₁' = .ok () m₁' := by
    refine inspectAt_of_ne ?_
    rintro ⟨-, -, -, rfl⟩
    exact hnot hkept
  have htracks : Tracks W ds (Run.framesAfter (interpret .resolved fuel body start))
      (· = start.current) (interpretInspected (inspectAt e m v m' stop) .resolved fuel body)
      (interpret .resolved fuel body) plan start fun _ _ _ => True :=
    (inspected_tracks hpass hguides hcomes fuel).program hbody ho hcurrent
  exact hstop (htracks.same (.refl _))

end Tracks

end Treewalk
