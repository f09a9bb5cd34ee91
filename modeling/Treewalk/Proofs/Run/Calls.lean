import Treewalk.Proofs.Run.Activation
import Treewalk.Proofs.Run.Stocking
import Treewalk.Proofs.Scope.Lawfulness

/-!
# The calls of a run

The evaluators are given a *tap*: a computation that is run just before the body of a function is
entered. A run *calls* a function with arguments on a machine if stopping there, and only there,
changes its outcome for some way of stopping.

In a program that breaks no rule a `return` stands in a function, and it gives nil if that is an
initializer. So the statements of a program end normally, and the bodies of initializers end normally
or with nil.

## Main definitions

* `tapped`: the evaluators with a tap.
* `Calls`: the calls of a run.

## Main results

* `Calls.stocked`: what is called is declared in one of the programs.
* `Returns.innermostRoutine`: where a `return` stands that is reached.
-/

namespace Treewalk

/-! ### Calls -/

/-- The evaluators with a given fuel and a tap that is run before every call of a function. -/
def tapped (tap : Closure → List Value → Run Unit) (lookup : Lookup) : (fuel : Nat) → Evaluators
  | 0 => ⟨fun _ => throw .outOfFuel, fun _ => throw .outOfFuel, fun _ _ => throw .outOfFuel⟩
  | fuel + 1 =>
    { evaluate := evaluateStep lookup (tapped tap lookup fuel)
      execute := executeStep (tapped tap lookup fuel) fuel
      invoke := fun f arguments => do
        tap f arguments
        invokeStep (tapped tap lookup fuel) f arguments }

/-- Executes the statements of a program with a tap. -/
def interpretTapped (tap : Closure → List Value → Run Unit) (lookup : Lookup) (fuel : Nat)
    (body : List Stmt) : Run Unit := do
  let _ ← executeAll (tapped tap lookup fuel).execute body

open Classical in
/-- The tap that stops at one call on one machine. -/
noncomputable def tapAt (f : Closure) (arguments : List Value) (m : Machine) (stop : Interrupt) :
    Closure → List Value → Run Unit :=
  fun f' arguments' m' =>
    if f' = f ∧ arguments' = arguments ∧ m' = m then .error stop m' else .ok () m'

/-- A run of a program from a machine calls a function with arguments on a machine. -/
def Calls (fuel : Nat) (body : List Stmt) (start : Machine) (f : Closure) (arguments : List Value)
    (m : Machine) : Prop :=
  ∃ stop, interpretTapped (tapAt f arguments m stop) .resolved fuel body start ≠
    interpret .resolved fuel body start

section Calls

variable {bodies : List (List Stmt)} {body : List Stmt} {fuel : Nat} {start m : Machine}
  {f : Closure} {arguments : List Value}

theorem stops_tapAt {stop : Interrupt} : Run.Stops (tapAt f arguments m stop f arguments) m stop :=
  ⟨m, if_pos ⟨rfl, rfl, rfl⟩⟩

/-- A run that can be stopped at a call comes to it. -/
theorem Calls.of_stops (h : ∀ stop,
    Run.Stops (interpretTapped (tapAt f arguments m stop) .resolved fuel body) start stop) :
    Calls fuel body start f arguments m :=
  Run.Stops.exists_ne h _

/-- With a tap that passes at what is declared the evaluators do the same. -/
theorem tapped_abide {tap : Closure → List Value → Run Unit}
    (htap : ∀ f arguments m, f.Stocked (stockOf bodies) → tap f arguments m = .ok () m)
    (fuel : Nat) :
    EvaluatorsAbide bodies (tapped tap .resolved fuel) (evaluators .resolved fuel) := by
  induction fuel with
  | zero => exact ⟨fun hm => .throw hm _, fun _ _ hm => .throw hm _, fun _ _ hm => .throw hm _⟩
  | succ fuel ih =>
    refine ⟨ih.evaluateStep .resolved _, ih.executeStep fuel, fun {f arguments m} hf hargs hm => ?_⟩
    have hinvoke := ih.invokeStep hf hargs hm
    refine ⟨?_, hinvoke.supplied⟩
    exact (Run.bind_of_ok (htap f arguments m hf)).trans hinvoke.same

/-- A run calls only what is declared in the programs. -/
theorem Calls.stocked (h : Calls fuel body start f arguments m) (hbody : body ∈ bodies)
    (hstart : start.Stocks (stockOf bodies)) : f.Stocked (stockOf bodies) := by
  by_contra hnot
  obtain ⟨stop, hstop⟩ := h
  refine hstop ((tapped_abide (fun f' arguments' m' hf' => ?_) fuel).interpret hbody hstart).same
  exact if_neg fun ⟨heq, _⟩ => hnot (heq ▸ hf')

end Calls

/-! ### Where returns stand -/

/-- A `return` that is reached stands in a function, and it gives nil if that is an initializer. -/
theorem Returns.innermostRoutine {lookup : Lookup} {fuel : Nat} {s : Stmt} {m m' : Machine}
    {v : Value} (h : Returns lookup fuel s m v m') {body : List Stmt} (hlawful : Lawful body)
    {above : List Node} (hs : Occurs body above (.stmt s)) :
    ∃ decl isMethod, innermostRoutine? above = some (decl, isMethod) ∧
      (isMethod = true → decl.name.text = initializerName → v = .nil) := by
  induction h generalizing above with
  | value h =>
    obtain ⟨decl, isMethod, heq, hnone⟩ := hlawful.returns hs
    exact ⟨decl, isMethod, heq, fun hmethod hname => nomatch hnone hmethod hname⟩
  | bare =>
    obtain ⟨decl, isMethod, heq, -⟩ := hlawful.returns hs
    exact ⟨decl, isMethod, heq, fun _ _ => rfl⟩
  | @block _ before after s _ _ _ _ _ _ ih =>
    have hmem : s ∈ before ++ s :: after := List.mem_append_right before List.mem_cons_self
    have hreturn := ih (hs.child (List.mem_map_of_mem hmem))
    exact hreturn
  | ifThen _ _ _ ih =>
    have hreturn := ih (hs.child (List.mem_cons_of_mem _ List.mem_cons_self))
    exact hreturn
  | ifTrue _ _ _ ih =>
    have hreturn := ih (hs.child (List.mem_cons_of_mem _ List.mem_cons_self))
    exact hreturn
  | ifFalse _ _ _ ih =>
    have hreturn := ih (hs.child (List.mem_cons_of_mem _ (List.mem_cons_of_mem _ List.mem_cons_self)))
    exact hreturn
  | «while» _ _ _ _ _ ih =>
    have hreturn := ih (hs.child (List.mem_cons_of_mem _ List.mem_cons_self))
    exact hreturn

end Treewalk
