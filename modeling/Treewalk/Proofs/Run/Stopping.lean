import Treewalk.Proofs.Run.Probe
import Treewalk.Proofs.Run.Rules

/-!
# The first moment of a run at which a probe stops it

The evaluators run a probe at one moment after the other. So a probe that stops at the moments of a set
either does nothing, or there is a first moment of the set to which the run comes; and then any probe
stops the run that stops at that moment and otherwise only at moments of the set.

This passes from the parts of a computation to the whole, and so it holds of the evaluators.

## Main definitions

* `stopWhere`: the probe that stops at the moments of a set.
* `Run.Stoppable`: computations with a probe of which the first moment of a set stands out.

## Main results

* `probed_stoppable`: the evaluators.
* `ComesTo.stops`: a run comes to a moment just if every probe that stops there stops the run.
* `interpretProbed_stopWhere`: a probe does nothing if the run comes to no moment at which it stops.
-/

namespace Treewalk

variable {α β : Type}

open Classical in
/-- The probe that stops at the moments of a set. -/
noncomputable def stopWhere (S : Node → Machine → Prop) (stop : Interrupt) : Node → Run Unit :=
  fun node m => if S node m then .error stop m else .ok () m

theorem stopAt_eq_stopWhere (node : Node) (m : Machine) (stop : Interrupt) :
    stopAt node m stop = stopWhere (fun node' m' => node' = node ∧ m' = m) stop := by
  funext node' m'
  by_cases h : node' = node ∧ m' = m
  · rw [stopAt, stopWhere, if_pos h, if_pos h]
  · rw [stopAt, stopWhere, if_neg h, if_neg h]

theorem stopWhere_pos {S : Node → Machine → Prop} {stop : Interrupt} {node : Node} {m : Machine}
    (h : S node m) : stopWhere S stop node m = .error stop m :=
  if_pos h

theorem stopWhere_neg {S : Node → Machine → Prop} {stop : Interrupt} {node : Node} {m : Machine}
    (h : ¬ S node m) : stopWhere S stop node m = .ok () m :=
  if_neg h

namespace Run

/-- In a computation with a probe either no moment of a set matters, or the first one stops the
computation. -/
def Stoppable (x : (Node → Run Unit) → Run α) : Prop :=
  ∀ (S : Node → Machine → Prop) (m : Machine),
    (∀ S' : Node → Machine → Prop, (∀ node m', S' node m' → S node m') →
      ∀ stop, x (stopWhere S' stop) m = x (fun _ => pure ()) m) ∨
    ∃ node m', S node m' ∧ ∀ S' : Node → Machine → Prop, S' node m' →
      (∀ node m', S' node m' → S node m') → ∀ stop, Stops (x (stopWhere S' stop)) m stop

namespace Stoppable

variable {x y : (Node → Run Unit) → Run α}

/-- A computation that does not use its probe. -/
theorem const (x : Run α) : Stoppable fun _ => x :=
  fun _ _ => .inl fun _ _ _ => rfl

theorem probe (node : Node) : Stoppable fun probe => probe node := by
  intro S m
  by_cases h : S node m
  · exact .inr ⟨node, m, h, fun S' hS' _ stop => ⟨m, stopWhere_pos hS'⟩⟩
  · exact .inl fun S' hS' stop => stopWhere_neg fun h' => h (hS' node m h')

theorem bind {k : (Node → Run Unit) → α → Run β} (hx : Stoppable x)
    (hk : ∀ a, Stoppable fun probe => k probe a) : Stoppable fun probe => x probe >>= k probe := by
  intro S m
  rcases hx S m with hpass | ⟨node, m', hS, hstops⟩
  · cases hm : x (fun _ => Pure.pure ()) m with
    | error e m₁ =>
      refine .inl fun S' hS' stop => ?_
      dsimp only
      rw [bind_apply, bind_apply, hpass S' hS' stop, hm]
    | ok a m₁ =>
      rcases hk a S m₁ with hpass' | ⟨node, m', hS, hstops⟩
      · refine .inl fun S' hS' stop => ?_
        dsimp only
        rw [bind_apply, bind_apply, hpass S' hS' stop, hm]
        exact hpass' S' hS' stop
      · refine .inr ⟨node, m', hS, fun S' hmem hS' stop => ?_⟩
        exact .bind_ok ((hpass S' hS' stop).trans hm) (hstops S' hmem hS' stop)
  · exact .inr ⟨node, m', hS, fun S' hmem hS' stop => (hstops S' hmem hS' stop).bind _⟩

theorem within (i : Nat) (hx : Stoppable x) : Stoppable fun probe => Run.within i (x probe) := by
  intro S m
  rcases hx S { m with current := i } with hpass | ⟨node, m', hS, hstops⟩
  · exact .inl fun S' hS' stop => by simp only [Run.within, hpass S' hS' stop]
  · exact .inr ⟨node, m', hS, fun S' hmem hS' stop => (hstops S' hmem hS' stop).within⟩

end Stoppable

end Run

/-! ### Evaluators with a probe -/

/-- Computations with a probe of which the first moment of a set stands out. -/
def Run.Rules.stoppable : Run.Rules (Node → Run Unit) where
  Holds := Run.Stoppable
  operation _ := .const _
  bind := .bind
  within := .within

/-- In the evaluators with a probe the first moment of a set stands out. -/
theorem probed_stoppable (lookup : Lookup) (fuel : Nat) :
    Run.Rules.stoppable.OfEvaluators fun probe => probed probe lookup fuel := by
  induction fuel with
  | zero => exact ⟨fun _ => .const _, fun _ => .const _, fun _ _ => .const _⟩
  | succ fuel ih =>
    have hprobe (node : Node) : Run.Rules.stoppable.Holds fun probe => probe node :=
      Run.Stoppable.probe node
    exact ⟨fun e => Run.Rules.bind _ (hprobe (.expr e)) fun _ => ih.evaluateStep lookup e,
      fun s => Run.Rules.bind _ (hprobe (.stmt s)) fun _ => ih.executeStep fuel s, ih.invokeStep⟩

theorem interpretProbed_stoppable (lookup : Lookup) (fuel : Nat) (body : List Stmt) :
    Run.Stoppable fun probe => interpretProbed probe lookup fuel body :=
  Run.Rules.stoppable.bind ((probed_stoppable lookup fuel).executeAll body) fun _ =>
    Run.Rules.stoppable.pure ()

/-! ### Moments -/

section Moments

variable {fuel : Nat} {body : List Stmt} {start m : Machine} {node : Node}
  {S : Node → Machine → Prop}

theorem interpretProbed_pure (lookup : Lookup) (fuel : Nat) (body : List Stmt) :
    interpretProbed (fun _ => pure ()) lookup fuel body = interpret lookup fuel body := by
  rw [interpretProbed, probed_pure]
  rfl

/-- A probe does nothing if the run comes to no moment at which it stops. -/
theorem interpretProbed_stopWhere (hS : ∀ node m, S node m → ¬ ComesTo fuel body start node m)
    (stop : Interrupt) : interpretProbed (stopWhere S stop) .resolved fuel body start =
      interpret .resolved fuel body start := by
  rcases interpretProbed_stoppable .resolved fuel body S start with hpass | ⟨node, m, hmem, hstops⟩
  · exact (hpass S (fun _ _ => id) stop).trans (congrFun (interpretProbed_pure ..) start)
  · refine absurd (ComesTo.of_stops fun stop => ?_) (hS node m hmem)
    rw [stopAt_eq_stopWhere]
    refine hstops _ ⟨rfl, rfl⟩ ?_ stop
    rintro _ _ ⟨rfl, rfl⟩
    exact hmem

/-- The probe that stops at the nodes of a kind. -/
def stopAtKind (kind : Node → Bool) (stop : Interrupt) : Node → Run Unit :=
  fun node m => if kind node then .error stop m else .ok () m

/-- A run on which stopping at the nodes of a kind has an effect comes to such a node. -/
theorem ComesTo.exists_of_kind {kind : Node → Bool} {stop : Interrupt}
    (h : interpretProbed (stopAtKind kind stop) .resolved fuel body start ≠
      interpret .resolved fuel body start) :
    ∃ node m, kind node = true ∧ ComesTo fuel body start node m := by
  by_contra hnever
  have hprobe : stopAtKind kind stop = stopWhere (fun node _ => kind node = true) stop := by
    funext node m
    by_cases hkind : kind node = true
    · rw [stopWhere_pos hkind, stopAtKind, if_pos hkind]
    · rw [stopWhere_neg hkind, stopAtKind, if_neg hkind]
  refine h ?_
  rw [hprobe]
  exact interpretProbed_stopWhere (fun node m hkind hm => hnever ⟨node, m, hkind, hm⟩) stop

/-- Every probe that stops at a moment to which a run comes stops the run. -/
theorem ComesTo.stops (h : ComesTo fuel body start node m) (hS : S node m) (stop : Interrupt) :
    Run.Stops (interpretProbed (stopWhere S stop) .resolved fuel body) start stop := by
  rcases interpretProbed_stoppable .resolved fuel body S start with hpass | ⟨node', m', hmem, hstops⟩
  · obtain ⟨stop', hne⟩ := h
    rw [stopAt_eq_stopWhere] at hne
    refine absurd ((hpass _ ?_ stop').trans (congrFun (interpretProbed_pure ..) start)) hne
    rintro _ _ ⟨rfl, rfl⟩
    exact hS
  · exact hstops S hmem (fun _ _ => id) stop

end Moments

end Treewalk
