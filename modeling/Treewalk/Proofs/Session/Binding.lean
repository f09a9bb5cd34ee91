import Treewalk.Proofs.Run.Unbound
import Treewalk.Proofs.Scope.Initializers
import Treewalk.Proofs.Session.Scoping

/-!
# Bindings at run time

The frame at the recorded distance of an occurrence holds the name of the occurrence, with one
exception. An assignment to a local variable within its own initializer is bound to the scope of the
variable, but the frame gets the slot only when the declaration ends. Such an assignment ends in a
fault as soon as its value has been found; all other occurrences are found.

## Main results

* `Session.binding_held_iff`: which bindings are found at run time.
-/

namespace Treewalk

namespace Session

variable {bodies : List (List Stmt)} {s prepared : Session} {source : String} {body : List Stmt}
  {fuel id distance : Nat} {e : Expr} {name : String} {m m' : Machine}

namespace Steady

variable {comes : Node → Machine → Prop}

/-- The name of an occurrence is pending just if the occurrence is an assignment in the initializer
of its own variable. -/
theorem isPending_iff (h : Steady bodies comes s) {b : List Stmt} (hb : b ∈ bodies) {σ : Site}
    (hmet : Met b ⟨.expr e, σ⟩) (he : e.occurrence? = some (id, name)) :
    σ.scopes.isPending name ↔ ∃ b ∈ bodies, e.InOwnInitializer b := by
  by_cases hassign : ∃ target value, e = .assign id target value
  · obtain ⟨target, value, rfl⟩ := hassign
    cases he
    have hvisited := hmet.visited_of_ne nofun
    rw [(h.resolved b hb).isPending_iff_inOwnInitializer hvisited]
    refine ⟨fun hown => ⟨b, hb, hown⟩, ?_⟩
    rintro ⟨b', hb', hown⟩
    obtain ⟨σ', hvisited'⟩ := hown.visited
    have hids : Visit.ids ⟨.expr (.assign id target value), σ⟩ ≠ [] := by
      simp [Visit.ids, Expr.ids]
    obtain ⟨rfl, -⟩ := h.unique hb hb' hvisited hvisited' rfl hids
    exact hown
  · refine iff_of_false ?_ ?_
    · refine (h.resolved b hb).not_isPending hmet he fun target value heq => ?_
      exact hassign ⟨target, value, heq⟩
    · rintro ⟨b', -, id', target, value, -, -, -, rfl, -⟩
      cases he
      exact hassign ⟨target, value, rfl⟩

section Moments

variable {plan : Plan} {σ : Site} {ids : List Nat}

/-- Where the machine stands at an occurrence, the frame at the recorded distance holds the name,
unless the occurrence is an assignment in its own initializer. -/
theorem holds_iff (h : Steady bodies comes s)
    (ho : Ordered ⟨SeenIn bodies, comes⟩ s.machine.distances plan m)
    (hseen : SeenIn bodies ⟨.expr e, σ⟩) (hstands : Stands plan m ids σ.scopes σ.closed)
    (he : e.occurrence? = some (id, name)) (hdistance : m.distances.get? id = some distance) :
    m.frames.holds (m.frames.ancestor m.current distance) name ↔
      ¬ ∃ b ∈ bodies, e.InOwnInitializer b := by
  obtain ⟨b, hb, hmet⟩ := hseen
  have hrecorded := (h.resolved b hb).get?_occurrence hmet he
  rw [← ho.distances, hdistance] at hrecorded
  rw [← h.isPending_iff hb hmet he]
  cases (h.resolved b hb).fits hmet with
  | expr _ houter _ => exact hstands.holds_iff_not_isPending houter hrecorded.symm

/-- After an expression has been evaluated, the machine stands where it stood. -/
theorem stands_of_evaluate (h : Steady bodies comes s) (hcomes : ∀ node m, comes node m)
    (ho : Ordered ⟨SeenIn bodies, comes⟩ s.machine.distances plan m)
    (hinside : World.Inside ⟨SeenIn bodies, comes⟩ ids ⟨.expr e, σ⟩)
    (hstands : Stands plan m ids σ.scopes σ.closed) {v : Value}
    (hv : evaluate .resolved fuel e m = .ok v m') :
    ∃ plan', Ordered ⟨SeenIn bodies, comes⟩ s.machine.distances plan' m' ∧
      Stands plan' m' ids σ.scopes σ.closed := by
  have htracks : EvaluatorsTrack ⟨SeenIn bodies, comes⟩ s.machine.distances m.frames
      (evaluators .resolved fuel) (evaluators .resolved fuel) :=
    evaluators_track (guides_seenIn h.resolved) hcomes fuel
  have hleaves := (htracks.evaluate ho hinside hstands).leaves
  have hvalue : (evaluators .resolved fuel).evaluate e m = .ok v m' := hv
  rw [hvalue] at hleaves
  obtain ⟨plan', hf, -⟩ := hleaves
  exact ⟨plan', hf.ordered, hf.stands hstands ho.global not_false⟩

/-- Where the machine stands at an assignment, the frame at the recorded distance holds the name just
as well after the value has been found. -/
theorem holds_iff_of_value (h : Steady bodies comes s) (hcomes : ∀ node m, comes node m)
    (ho : Ordered ⟨SeenIn bodies, comes⟩ s.machine.distances plan m) {target : Name} {value : Expr}
    (hseen : SeenIn bodies ⟨.expr (.assign id target value), σ⟩)
    (hstands : Stands plan m (Visit.ids ⟨.expr (.assign id target value), σ⟩) σ.scopes σ.closed)
    (hdistance : m.distances.get? id = some distance) {v : Value}
    (hv : evaluate .resolved fuel value m = .ok v m') :
    m'.distances.get? id = some distance ∧
      (m'.frames.holds (m'.frames.ancestor m'.current distance) target.text ↔
        ¬ ∃ b ∈ bodies, (Expr.assign id target value).InOwnInitializer b) := by
  have hmem : (⟨.expr value, σ⟩ : Visit) ∈ Visit.parts ⟨.expr (.assign id target value), σ⟩ :=
    List.mem_singleton_self _
  have hvalue := (guides_seenIn h.resolved).part hseen hmem
  obtain ⟨plan', ho', hstands'⟩ :=
    h.stands_of_evaluate hcomes ho ⟨hvalue, Visit.ids_subset_of_mem_parts hmem⟩ hstands hv
  have hdistance' : m'.distances.get? id = some distance := by
    rw [ho'.distances, ← ho.distances, hdistance]
  exact ⟨hdistance', h.holds_iff ho' hseen hstands' rfl hdistance'⟩

/-- An occurrence whose name is held ends unbound only if it is an assignment whose value does. -/
theorem endsUnbound_occurrence (h : Steady bodies comes s) (hcomes : ∀ node m, comes node m)
    (ho : Ordered ⟨SeenIn bodies, comes⟩ s.machine.distances plan m)
    (hseen : SeenIn bodies ⟨.expr e, σ⟩)
    (hstands : Stands plan m (Visit.ids ⟨.expr e, σ⟩) σ.scopes σ.closed) (he : e.occurrence? = some (id, name))
    (hdistance : m.distances.get? id = some distance)
    (hother : ¬ ∃ b ∈ bodies, e.InOwnInitializer b)
    (hends : (evaluate .resolved (fuel + 1) e).EndsUnbound m) :
    ∃ target value, e = .assign id target value ∧
      (evaluate .resolved fuel value).EndsUnbound m := by
  have hholds := (h.holds_iff ho hseen hstands he hdistance).mpr hother
  rw [evaluate_succ] at hends
  cases e with
  | «variable» number target =>
    cases he
    exact absurd hends (Run.not_endsUnbound_readVariable hdistance hholds)
  | this number line =>
    cases he
    exact absurd hends (Run.not_endsUnbound_readVariable hdistance hholds)
  | super number line method =>
    cases he
    obtain ⟨b, hb, hmet⟩ := hseen
    have hrecorded := (h.resolved b hb).get?_occurrence hmet rfl
    rw [← ho.distances, hdistance] at hrecorded
    cases (h.resolved b hb).fits hmet with
    | expr hpaired _ _ =>
      obtain ⟨inward, inner, rfl, hinner, hready⟩ := hpaired.this_of_super hrecorded.symm
      have hthis := hstands.lies.holds_ancestor hinner hready
      exact absurd hends (Run.not_endsUnbound_superMethod hdistance hholds hthis)
  | assign number target value =>
    cases he
    refine ⟨target, value, rfl, ?_⟩
    rcases Run.endsUnbound_bind.mp hends with hvalue | ⟨v, m', hv, hassign⟩
    · exact hvalue
    obtain ⟨hdistance', hiff⟩ := h.holds_iff_of_value hcomes ho hseen hstands hdistance hv
    rcases Run.endsUnbound_bind.mp hassign with hassign | ⟨_, _, -, hpure⟩
    · exact absurd (hiff.mpr hother) ((Run.endsUnbound_assignVariable hdistance').mp hassign)
    · exact absurd hpure (Run.not_endsUnbound_pure v)
  | _ => cases he

end Moments

end Steady

/-- Which bindings are found. Whenever a run of an accepted text, after any history, comes to an
occurrence with a recorded distance, the frame at that distance holds the name just if the occurrence
is no assignment in the initializer of its own variable. Then its evaluation never ends unbound,
unless that of an assigned value does; else it does so as soon as the assigned value is found. -/
theorem binding_held_iff (hs : Reached bodies s) (ha : s.Accepts source body prepared)
    (hm : ComesTo fuel body prepared.machine (.expr e) m) (he : e.occurrence? = some (id, name))
    (hdistance : m.distances.get? id = some distance) :
    (m.frames.holds (m.frames.ancestor m.current distance) name ↔
        ¬ ∃ b ∈ body :: bodies, e.InOwnInitializer b) ∧
      ((¬ ∃ b ∈ body :: bodies, e.InOwnInitializer b) → ∀ depth,
        (evaluate .resolved (depth + 1) e).EndsUnbound m →
        ∃ target value, e = .assign id target value ∧
          (evaluate .resolved depth value).EndsUnbound m) ∧
      ((∃ b ∈ body :: bodies, e.InOwnInitializer b) →
        ∃ target value, e = .assign id target value ∧
          ∀ depth v m', evaluate .resolved depth value m = .ok v m' →
            evaluate .resolved (depth + 1) e m =
              .error (.raised ⟨.undefinedVariable target.text, target.line⟩) m') := by
  have hsteady := hs.steady.accept ha
  obtain ⟨plan, σ, ho, hseen, hstands⟩ := aligned hs ha hm
  refine ⟨hsteady.holds_iff ho hseen hstands he hdistance, fun hother depth hends => ?_, ?_⟩
  · exact hsteady.endsUnbound_occurrence (fun _ _ => trivial) ho hseen hstands he hdistance hother hends
  · intro hown
    have hassigned := hown
    obtain ⟨b, -, id', target, value, -, -, -, rfl, -⟩ := hassigned
    cases he
    refine ⟨target, value, rfl, fun depth v m' hv => ?_⟩
    obtain ⟨hdistance', hiff⟩ := hsteady.holds_iff_of_value (fun _ _ => trivial) ho hseen hstands hdistance hv
    have hassign := Run.assignVariable_of_not_holds hdistance' (fun hholds => hiff.mp hholds hown) v
    have hvalue : (evaluators .resolved depth).evaluate value m = .ok v m' := hv
    rw [evaluate_succ, evaluateStep, Run.bind_apply, hvalue]
    change (Run.assignVariable .resolved id target v >>= fun _ => pure v) m' = _
    rw [Run.bind_apply, hassign]

theorem binding_held_iff_selfAssigning :
    (Expr.assign 1 ⟨"a", 1⟩ (.literal .nil)).InOwnInitializer selfAssigning ∧
      ¬ selfAssigningMachine.frames.holds 1 "a" ∧
      evaluate .resolved 2 (.assign 1 ⟨"a", 1⟩ (.literal .nil)) selfAssigningMachine =
        .error (.raised ⟨.undefinedVariable "a", 1⟩) selfAssigningMachine := by
  have hblock : Visited selfAssigning _ := .statement (List.mem_singleton_self _)
  have hown : (Expr.assign 1 ⟨"a", 1⟩ (.literal .nil)).InOwnInitializer selfAssigning :=
    ⟨1, ⟨"a", 1⟩, .literal .nil, ⟨"a", 1⟩, _, _, rfl, hblock.part (List.mem_singleton_self _),
      List.cons_ne_nil _ _, rfl, .self⟩
  have hex : ∃ b ∈ [selfAssigning], Expr.InOwnInitializer b _ :=
    ⟨selfAssigning, List.mem_singleton_self _, hown⟩
  obtain ⟨hheld, -, hfault⟩ := binding_held_iff (.start (fun _ => 0) []) accepts_selfAssigning
    comesTo_selfAssigning rfl rfl
  obtain ⟨target, value, heq, hends⟩ := hfault hex
  cases heq
  exact ⟨hown, fun hholds => hheld.mp hholds hex, hends 1 .nil selfAssigningMachine rfl⟩

/-- The distance of the assignment in `selfAssigning` is recorded, and yet a run of the text ends
with the fault that nothing binds the variable. -/
theorem run_selfAssigning : (Session.start (fun _ => 0) []).Accepts selfAssigningText selfAssigning
      selfAssigningSession ∧
    selfAssigningSession.machine.distances.get? 1 = some 0 ∧
    ((Session.start (fun _ => 0) []).run 4 selfAssigningText).map
      (fun r => (r.1, r.2.diagnostics.reports)) =
      some (.runtimeError, [.runtime ⟨.undefinedVariable "a", 1⟩]) :=
  ⟨accepts_selfAssigning, rfl, by decide +kernel⟩

end Session

end Treewalk
