import Treewalk.Proofs.Run.Alignment
import Treewalk.Proofs.Run.Stocking
import Treewalk.Proofs.Run.Unbound
import Treewalk.Proofs.Scope.Uniqueness

/-!
# Names looked up along the chain

The frame that holds a name is found at the recorded distance of an occurrence, or by looking into one
frame after the other from the current one outward. If the local names of a program are unambiguous,
both ways lead to the same frame: of the scopes around an occurrence only the one at the recorded
distance ever declares the name, and the global frame does not hold a local name. It does not matter
whether the frame at that distance holds the name yet.

Runs in which both ways always lead to the same frame have the same outcome. This is shown with a probe
that stops at the moments at which they do not: with it the evaluators do the same whatever the way,
and no run comes to such a moment.

## Main definitions

* `LookupsDiffer`: the moments at which the two ways lead to different frames.

## Main results

* `Stands.holderOf_eq`: where the machine stands at an occurrence, both ways lead to the same frame.
* `interpret_chained_eq`: a run that comes to no moment at which they differ.
-/

namespace Treewalk

/-! ### The frame that holds a name -/

section Holders

variable {W : World} {ds : Distances} {plan : Plan} {m : Machine} {body : List Stmt} {e : Expr}
  {σ : Site} {ids : List Nat} {id : Nat} {name : String}

/-- The global frame holds no local name. -/
theorem Unambiguous.not_holds_global (hu : Unambiguous ds body) (hm : m.Stocks (stockOf [body]))
    (hname : name ∈ (Stmt.nestedAll body).map Name.text) : ¬ m.frames.holds globalFrame name := by
  intro hholds
  rcases hm.names name hholds with ⟨n, rfl⟩ | ⟨above, s, ⟨b, hb, hoccurs⟩, hglobal, hdeclared⟩
  · exact hu.notNative n hname
  · obtain rfl := List.mem_singleton.mp hb
    obtain ⟨d, hd, rfl⟩ := List.mem_map.mp hdeclared
    exact (hu.timesIn_eq hname).2 (List.mem_map_of_mem (hoccurs.declared_subset hglobal hd))

/-- A name that is not reserved is neither `this` nor `super`. -/
theorem ne_this_super (hfree : ∀ k : Keyword, k.text ≠ name) : name ≠ "this" ∧ name ≠ "super" :=
  ⟨(hfree .thisWord).symm, (hfree .superWord).symm⟩

namespace Stands

variable (h : Resolved ds body) (hu : Unambiguous ds body) (ho : Ordered W ds plan m)
  (hmet : Met body ⟨.expr e, σ⟩) (hstands : Stands plan m ids σ.scopes σ.closed)
  (he : e.occurrence? = some (id, name))

include h hu ho hmet hstands he

/-- Without a recorded distance the name of an occurrence is held by no local frame. -/
theorem not_holds_of_no_distance (hdistance : σ.scopes.distance? name = none) :
    ∀ i ∈ m.localFrames, ¬ m.frames.holds i name := by
  intro i hi hholds
  obtain ⟨k, hk⟩ := List.getElem?_of_mem hi
  obtain ⟨final, hfinal, hdeclares⟩ := hstands.declares_of_holds ho hk hholds
  by_cases hword : ∃ word : Keyword, word.text = name
  · -- reserved words are declared from the beginning
    obtain ⟨word, rfl⟩ := hword
    obtain ⟨scope, hscope, hends⟩ := (h.endAs hmet).getElem?_closed hfinal
    have hnone := List.findIdx?_eq_none_iff.mp hdistance scope (List.mem_of_getElem? hscope)
    rw [hends.words word hdeclares] at hnone
    cases hnone
  · obtain ⟨hthis, hsuper⟩ := ne_this_super fun word hw => hword ⟨word, hw⟩
    obtain ⟨τ, hvisited, -⟩ := hmet.visited
    obtain ⟨above, hoccurs, -⟩ := hvisited.exists_occurs
    have hrecorded : ds.get? id = none := (h.get?_occurrence hmet he).trans hdistance
    exact hu.resolved hoccurs he hrecorded (hmet.mem_nestedAll hthis hsuper hfinal hdeclares)

variable {distance : Nat} (hdistance : σ.scopes.distance? name = some distance)

include hdistance

/-- Nearer than the recorded distance no frame holds the name of an occurrence. -/
theorem not_holds_nearer {k i : Nat} (hk : m.localFrames[k]? = some i) (hlt : k < distance) :
    ¬ m.frames.holds i name := by
  intro hholds
  obtain ⟨final, hfinal, hdeclares⟩ := hstands.declares_of_holds ho hk hholds
  by_cases hword : ∃ word : Keyword, word.text = name
  · obtain ⟨word, rfl⟩ := hword
    obtain ⟨scope, hscope, hends⟩ := (h.endAs hmet).getElem?_closed hfinal
    have hle := Scopes.distance?_le_of_declares hdistance hscope (hends.words word hdeclares)
    omega
  · obtain ⟨hthis, hsuper⟩ := ne_this_super fun word hw => hword ⟨word, hw⟩
    obtain ⟨scope, hscope, hthere⟩ := Scopes.declares_of_distance? hdistance
    obtain ⟨final', hfinal', hends⟩ := (h.endAs hmet).getElem? hscope
    have heq := hu.eq_of_declares hmet hthis hsuper hfinal hdeclares hfinal' (hends.covers _ hthere)
    omega

/-- If the frame at the recorded distance does not hold the name of an occurrence, no frame outward
from the current one does. -/
theorem not_holds_of_not_held (hm : m.Stocks (stockOf [body]))
    (hheld : ¬ m.frames.holds (m.frames.ancestor m.current distance) name) :
    ∀ i ∈ m.frames.chain m.current, ¬ m.frames.holds i name := by
  -- the name is pending, so it is not reserved
  have hfree : ∀ word : Keyword, word.text ≠ name := by
    rintro word rfl
    cases h.fits hmet with
    | expr _ houter hwords _ =>
      exact hheld ((hstands.holds_iff_not_isPending houter hdistance).mpr (hwords word))
  obtain ⟨hthis, hsuper⟩ := ne_this_super hfree
  obtain ⟨scope, hscope, hthere⟩ := Scopes.declares_of_distance? hdistance
  obtain ⟨final, hfinal, hends⟩ := (h.endAs hmet).getElem? hscope
  have hdeclares := hends.covers _ hthere
  rw [(hstands.map_localFrames ho).2]
  refine List.forall_mem_append.mpr ⟨fun i hi hholds => ?_, ?_⟩
  · obtain ⟨k, hk⟩ := List.getElem?_of_mem hi
    obtain ⟨final', hfinal', hdeclares'⟩ := hstands.declares_of_holds ho hk hholds
    obtain rfl := hu.eq_of_declares hmet hthis hsuper hfinal' hdeclares' hfinal hdeclares
    have hlt : k < σ.scopes.length := (List.getElem?_eq_some_iff.mp hscope).1
    rw [hstands.getElem?_localFrames ho hlt] at hk
    cases hk
    exact hheld hholds
  · rintro i hi
    obtain rfl := List.mem_singleton.mp hi
    exact hu.not_holds_global hm (hmet.mem_nestedAll hthis hsuper hfinal hdeclares)

end Stands

theorem Ordered.chain_global (ho : Ordered W ds plan m) :
    m.frames.chain globalFrame = [globalFrame] := by
  obtain ⟨locals, hlocals, -, hchain, -⟩ := (@Lies.global m.frames plan []).exists_locals ho.root
  obtain rfl := List.map_eq_nil_iff.mp hlocals
  exact hchain _ ho.global

/-- Where the machine stands at an occurrence in a program whose local names are unambiguous, looking
its name up along the chain leads to the same frame as its distance. -/
theorem Stands.holderOf_eq (h : Resolved ds body) (hu : Unambiguous ds body)
    (ho : Ordered W ds plan m) (hm : m.Stocks (stockOf [body])) (hmet : Met body ⟨.expr e, σ⟩)
    (hstands : Stands plan m ids σ.scopes σ.closed) (he : e.occurrence? = some (id, name)) :
    m.holderOf .chained id name = m.holderOf .resolved id name := by
  have hchain := (hstands.map_localFrames ho).2
  have hrecorded : m.distances.get? id = σ.scopes.distance? name := by
    rw [ho.distances]
    exact h.get?_occurrence hmet he
  rw [Machine.holderOf, Machine.holderOf, hrecorded, Frames.holder?]
  cases hdistance : σ.scopes.distance? name with
  | none =>
    have hnone := hstands.not_holds_of_no_distance h hu ho hmet he hdistance
    rw [hchain, List.find?_append, List.find?_eq_none.mpr hnone, Option.none_or, Frames.holder?,
      ho.chain_global]
  | some distance =>
    have hlt : distance < σ.scopes.length :=
      (List.findIdx?_eq_some_iff_getElem.mp hdistance).1
    have hlocal := hstands.getElem?_localFrames ho hlt
    change _ = m.frames.holderAt? m.current distance name
    by_cases hheld : m.frames.holds (m.frames.ancestor m.current distance) name
    · rw [Frames.holderAt?_of_holds hheld, hchain, List.find?_append, Option.or_eq_some_iff]
      left
      obtain ⟨hsize, heq⟩ := List.getElem?_eq_some_iff.mp hlocal
      refine List.find?_eq_some_iff_getElem.mpr ⟨hheld, distance, hsize, heq, fun k hk => ?_⟩
      have hnearer := hstands.not_holds_nearer h hu ho hmet he hdistance
        (List.getElem?_eq_getElem (hk.trans hsize)) hk
      simpa using hnearer
    · rw [Frames.holderAt?_of_not_holds hheld, List.find?_eq_none]
      exact hstands.not_holds_of_not_held h hu ho hmet he hdistance hm hheld

end Holders

/-! ### Runs -/

/-- The moments at which the two ways to look up the name of an occurrence lead to different frames.
The name of an assignment is looked up after its value has been found. -/
def LookupsDiffer : Node → Machine → Prop
  | .expr (.variable id name), m =>
    m.holderOf .chained id name.text ≠ m.holderOf .resolved id name.text
  | .expr (.this id _), m => m.holderOf .chained id "this" ≠ m.holderOf .resolved id "this"
  | .expr (.assign id name value), m =>
    ∃ fuel v m', evaluate .resolved fuel value m = .ok v m' ∧
      m'.holderOf .chained id name.text ≠ m'.holderOf .resolved id name.text
  | _, _ => False

section Runs

variable {m : Machine} {stop : Interrupt} {fuel : Nat}

theorem readVariable_chained {id : Nat} {name : Name}
    (h : m.holderOf .chained id name.text = m.holderOf .resolved id name.text) :
    Run.readVariable .chained id name m = Run.readVariable .resolved id name m := by
  rw [Run.readVariable, Run.readVariable, Run.get_bind_apply, Run.get_bind_apply, h]

namespace Run.Stoppable

variable {α : Type} {x : (Node → Run Unit) → Run α} {S : Node → Machine → Prop}

/-- With a probe that stops a computation answers only as it does without. -/
theorem ok_of_ok (h : Stoppable x) {a : α} {m' : Machine} (hx : x (stopWhere S stop) m = .ok a m') :
    x (fun _ => pure ()) m = .ok a m' := by
  rcases h S m with hpass | ⟨node, m₁, hS, hstops⟩
  · rw [← hx, hpass S (fun _ _ => id) stop]
  · obtain ⟨m₂, hstop⟩ := hstops S hS (fun _ _ => id) stop
    rw [hx] at hstop
    cases hstop

/-- If it does not matter which fault a probe stops with, the probe does nothing. -/
theorem eq_of_stopWhere (h : Stoppable x) {outcome : EStateM.Result Interrupt Machine α}
    (hx : ∀ stop, x (stopWhere S stop) m = outcome) : x (fun _ => pure ()) m = outcome := by
  rcases h S m with hpass | ⟨node, m₁, hS, hstops⟩
  · rw [← hpass S (fun _ _ => id) .outOfFuel, hx]
  · obtain ⟨stop, hne⟩ := Stops.exists_ne (hstops S hS fun _ _ => id) fun _ => outcome
    exact absurd (hx stop) hne

end Run.Stoppable

/-- At a moment at which both ways lead to the same frame, an expression is evaluated alike. -/
theorem evaluateStep_chained {S : Node → Machine → Prop} {e : Expr}
    (h : ¬ LookupsDiffer (.expr e) m) :
    evaluateStep .chained (probed (stopWhere S stop) .resolved fuel) e m =
      evaluateStep .resolved (probed (stopWhere S stop) .resolved fuel) e m := by
  cases e with
  | «variable» id name => exact readVariable_chained (not_not.mp h)
  | this id line => exact @readVariable_chained _ id ⟨"this", line⟩ (not_not.mp h)
  | assign id name value =>
    rw [evaluateStep, evaluateStep, Run.bind_apply, Run.bind_apply]
    cases hvalue : (probed (stopWhere S stop) .resolved fuel).evaluate value m with
    | error e m' => rfl
    | ok v m' =>
      have hstoppable : Run.Stoppable fun probe => (probed probe .resolved fuel).evaluate value :=
        (probed_stoppable .resolved fuel).evaluate value
      have hplain := hstoppable.ok_of_ok hvalue
      rw [probed_pure] at hplain
      have hsame : m'.holderOf .chained id name.text = m'.holderOf .resolved id name.text :=
        not_not.mp fun hne => h ⟨fuel, v, m', hplain, hne⟩
      change (Run.assignVariable .chained id name v >>= fun _ => pure v) m' =
        (Run.assignVariable .resolved id name v >>= fun _ => pure v) m'
      rw [Run.bind_apply, Run.bind_apply, Run.assignVariable, Run.assignVariable,
        Run.get_bind_apply, Run.get_bind_apply, hsame]
  | literal _ | grouping _ | unary _ _ _ | binary _ _ _ _ | logical _ _ _ _ | ternary _ _ _
  | call _ _ _ | get _ _ | set _ _ _ | super _ _ _ => rfl

/-- With a probe that stops where the two ways differ, the evaluators are the same. -/
theorem probed_chained (stop : Interrupt) (fuel : Nat) :
    probed (stopWhere LookupsDiffer stop) .chained fuel =
      probed (stopWhere LookupsDiffer stop) .resolved fuel := by
  induction fuel with
  | zero => rfl
  | succ fuel ih =>
    rw [probed, probed, ih, Evaluators.mk.injEq]
    refine ⟨?_, rfl, rfl⟩
    funext e m
    rw [Run.bind_apply, Run.bind_apply]
    by_cases hdiffer : LookupsDiffer (.expr e) m
    · rw [stopWhere_pos hdiffer]
    · rw [stopWhere_neg hdiffer]
      exact evaluateStep_chained hdiffer

/-- A run that comes to no moment at which the two ways differ has the same outcome with both. -/
theorem interpret_chained_eq {body : List Stmt} {start : Machine}
    (h : ∀ node m, LookupsDiffer node m → ¬ ComesTo fuel body start node m) :
    interpret .chained fuel body start = interpret .resolved fuel body start := by
  rw [← interpretProbed_pure .chained]
  have hstop (stop : Interrupt) : interpretProbed (stopWhere LookupsDiffer stop) .chained fuel body
      start = interpret .resolved fuel body start := by
    rw [interpretProbed, probed_chained]
    exact interpretProbed_stopWhere h stop
  exact (interpretProbed_stoppable .chained fuel body).eq_of_stopWhere hstop

end Runs

end Treewalk
