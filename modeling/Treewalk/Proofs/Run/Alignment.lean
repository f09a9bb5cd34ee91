import Treewalk.Proofs.Run.Steps
import Treewalk.Proofs.Run.Stopping

/-!
# Runs stay aligned

At every moment of a run the machine stands at a site of the node that is about to be evaluated or
executed: the frames outward from the current one stand for the scopes that are open there. This
follows by induction on the fuel from the steps of a run, with a probe that looks at each moment.

The evaluators are compared under two probes. Both stop outside of the history, so that whatever is
declared is declared at a moment of it, and one of them also stops at a moment that is not aligned. They
do the same if no run comes to such a moment.

## Main definitions

* `Aligned`: a machine that stands at a site of a node.
* `ProbesAgree`: probes that do the same at aligned moments.

## Main results

* `probed_tracks`: evaluators with such probes.
* `interpret_leaves`: the machine that a run leaves.
* `aligned_of_comesTo`: every moment of a run is aligned, and its frames are kept to the end.
* `Lies.exists_locals`, `Lies.ancestor`, `Lies.holds_ancestor`: the frames outward from a frame that
  stands for a scope.
* `Stands.holds_iff_not_isPending`: which names are found in the frames that stand for their scopes.
-/

namespace Treewalk

/-- A machine in order that stands at a site of a node. -/
def Aligned (W : World) (ds : Distances) (node : Node) (m : Machine) : Prop :=
  ∃ plan σ, Ordered W ds plan m ∧ W.seen ⟨node, σ⟩ ∧
    Stands plan m (Visit.ids ⟨node, σ⟩) σ.scopes σ.closed

/-- A probe passes or stops at aligned moments, and it stops at those outside of the history. Another
one does the same at those whose frames are kept in the last ones. -/
structure ProbesAgree (W : World) (ds : Distances) (last : Frames) (probe' probe : Node → Run Unit) :
    Prop where
  passes : ∀ node m, Aligned W ds node m →
    (probe node m = .ok () m ∧ W.comes node m) ∨ ∃ e, probe node m = .error e m
  same : ∀ node m, Aligned W ds node m → m.frames.KeptIn last → probe' node m = probe node m

section Moments

variable {W : World} {ds : Distances} {last : Frames} {plan : Plan} {m start : Machine}
  {probe' probe : Node → Run Unit}

/-- After a probe a computation goes on if the probe passes. -/
theorem Tracks.afterProbe {α : Type} {grows : Nat → Prop} {x' x : Run α}
    {Q : α → Plan → Machine → Prop} {node : Node} (hagree : ProbesAgree W ds last probe' probe)
    (ho : Ordered W ds plan m) (haligned : Aligned W ds node m)
    (h : W.comes node m → Tracks W ds last grows x' x plan m Q) :
    Tracks W ds last grows (do probe' node; x') (do probe node; x) plan m Q := by
  have hsame := hagree.same node m haligned
  rcases hagree.passes node m haligned with ⟨hpass, hcomes⟩ | ⟨e, hstop⟩
  · have h := h hcomes
    have happly : (do probe node; x) m = x m := by rw [Run.bind_apply, hpass]
    refine ⟨fun hlast => ?_, by rw [happly]; exact h.leaves⟩
    rw [happly] at hlast ⊢
    rw [Run.bind_apply, hsame (h.leaves.keptIn.trans hlast), hpass]
    exact h.same hlast
  · have happly : (do probe node; x) m = .error e m := by rw [Run.bind_apply, hstop]
    refine ⟨fun hlast => ?_, by rw [happly]; exact ⟨plan, .refl ho⟩⟩
    rw [happly] at hlast ⊢
    rw [Run.bind_apply, hsame hlast, hstop]

/-- With probes that do the same at aligned moments the evaluators do the same. -/
theorem probed_tracks (hagree : ProbesAgree W ds last probe' probe) (hguides : Guides W.seen)
    (fuel : Nat) :
    EvaluatorsTrack W ds last (probed probe' .resolved fuel) (probed probe .resolved fuel) := by
  induction fuel with
  | zero =>
    exact ⟨fun ho _ _ => .throw ho _, fun ho _ _ => .throw ho _, fun ho _ _ _ => .throw ho _,
      fun ho _ _ => .throw ho _⟩
  | succ fuel ih =>
    refine ⟨fun {e σ ids plan m} ho hseen hstands => ?_, fun {s σ ids plan m} ho hseen hstands => ?_,
      ih.invokeStep hguides, fun {id name σ ids plan m} ho hseen hstands => ?_⟩
    · refine .afterProbe hagree ho ⟨plan, σ, ho, hseen.1, hstands.subset hseen.2⟩ fun _ => ?_
      exact ih.evaluateStep hguides ho hseen hstands
    · refine .afterProbe hagree ho ⟨plan, σ, ho, hseen.1, hstands.subset hseen.2⟩ fun hcomes => ?_
      exact ih.executeStep hguides fuel hcomes ho hseen hstands
    · refine .afterProbe hagree ho ⟨plan, σ, ho, hseen.1, hstands.subset hseen.2⟩ fun _ => ?_
      exact .readVariable ho .resolved id name

/-- Where all moments are known, the evaluators keep a machine in order. -/
theorem evaluators_track (hguides : Guides W.seen) (hcomes : ∀ node m, W.comes node m)
    (fuel : Nat) : EvaluatorsTrack W ds last (evaluators .resolved fuel)
      (evaluators .resolved fuel) := by
  have hagree : ProbesAgree W ds last (fun _ => pure ()) fun _ => pure () :=
    ⟨fun node m _ => .inl ⟨rfl, hcomes node m⟩, fun _ _ _ _ => rfl⟩
  have htracks := probed_tracks hagree hguides fuel
  rwa [probed_pure] at htracks

/-- The statements of a program, executed from a machine in order outside of all scopes. -/
theorem EvaluatorsTrack.program {parts' parts : Evaluators} (h : EvaluatorsTrack W ds last parts' parts)
    {body : List Stmt} (hbody : ∀ v ∈ Site.outermost.along body, W.seen v) (ho : Ordered W ds plan start)
    (hcurrent : start.current = globalFrame) :
    Tracks W ds last (· = start.current) (do let _ ← Treewalk.executeAll parts'.execute body)
      (do let _ ← Treewalk.executeAll parts.execute body) plan start fun _ _ _ => True := by
  have hstands : Stands plan start (Stmt.idsAll body) [] [] := by
    refine ⟨?_, fun _ _ heq => ?_, ?_⟩
    · rw [hcurrent]
      exact .global
    · cases heq
    · rw [hcurrent]
      exact ho.not_sealed_global
  have hinside : ∀ v ∈ Site.outermost.along body, W.Inside (Stmt.idsAll body) v := fun v hv =>
    ⟨hbody v hv, Visited.ids_subset (.statement hv)⟩
  exact (h.executeAll hinside ho hstands).bind fun _ _ _ hf _ => .pure hf.ordered trivial

/-- A program that is run from a machine in order outside of all scopes. -/
theorem interpretProbed_tracks (hagree : ProbesAgree W ds last probe' probe)
    (hguides : Guides W.seen) {body : List Stmt} (hbody : ∀ v ∈ Site.outermost.along body, W.seen v)
    (fuel : Nat) (ho : Ordered W ds plan start) (hcurrent : start.current = globalFrame) :
    Tracks W ds last (· = start.current) (interpretProbed probe' .resolved fuel body)
      (interpretProbed probe .resolved fuel body) plan start fun _ _ _ => True :=
  (probed_tracks hagree hguides fuel).program hbody ho hcurrent

theorem probesAgree_stopWhere (S : Node → Machine → Prop) (stop : Interrupt)
    (hS : ∀ node m, Aligned W ds node m → m.frames.KeptIn last → W.comes node m → ¬ S node m) :
    ProbesAgree W ds last (stopWhere (fun node m => W.comes node m → S node m) stop)
      (stopWhere (fun node m => ¬ W.comes node m) stop) where
  passes node m _ := by
    by_cases hcomes : W.comes node m
    · exact .inl ⟨stopWhere_neg (not_not_intro hcomes), hcomes⟩
    · exact .inr ⟨stop, stopWhere_pos hcomes⟩
  same node m haligned hlast := by
    by_cases hcomes : W.comes node m
    · rw [stopWhere_neg fun h => hS node m haligned hlast hcomes (h hcomes),
        stopWhere_neg (not_not_intro hcomes)]
    · rw [stopWhere_pos fun h => absurd h hcomes, stopWhere_pos hcomes]

variable {fuel : Nat} {body : List Stmt}

/-- The machine that a run leaves is in order and follows the first one. -/
theorem interpret_leaves (hguides : Guides W.seen)
    (hbody : ∀ v ∈ Site.outermost.along body, W.seen v)
    (hcomes : ∀ node m, ComesTo fuel body start node m → W.comes node m)
    (ho : Ordered W ds plan start) (hcurrent : start.current = globalFrame) :
    Leaves W ds (· = start.current) plan start (fun _ _ _ => True)
      (interpret .resolved fuel body start) := by
  have hnever : ∀ node m, ¬ W.comes node m → ¬ ComesTo fuel body start node m :=
    fun node m hnot h => hnot (hcomes node m h)
  have hagree : ProbesAgree W ds start.frames _ _ :=
    probesAgree_stopWhere (fun _ _ => False) .outOfFuel fun _ _ _ _ _ => id
  have htracks := interpretProbed_tracks hagree hguides hbody fuel ho hcurrent
  rw [← interpretProbed_stopWhere hnever .outOfFuel]
  exact htracks.leaves

/-- Every moment of a run is aligned, and its frames are kept in those that the run leaves. -/
theorem aligned_of_comesTo (hguides : Guides W.seen)
    (hbody : ∀ v ∈ Site.outermost.along body, W.seen v)
    (hcomes : ∀ node m, ComesTo fuel body start node m → W.comes node m)
    (ho : Ordered W ds plan start) (hcurrent : start.current = globalFrame) {node : Node}
    (h : ComesTo fuel body start node m) : Aligned W ds node m ∧
      m.frames.KeptIn (Run.framesAfter (interpret .resolved fuel body start)) := by
  by_contra hnot
  have hnever : ∀ node m, ¬ W.comes node m → ¬ ComesTo fuel body start node m :=
    fun node m hnot h => hnot (hcomes node m h)
  have hother : ∀ node' m', Aligned W ds node' m' →
      m'.frames.KeptIn (Run.framesAfter (interpret .resolved fuel body start)) →
      W.comes node' m' → ¬ (node' = node ∧ m' = m) := by
    rintro _ _ haligned hlast - ⟨rfl, rfl⟩
    exact hnot ⟨haligned, hlast⟩
  -- a probe that stops at this moment does what one does that never stops on the way
  refine Run.Stops.not_forall (interpret .resolved fuel body) start fun stop => ?_
  have htracks := interpretProbed_tracks (probesAgree_stopWhere _ stop hother) hguides hbody fuel
    ho hcurrent
  have hpass := interpretProbed_stopWhere hnever stop
  have hsame := htracks.same (by rw [hpass]; exact .refl _)
  obtain ⟨m', hm'⟩ := h.stops (S := fun node' m' => W.comes node' m' → node' = node ∧ m' = m)
    (fun _ => ⟨rfl, rfl⟩) stop
  rw [hpass, hm'] at hsame
  exact ⟨m', hsame.symm⟩

end Moments

/-! ### Frames outward -/

namespace Lies

variable {fs : Frames} {plan : Plan} {ids : List Nat} {i : Nat} {scopes closed : Scopes}

theorem length_eq (h : Lies fs plan ids i scopes closed) : scopes.length = closed.length := by
  induction h with
  | global => rfl
  | frame _ _ _ _ _ _ _ ih => rw [List.length_cons, List.length_cons, ih]

/-- The frames outward from a frame that lies at scopes: one for each scope, and the global
frame. -/
theorem exists_locals (h : Lies fs plan ids i scopes closed)
    (hroot : fs.enclosing? globalFrame = none) :
    ∃ locals : List Nat, locals.map (fun i => (plan.role i).final) = closed ∧ globalFrame ∉ locals ∧
      (∀ bound, i < bound → fs.chainFrom bound i = locals ++ [globalFrame]) ∧
      ∀ k, (hk : k < locals.length) → fs.ancestor i k = locals[k] := by
  induction h with
  | global =>
    refine ⟨[], rfl, List.not_mem_nil, fun bound hbound => ?_, fun k hk => nomatch hk⟩
    obtain ⟨bound, rfl⟩ := Nat.exists_eq_succ_of_ne_zero (Nat.ne_of_gt hbound)
    simp [Frames.chainFrom, hroot]
  | @frame i j scope final outer closed hlt hsize henclosing hready hfinal hids houter ih =>
    obtain ⟨locals, hplan, hglobal, hchain, hancestor⟩ := ih
    refine ⟨i :: locals, by rw [List.map_cons, hfinal, hplan], ?_, fun bound hbound => ?_, ?_⟩
    · intro hmem
      rcases List.mem_cons.mp hmem with heq | hmem
      · rw [← heq] at hlt
        exact absurd hlt (Nat.not_lt_zero j)
      · exact hglobal hmem
    · obtain ⟨bound, rfl⟩ := Nat.exists_eq_succ_of_ne_zero (Nat.ne_zero_of_lt hbound)
      have hj : j < bound := Nat.lt_of_lt_of_le hlt (Nat.le_of_lt_succ hbound)
      rw [Frames.chainFrom, henclosing, Option.elim_some, hchain bound hj, List.cons_append]
    · intro k hk
      cases k with
      | zero => rfl
      | succ k =>
        rw [Frames.ancestor, henclosing, Option.elim_some, List.getElem_cons_succ]
        exact hancestor k (Nat.lt_of_succ_lt_succ hk)

/-- The frame some steps outward lies at the scopes that are left. -/
theorem ancestor (h : Lies fs plan ids i scopes closed) {k : Nat} (hk : k ≤ scopes.length) :
    Lies fs plan ids (fs.ancestor i k) (scopes.drop k) (closed.drop k) := by
  induction k generalizing i scopes closed with
  | zero => exact h
  | succ k ih =>
    cases h with
    | global => cases hk
    | frame hlt hsize henclosing hready hfinal hids houter =>
      rw [Frames.ancestor, henclosing, Option.elim_some]
      exact ih houter (Nat.le_of_succ_le_succ hk)

/-- A frame lies in a certain number of scopes. -/
theorem length_unique {ids' : List Nat} {scopes' closed' : Scopes}
    (h : Lies fs plan ids i scopes closed) (h' : Lies fs plan ids' i scopes' closed') :
    scopes.length = scopes'.length := by
  induction h generalizing ids' scopes' closed' with
  | global =>
    cases h' with
    | global => rfl
    | frame hlt => exact absurd hlt (Nat.not_lt_zero _)
  | frame hlt _ henclosing _ _ _ _ ih =>
    cases h' with
    | global => exact absurd hlt (Nat.not_lt_zero _)
    | frame _ _ henclosing' _ _ _ houter' =>
      obtain rfl := Option.some.inj (henclosing.symm.trans henclosing')
      rw [List.length_cons, List.length_cons, ih houter']

/-- The frame that stands for a scope holds the names that are ready there. -/
theorem holds_ancestor (h : Lies fs plan ids i scopes closed) {k : Nat} {scope : Scope}
    (hk : scopes[k]? = some scope) {name : String} (hname : scope.isReady name) :
    fs.holds (fs.ancestor i k) name := by
  induction h generalizing k with
  | global => cases hk
  | @frame i j innermost final outer closed hlt hsize henclosing hready hfinal hids houter ih =>
    cases k with
    | zero =>
      cases hk
      exact hready name hname
    | succ k =>
      rw [Frames.ancestor, henclosing, Option.elim_some]
      exact ih hk

end Lies

/-- The frames outward from the current one, without the global frame. -/
def Machine.localFrames (m : Machine) : List Nat :=
  (m.frames.chain m.current).takeWhile (· ≠ globalFrame)

namespace Stands

variable {W : World} {ds : Distances} {plan : Plan} {m : Machine} {ids : List Nat}
  {scopes closed : Scopes}

/-- The local frames stand for the open scopes one by one, with the global frame outside of them. -/
theorem map_localFrames (h : Stands plan m ids scopes closed) (ho : Ordered W ds plan m) :
    m.localFrames.map (fun i => (plan.role i).final) = closed ∧
      m.frames.chain m.current = m.localFrames ++ [globalFrame] := by
  obtain ⟨locals, hplan, hglobal, hchain, -⟩ := h.lies.exists_locals ho.root
  have heq := hchain m.frames.size (h.lies.lt_size ho.global)
  have hlocals : m.localFrames = locals := by
    have hne : ∀ i ∈ locals, decide (i ≠ globalFrame) = true := fun i hi =>
      decide_eq_true fun hi' => hglobal (hi' ▸ hi)
    rw [Machine.localFrames, Frames.chain, heq, List.takeWhile_append_of_pos hne]
    simp
  exact ⟨by rw [hlocals, hplan], by rw [hlocals]; exact heq⟩

theorem length_localFrames (h : Stands plan m ids scopes closed) (ho : Ordered W ds plan m) :
    m.localFrames.length = scopes.length := by
  rw [h.lies.length_eq, ← (h.map_localFrames ho).1, List.length_map]

/-- The frame that stands for the scope of a name holds it unless the name is pending. -/
theorem holds_iff_not_isPending (h : Stands plan m ids scopes closed)
    (houter : Scopes.Settled scopes.tail) {name : String} {distance : Nat}
    (hdistance : scopes.distance? name = some distance) :
    m.frames.holds (m.frames.ancestor m.current distance) name ↔ ¬ scopes.isPending name := by
  obtain ⟨hlt, hdeclares, -⟩ := List.findIdx?_eq_some_iff_getElem.mp hdistance
  have hready (hname : scopes[distance].isReady name) :
      m.frames.holds (m.frames.ancestor m.current distance) name :=
    h.lies.holds_ancestor (List.getElem?_eq_getElem hlt) hname
  cases scopes with
  | nil => cases hdistance
  | cons scope outer =>
    change _ ↔ ¬ scope.isPending name
    cases distance with
    | zero =>
      refine ⟨fun hholds hpending => ?_, fun hpending => hready ?_⟩
      · exact Scope.not_isReady_of_isPending hpending (h.tight scope outer rfl name hholds)
      · exact (Scope.isReady_or_isPending hdeclares).resolve_right hpending
    | succ outward =>
      -- further out everything is ready, and the innermost scope does not declare the name
      refine iff_of_true (hready (houter _ (List.getElem_mem _) name hdeclares)) fun hpending => ?_
      rw [Scopes.distance?_cons, if_pos (Scope.declares_of_isPending hpending)] at hdistance
      cases hdistance

/-- Going outward as many steps as there are scopes between stays among the local frames. -/
theorem getElem?_localFrames (h : Stands plan m ids scopes closed) (ho : Ordered W ds plan m)
    {k : Nat} (hk : k < scopes.length) :
    m.localFrames[k]? = some (m.frames.ancestor m.current k) := by
  obtain ⟨locals, hplan, hglobal, hchain, hancestor⟩ := h.lies.exists_locals ho.root
  have heq := hchain m.frames.size (h.lies.lt_size ho.global)
  have hlocals : m.localFrames = locals :=
    List.append_cancel_right ((h.map_localFrames ho).2.symm.trans heq)
  have hlength : k < locals.length := by
    rwa [← hlocals, h.length_localFrames ho]
  rw [hlocals, List.getElem?_eq_getElem hlength, hancestor k hlength]

/-- A local frame holds only names that its scope declares in the end. -/
theorem declares_of_holds (h : Stands plan m ids scopes closed) (ho : Ordered W ds plan m)
    {k i : Nat} (hk : m.localFrames[k]? = some i) {name : String} (hname : m.frames.holds i name) :
    ∃ scope, closed[k]? = some scope ∧ scope.declares name := by
  refine ⟨(plan.role i).final, ?_, ho.held i ?_ name hname⟩
  · rw [← (h.map_localFrames ho).1, List.getElem?_map, hk, Option.map_some]
  · have hmem : i ∈ m.localFrames := List.mem_of_getElem? hk
    have hall : (m.localFrames).all (· ≠ globalFrame) := List.all_takeWhile
    simpa using List.all_eq_true.mp hall i hmem

end Stands

end Treewalk
