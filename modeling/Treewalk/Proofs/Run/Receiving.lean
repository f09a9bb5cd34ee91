import Treewalk.Proofs.Frame.Nearest
import Treewalk.Proofs.Run.Arguments
import Treewalk.Proofs.Run.Chaining

/-!
# The receiver of a call

While the body of a method is executed, `this` is looked up from a frame inside the frame of the call,
and that lies in the frame that binds `this` to the receiver. No declaration and no assignment has a
reserved word as its name, so on the way from the one frame to the other nothing ever comes to bind
`this`. What the walk has recorded for an occurrence of `this` is the way to the nearest frame that binds
it, so the receiver is what is found, whatever happens between the beginning of the body and the
occurrence.

## Main definitions

* `Frames.StepsTo`: the way outward to a frame past frames that do not hold a name.

## Main results

* `Frames.Changes.slot?_eq`: slots of names that nothing binds.
* `Stands.evaluate_this`: the value of `this` is in the nearest frame that binds it.
* `Calls.placed`: functions that a run calls close over frames that are there.
* `Calls.nearest`: from inside a call the nearest frame is that of the receiver.
-/

namespace Treewalk

/-! ### Names that nothing binds -/

/-- A name that no declaration and no assignment binds keeps the slots that it has. -/
theorem Frames.Changes.slot?_eq {met : Set Moment} {fs fs' : Frames} {name : String}
    (h : Changes met fs fs') (hname : ∀ node m, ⟨.node node, m⟩ ∈ met → ¬ node.Binds name) {i : Nat}
    (hi : i < fs.size) : fs'.slot? i name = fs.slot? i name := by
  induction h with
  | refl => rfl
  | @tail fs₁ fs₂ hbefore hlast ih =>
    refine Eq.trans ?_ ih
    rcases hlast with hmade | ⟨j, other, hwritten⟩
    · exact hmade.slot?_eq (Nat.lt_of_lt_of_le hi (Changes.linkedIn hbefore).size) name
    · by_contra hne
      obtain ⟨rfl, rfl⟩ := hwritten.eq_of_slot?_ne hne
      cases hwritten with
      | mk hmet hnode => exact hname _ _ hmet hnode

/-- No declaration and no assignment has a reserved word as its name. -/
theorem Visit.Fits.not_binds {node : Node} {σ : Site} (h : Visit.Fits ⟨node, σ⟩) (word : Keyword) :
    ¬ node.Binds word.text := by
  match node with
  | .expr (.assign _ _ _) => exact h.of_expr.1.ne_text word
  | .stmt (.variable _ _) => exact h.of_stmt.1.1.ne_text word
  | .stmt (.class _ _ _) => exact h.of_stmt.1.1.ne_text word
  | .stmt (.function ⟨_, _, _⟩) => exact h.of_stmt.1.1.ne_text word
  | .routine _ | .expr (.literal _) | .expr (.grouping _) | .expr (.unary _ _ _)
  | .expr (.binary _ _ _ _) | .expr (.logical _ _ _ _) | .expr (.ternary _ _ _)
  | .expr (.variable _ _) | .expr (.call _ _ _) | .expr (.get _ _) | .expr (.set _ _ _)
  | .expr (.this _ _) | .expr (.super _ _ _) | .stmt (.expression _) | .stmt (.block _)
  | .stmt (.ifThen _ _) | .stmt (.ifElse _ _ _) | .stmt (.while _ _) | .stmt (.return _ _) => exact id

/-! ### The way outward -/

namespace Frames

variable {fs : Frames} {i c r steps : Nat} {name : String}

/-- One step further outward. -/
theorem hop?_succ (fs : Frames) (i steps : Nat) :
    fs.hop? i (steps + 1) = (fs.hop? i steps).bind fs.enclosing? := by
  induction steps generalizing i with
  | zero => cases h : fs.enclosing? i <;> simp [hop?, h]
  | succ steps ih =>
    rw [hop?, hop?, Option.bind_assoc]
    exact congrArg _ (funext ih)

/-- The frame `c` is so many steps outward from a frame, and no frame before it holds a name. -/
def StepsTo (fs : Frames) (i : Nat) (name : String) (steps c : Nat) : Prop :=
  fs.hop? i steps = some c ∧ ∀ k < steps, ∀ j, fs.hop? i k = some j → ¬ fs.holds j name

/-- If the next frame on a way is the first one to hold a name, it is the nearest. -/
theorem StepsTo.nearest (h : fs.StepsTo i name steps c) (hc : ¬ fs.holds c name)
    (henclosing : fs.enclosing? c = some r) (hr : fs.holds r name) :
    fs.Nearest i name (steps + 1) r where
  hop := by rw [hop?_succ, h.1, Option.bind_some, henclosing]
  holds := hr
  nearer k hk j hj := by
    rcases Nat.lt_succ_iff_lt_or_eq.mp hk with hk | rfl
    · exact h.2 k hk j hj
    · cases h.1.symm.trans hj
      exact hc

end Frames

namespace Lies

variable {fs : Frames} {plan : Plan} {ids : List Nat} {i j k : Nat} {scopes closed : Scopes}

/-- There are as many steps as there are scopes. -/
theorem hop?_eq (h : Lies fs plan ids i scopes closed) (hk : k ≤ scopes.length) :
    fs.hop? i k = some (fs.ancestor i k) := by
  induction k generalizing i scopes closed with
  | zero => rfl
  | succ k ih =>
    cases h with
    | global => cases hk
    | frame hlt hsize henclosing hready hfinal hids houter =>
      rw [Frames.hop?, Frames.ancestor, henclosing, Option.bind_some, Option.elim_some]
      exact ih houter (Nat.le_of_succ_le_succ hk)

/-- There are no more steps than scopes. -/
theorem le_length_of_hop? (h : Lies fs plan ids i scopes closed)
    (hroot : fs.enclosing? globalFrame = none) (hj : fs.hop? i k = some j) : k ≤ scopes.length := by
  induction k generalizing i scopes closed with
  | zero => exact Nat.zero_le _
  | succ k ih =>
    cases h with
    | global =>
      rw [Frames.hop?, hroot] at hj
      cases hj
    | frame hlt hsize henclosing hready hfinal hids houter =>
      rw [Frames.hop?, henclosing, Option.bind_some] at hj
      exact Nat.succ_le_succ (ih houter hj)

/-- Steps lead to frames that lie at the scopes that are left. -/
theorem of_hop? (h : Lies fs plan ids i scopes closed) (hroot : fs.enclosing? globalFrame = none)
    (hj : fs.hop? i k = some j) : Lies fs plan ids j (scopes.drop k) (closed.drop k) := by
  obtain rfl := Frames.ancestor_of_hop? hj
  exact h.ancestor (h.le_length_of_hop? hroot hj)

end Lies

/-! ### Reserved words -/

section Words

variable {W : World} {ds : Distances} {plan : Plan} {m : Machine} {body : List Stmt} {e : Expr}
  {σ : Site} {ids : List Nat} {steps j : Nat}

/-- Where the nearest frame that holds a reserved word is a local one, it stands for the nearest scope
that declares the word. -/
theorem Stands.distance?_eq_of_nearest (h : Resolved ds body) (ho : Ordered W ds plan m)
    (hmet : Met body ⟨.expr e, σ⟩) (hstands : Stands plan m ids σ.scopes σ.closed) {word : Keyword}
    (hnearest : m.frames.Nearest m.current word.text steps j) (hlocal : j ≠ globalFrame) :
    σ.scopes.distance? word.text = some steps := by
  have hlies := hstands.lies.of_hop? ho.root hnearest.hop
  have hlt : steps < σ.scopes.length := by
    by_contra hge
    rw [List.drop_of_length_le (Nat.le_of_not_lt hge)] at hlies
    exact hlocal hlies.eq_global.1
  have hk := hstands.getElem?_localFrames ho hlt
  rw [Frames.ancestor_of_hop? hnearest.hop] at hk
  -- the scope of the frame declares the word from the beginning
  obtain ⟨final, hfinal, hdeclares⟩ := hstands.declares_of_holds ho hk hnearest.holds
  obtain ⟨scope, hscope, hends⟩ := (h.endAs hmet).getElem?_closed hfinal
  have hdeclared := hends.words word hdeclares
  have hsome : (σ.scopes.distance? word.text).isSome := by
    rw [Scopes.distance?, List.findIdx?_isSome, List.any_eq_true]
    exact ⟨scope, List.mem_of_getElem? hscope, hdeclared⟩
  obtain ⟨distance, hdistance⟩ := Option.isSome_iff_exists.mp hsome
  have hle := Scopes.distance?_le_of_declares hdistance hscope hdeclared
  -- the frame of a nearer scope that declares it would hold it
  have hheld : m.frames.holds (m.frames.ancestor m.current distance) word.text := by
    cases h.fits hmet with
    | expr _ houter hwords _ =>
      exact (hstands.holds_iff_not_isPending houter hdistance).mpr (hwords word)
  have hge : steps ≤ distance := by
    by_contra hnot
    have hhop := hstands.lies.hop?_eq (Nat.le_trans hle (Nat.le_of_lt hlt))
    exact hnearest.nearer distance (Nat.lt_of_not_le hnot) _ hhop hheld
  rw [hdistance, Nat.le_antisymm hle hge]

/-- The value of `this` is in the nearest frame that binds it. -/
theorem Stands.evaluate_this (h : Resolved ds body) (ho : Ordered W ds plan m) {id line : Nat}
    (hmet : Met body ⟨.expr (.this id line), σ⟩) (hstands : Stands plan m ids σ.scopes σ.closed)
    (hnearest : m.frames.Nearest m.current "this" steps j) {v : Value}
    (hbinds : m.frames.BindsOnly j "this" v) (fuel : Nat) :
    evaluate .resolved (fuel + 1) (.this id line) m = .ok v m := by
  have hlocal : j ≠ globalFrame := by
    rintro rfl
    exact ho.not_sealed_global (.inl hnearest.holds)
  have hdistance : σ.scopes.distance? "this" = some steps :=
    @Stands.distance?_eq_of_nearest _ _ _ _ _ _ _ _ _ _ h ho hmet hstands .thisWord hnearest hlocal
  have hrecorded : m.distances.get? id = some steps := by
    rw [ho.distances, h.get?_occurrence hmet rfl, hdistance]
  change Run.readVariable .resolved id ⟨"this", line⟩ m = _
  rw [Run.readVariable, Run.get_bind_apply, Run.holderOf_resolved hrecorded, hnearest.holderAt?_eq,
    Frames.readIn, hbinds.read_eq]
  rfl

end Words

/-! ### Calls -/

section Calls

variable {W : World} {ds : Distances} {last : Frames} {plan : Plan} {start m m' : Machine}
  {tap : Closure → List Value → Run Unit} {fuel : Nat} {body : List Stmt} {g : Closure}
  {arguments : List Value}

/-- If a tap passes at functions that have come about, where the frames are kept in the last ones, the
evaluators do the same with it as without. -/
theorem tapped_tracks (hpass : ∀ f arguments plan m, Ordered W ds plan m → f.Placed W m.frames plan →
      m.frames.KeptIn last → tap f arguments m = .ok () m)
    (hguides : Guides W.seen) (hcomes : ∀ node m, W.comes node m) (fuel : Nat) :
    EvaluatorsTrack W ds last (tapped tap .resolved fuel) (evaluators .resolved fuel) := by
  induction fuel with
  | zero =>
    exact ⟨fun ho _ _ => .throw ho _, fun ho _ _ => .throw ho _, fun ho _ _ _ => .throw ho _,
      fun ho _ _ => .throw ho _⟩
  | succ fuel ih =>
    refine ⟨ih.evaluateStep hguides, ih.executeStep hguides fuel (hcomes _ _), ?_,
      fun {id name _ _ _ _} ho _ _ => .readVariable ho .resolved id name⟩
    intro f arguments plan m ho hf hargs harity
    have hinvoke := ih.invokeStep hguides ho hf hargs harity
    refine ⟨fun hlast => ?_, hinvoke.leaves⟩
    have htap := hpass f arguments plan m ho hf (hinvoke.leaves.keptIn.trans hlast)
    exact (Run.bind_of_ok htap).trans (hinvoke.same hlast)

/-- A function that a run calls has come about, and sealed frames are kept to the end of the run. -/
theorem Calls.placed (hguides : Guides W.seen) (hbody : ∀ v ∈ Site.outermost.along body, W.seen v)
    (hcomes : ∀ node m, W.comes node m) (ho : Ordered W ds plan start)
    (hcurrent : start.current = globalFrame) (h : Calls fuel body start g arguments m) :
    (∃ plan', Ordered W ds plan' m ∧ g.Placed W m.frames plan') ∧
      m.frames.KeptIn (Run.framesAfter (interpret .resolved fuel body start)) := by
  by_contra hnot
  obtain ⟨stop, hstop⟩ := h
  have hpass (f : Closure) (vs : List Value) (plan' : Plan) (m' : Machine) (ho' : Ordered W ds plan' m')
      (hf : f.Placed W m'.frames plan')
      (hlast : m'.frames.KeptIn (Run.framesAfter (interpret .resolved fuel body start))) :
      tapAt g arguments m stop f vs m' = .ok () m' := by
    refine if_neg ?_
    rintro ⟨rfl, rfl, rfl⟩
    exact hnot ⟨⟨plan', ho', hf⟩, hlast⟩
  exact hstop (((tapped_tracks hpass hguides hcomes fuel).program hbody ho hcurrent).same (.refl _))

/-- From a frame inside the frame of a call, the nearest frame that holds a name is the one that the
function closes over, if that holds it and the call does not bind it, and if the name is one that
nothing in the run binds. -/
theorem Calls.nearest {node : Node} {name : String} {steps : Nat}
    (h : Calls fuel body start g arguments m) (hcomes : ComesTo fuel body start node m')
    (hname : ∀ node m, ComesTo fuel body start node m → ¬ node.Binds name)
    (hbegins : g.Begins arguments m (g.entered arguments m))
    (hparams : name ∉ g.decl.params.map Name.text) (hlt : m.frames.size < m'.frames.size)
    (hsteps : m'.frames.StepsTo m'.current name steps m.frames.size)
    (hholds : m'.frames.holds g.frame name) :
    m'.frames.Nearest m'.current name (steps + 1) g.frame := by
  obtain ⟨log, hlog, hcourse⟩ := exists_course .resolved fuel body start
  have hpairwise := hcourse.pairwise_changes_next (Set.empty_subset {p | p ∈ log}) fun _ => id
  obtain ⟨a, ha, hcall⟩ := List.getElem_of_mem (hlog.calls_iff.mpr h)
  obtain ⟨b, hb, hnode⟩ := List.getElem_of_mem (hlog.comesTo_iff.mpr hcomes)
  have horder := List.pairwise_iff_getElem.mp hpairwise
  -- the frame of the call is there, so the call has begun before
  have hchanges : Frames.Changes {p | p ∈ log} (g.entered arguments m).frames m'.frames := by
    rcases Nat.lt_trichotomy a b with hab | rfl | hba
    · have hafter := horder a b ha hb hab
      rwa [hcall, hnode] at hafter
    · cases hcall.symm.trans hnode
    · have hbefore := horder b a hb ha hba
      rw [hcall, hnode] at hbefore
      have hsize := ((Event.node node).linkedIn_next m').trans (Frames.Changes.linkedIn hbefore)
      exact absurd hsize.size (Nat.not_le.mpr hlt)
  have henclosing := (Frames.Changes.linkedIn hchanges).enclosing?_some hbegins.enclosing
  have hnew : m.frames.size < (g.entered arguments m).frames.size := by
    rw [hbegins.size]
    exact Nat.lt_succ_self _
  refine hsteps.nearest (fun hheld => hparams (hbegins.bindsOnly name ?_)) henclosing hholds
  rw [Frames.holds, hchanges.slot?_eq (fun node m hmet => hname node m (hlog.comesTo_iff.mp hmet))
    hnew] at hheld
  exact hheld

end Calls

end Treewalk
