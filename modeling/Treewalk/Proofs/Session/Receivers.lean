import Treewalk.Proofs.Scope.Classes
import Treewalk.Proofs.Session.Scoping

/-!
# Receivers and superclasses

Over a whole history of runs a frame that binds `this` binds an object and nothing else, and a frame
that binds `super` binds the class that the superclass of a declaration had as its value, and nothing
else. Such frames are never written again.

Where a run comes to `super`, the frame at the recorded distance was made for the innermost class
around it, and the frame just inside of that one binds `this` to an object that has the method around
`super` from this class. So the method that `super` denotes is looked for in the right class and is
bound to the right object.

## Main definitions

* `Session.Execution.Passes`: the machines of an execution.
* `Session.Derivation`: the execution of the declaration of a class with a superclass.

## Main results

* `Session.After.fits`: sealed frames over a history.
* `Session.receivers_and_superclasses`: what `this` and `super` denote.
-/

namespace Treewalk

namespace Run

/-- The machine that a computation leaves, however it ends. -/
def machineAfter {α : Type} : EStateM.Result Interrupt Machine α → Machine
  | .ok _ m => m
  | .error _ m => m

theorem frames_machineAfter {α : Type} (r : EStateM.Result Interrupt Machine α) :
    (machineAfter r).frames = framesAfter r := by
  cases r <;> rfl

/-- Whether a computation ends normally. -/
def ends {α : Type} : EStateM.Result Interrupt Machine α → Bool
  | .ok _ _ => true
  | .error _ _ => false

/-- What `super` denotes where the frame at the recorded distance binds a class, and the frame just
inside of it an object. -/
theorem superMethod_eq {m : Machine} {id distance line parent : Nat} {method : Name}
    {receiver : Value} (hdistance : m.distances.get? id = some (distance + 1))
    (hsuper : m.frames.BindsOnly (m.frames.ancestor m.current (distance + 1)) "super" (.cls parent))
    (hthis : m.frames.BindsOnly (m.frames.ancestor m.current distance) "this" receiver) :
    superMethod id line method m =
      match m.findMethod? parent method.text with
      | some g => .ok (.function ⟨m.closures, g.decl, m.frames.size, g.isInitializer⟩)
          { m with
            frames := m.frames.addBinding g.frame "this" receiver
            closures := m.closures + 1 }
      | none => .error (.raised ⟨.undefinedProperty method.text, method.line⟩) m := by
  have hparent : m.frames.getAt m.current (distance + 1) "super" = .ok (.cls parent) := by
    rw [Frames.getAt, Frames.holderAt?, if_pos (hsuper.holds_iff.mpr rfl), Frames.readIn,
      hsuper.read_eq]
  have hreceiver : m.frames.getAt m.current distance "this" = .ok receiver := by
    rw [Frames.getAt, Frames.holderAt?, if_pos (hthis.holds_iff.mpr rfl), Frames.readIn,
      hthis.read_eq]
  rw [superMethod, get_bind_apply, hdistance]
  simp only [hparent, checked, Nat.add_sub_cancel, hreceiver]
  cases hg : m.findMethod? parent method.text with
  | none => simp only [bind_apply, pure, EStateM.pure, hg]; rfl
  | some g => simp only [bind_apply, pure, EStateM.pure, hg]; rfl

end Run

/-- The occurrences of `super`. -/
def Node.isSuper : Node → Bool
  | .expr (.super _ _ _) => true
  | _ => false

namespace Session

/-! ### Sealed frames over a history -/

/-- The machines of an execution: it begins on one, comes to nodes on others, and leaves one. -/
inductive Execution.Passes (x : Execution) : Machine → Prop
  | start : Passes x x.start
  | moment {node : Node} {m : Machine} (h : ComesTo x.fuel x.body x.start node m) : Passes x m
  | last : Passes x (Run.machineAfter (interpret .resolved x.fuel x.body x.start))

/-- The machines of an execution are in order, it comes to visits of the history, and sealed frames
are kept in the last ones. -/
structure Execution.Fits (W : World) (last : Frames) (x : Execution) : Prop where
  ordered : ∀ {m : Machine}, x.Passes m → ∃ ds plan, Ordered W ds plan m
  seen : ∀ {node : Node} {m : Machine}, ComesTo x.fuel x.body x.start node m →
    ∃ σ, W.seen ⟨node, σ⟩
  kept : ∀ {m : Machine}, x.Passes m → m.frames.KeptIn last

variable {bodies : List (List Stmt)} {comes : Node → Machine → Prop} {history : List Execution}
  {s prepared : Session} {source : String} {body : List Stmt} {fuel : Nat} {m : Machine}

theorem Execution.Fits.mono {W W' : World} {last last' : Frames} {x : Execution}
    (h : x.Fits W last) (hseen : ∀ v, W.seen v → W'.seen v)
    (hcomes : ∀ node m, W.comes node m → W'.comes node m) (hlast : last.KeptIn last') :
    x.Fits W' last' where
  ordered hm := by
    obtain ⟨ds, plan, ho⟩ := h.ordered hm
    exact ⟨ds, plan, ho.of_seen hseen hcomes⟩
  seen hm := by
    obtain ⟨σ, hσ⟩ := h.seen hm
    exact ⟨σ, hseen _ hσ⟩
  kept hm := (h.kept hm).trans hlast

theorem Accepts.frames_eq (ha : s.Accepts source body prepared) :
    prepared.machine.frames = s.machine.frames := by
  have hprepare := ha.prepared_eq
  rw [prepare_eq] at hprepare
  cases hprepare
  rfl

/-- The execution of an accepted program. -/
theorem Steady.fits (h : Steady bodies comes s) (ha : s.Accepts source body prepared)
    (hcomes : ∀ node m, ComesTo fuel body prepared.machine node m → comes node m) :
    (⟨prepared.machine, fuel, body⟩ : Execution).Fits ⟨SeenIn (body :: bodies), comes⟩
      (Run.framesAfter (interpret .resolved fuel body prepared.machine)) := by
  have hsteady := h.accept ha
  obtain ⟨plan, ho⟩ := hsteady.ordered
  have hleaves := interpret_leaves (guides_seenIn hsteady.resolved)
    (Steady.seenIn_along List.mem_cons_self) hcomes ho hsteady.current
  have hlast : ∃ plan', Ordered ⟨SeenIn (body :: bodies), comes⟩ prepared.machine.distances plan'
      (Run.machineAfter (interpret .resolved fuel body prepared.machine)) := by
    cases hresult : interpret .resolved fuel body prepared.machine with
    | ok a m' =>
      rw [hresult] at hleaves
      obtain ⟨plan', hf, -⟩ := hleaves
      exact ⟨plan', hf.ordered⟩
    | error e m' =>
      rw [hresult] at hleaves
      obtain ⟨plan', hf⟩ := hleaves
      exact ⟨plan', hf.ordered⟩
  refine ⟨fun hm => ?_, fun hm => ?_, fun hm => ?_⟩
  · cases hm with
    | start => exact ⟨_, plan, ho⟩
    | moment hm =>
      obtain ⟨plan', σ, ho', -⟩ := (h.aligned ha hcomes hm).1
      exact ⟨_, plan', ho'⟩
    | last =>
      obtain ⟨plan', ho'⟩ := hlast
      exact ⟨_, plan', ho'⟩
  · obtain ⟨plan', σ, -, hσ, -⟩ := (h.aligned ha hcomes hm).1
    exact ⟨σ, hσ⟩
  · cases hm with
    | start => exact hleaves.keptIn
    | moment hm => exact (h.aligned ha hcomes hm).2
    | last =>
      rw [Run.frames_machineAfter]
      exact .refl _

/-- Where all executions of a history fit, so does that of a text that is accepted after it. -/
theorem After.fits_cons (h : After history s)
    (hfits : ∀ x ∈ history, x.Fits ⟨SeenIn (history.map (·.body)), Came history⟩ s.machine.frames)
    (ha : s.Accepts source body prepared) (fuel : Nat) :
    ∀ x ∈ ⟨prepared.machine, fuel, body⟩ :: history,
      x.Fits ⟨SeenIn (body :: history.map (·.body)),
          Came (⟨prepared.machine, fuel, body⟩ :: history)⟩
        (Run.framesAfter (interpret .resolved fuel body prepared.machine)) := by
  have hsteady := h.steady.of_comes fun _ _ => Came.cons ⟨prepared.machine, fuel, body⟩
  have hnew := hsteady.fits ha fun _ _ => Came.of_comesTo history
  have hkept := hnew.kept .start
  rw [ha.frames_eq] at hkept
  refine List.forall_mem_cons.mpr ⟨hnew, fun x hx => (hfits x hx).mono ?_ ?_ hkept⟩
  · rintro v ⟨b, hb, hv⟩
    exact ⟨b, List.mem_cons_of_mem _ hb, hv⟩
  · exact fun _ _ => .cons _

/-- All executions of a history fit. -/
theorem After.fits (h : After history s) : ∀ x ∈ history,
    x.Fits ⟨SeenIn (history.map (·.body)), Came history⟩ s.machine.frames := by
  induction h with
  | start => exact fun x hx => absurd hx List.not_mem_nil
  | @accepted history s s' prepared source body fuel status h ha hrun ih =>
    have hfits := h.fits_cons ih ha fuel
    rw [ha.run_eq] at hrun
    have hframes : Run.framesAfter (interpret .resolved fuel body prepared.machine) =
        s'.machine.frames := by
      rcases (Steady.machine_of_execute hrun).2 with hm | ⟨e, hm⟩ <;> rw [hm] <;> rfl
    rwa [hframes] at hfits
  | @rejected history s s' source fuel status _ hrejected hrun ih =>
    have hframes : s'.machine.frames = s.machine.frames := by
      rcases eq_of_not_accepts hrejected hrun with rfl | rfl <;> rfl
    rwa [hframes]
  | takeOutput _ ih => exact ih
  | takeReports _ ih => exact ih

/-! ### Superclasses -/

/-- The execution of the declaration of a class with a superclass. It begins on a machine on which
the superclass has a class as its value, and goes on to make a frame and a class. -/
structure Derivation (history : List Execution) where
  /-- The name of the class. -/
  name : Name
  /-- Its superclass. -/
  superclass : Superclass
  /-- Its methods. -/
  methods : List FunctionDecl
  /-- The machine on which the declaration begins to be executed. -/
  start : Machine
  /-- The class that the superclass has as its value there. -/
  parent : Nat
  came : Came history (.stmt (.class name (some superclass) methods)) start
  value : evaluate .resolved 1 superclass.expr start = .ok (.cls parent) start

namespace Derivation

/-- The frame that is made for the superclass. -/
def frame (δ : Derivation history) : Nat :=
  δ.start.frames.size

/-- The class that is made. -/
def made (δ : Derivation history) : Nat :=
  δ.start.classes.size

theorem exists_of_declares {seen : Visit → Prop} {methods : List FunctionDecl} {c i k : Nat}
    (h : World.Declares ⟨seen, Came history⟩ methods c i k) :
    ∃ δ : Derivation history, δ.methods = methods ∧ δ.parent = c ∧ δ.frame = i ∧ δ.made = k := by
  obtain ⟨name, superclass, start, hcame, hread, rfl, rfl⟩ := h
  refine ⟨⟨name, superclass, methods, start, c, hcame, ?_⟩, rfl, rfl, rfl, rfl⟩
  rw [evaluate_succ, Superclass.expr, evaluateStep, Run.readVariable, Run.get_bind_apply, hread]
  rfl

end Derivation

/-- What `super` denotes at a node of a program. The innermost class around the node is that of a
method `decl` of a derivation: the frame at the distance of the node binds `super` to the superclass
that the derivation has found, and the frame just inside of it binds `this` to an object that has the
method from the class that the derivation has made. -/
structure SuperAt (history : List Execution) (bodies : List (List Stmt)) (m : Machine)
    (id line : Nat) (method : Name) (δ : Derivation history) (distance receiver : Nat) : Prop where
  contains : ∃ b ∈ bodies, ∃ (σ τ : Site) (decl : FunctionDecl),
    Visited b ⟨.stmt (.class δ.name (some δ.superclass) δ.methods), σ⟩ ∧ decl ∈ δ.methods ∧
    Visit.Directly ⟨.routine decl, σ.ofMethod δ.name (some δ.superclass) decl⟩
      ⟨.expr (.super id line method), τ⟩ ∧
    ∃ f : Closure, f.decl = decl ∧ f.frame = δ.frame ∧ m.Inherits receiver f δ.made δ.parent
  distance_eq : m.distances.get? id = some (distance + 1)
  frame_eq : m.frames.ancestor m.current (distance + 1) = δ.frame
  binds_super : m.frames.BindsOnly δ.frame "super" (.cls δ.parent)
  binds_this : m.frames.BindsOnly (m.frames.ancestor m.current distance) "this" (.object receiver)

section Super

variable {plan : Plan} {σ : Site} {ids : List Nat} {id line : Nat} {method : Name}

/-- Where a program that breaks no rule has an occurrence of `super`, the scope at its distance
declares `super`, and the one just inside of it `this`. -/
theorem Steady.super_scopes (h : Steady bodies comes s) {b : List Stmt} (hb : b ∈ bodies)
    (hv : Visited b ⟨.expr (.super id line method), σ⟩) : σ.context.cls = .derived ∧
      ∃ distance inner outer, σ.scopes.distance? "super" = some (distance + 1) ∧
        s.machine.distances.get? id = some (distance + 1) ∧
        σ.scopes[distance]? = some inner ∧ inner.isReady "this" ∧
        σ.scopes[distance + 1]? = some outer ∧ outer.isReady "super" := by
  have hclean := (h.resolved b hb).not_mem_own hv
  have hcls : σ.context.cls = .derived := by
    cases hcls : σ.context.cls with
    | derived => rfl
    | nothing | base =>
      refine absurd ?_ (hclean ⟨⟨"super", line⟩, ?_⟩)
      · simp only [Visit.own, Expr.own, Expr.findings, hcls, Finding.at]
        exact List.mem_singleton_self _
  obtain ⟨scope, hscope, hdeclares⟩ : ∃ scope ∈ σ.scopes.tail, scope.declares "super" := by
    rcases hv.declares_super hcls with hsuper | ⟨_, _, ⟨⟩⟩
    exact hsuper
  have hsome : (σ.scopes.distance? "super").isSome := by
    rw [Scopes.distance?, List.findIdx?_isSome, List.any_eq_true]
    exact ⟨scope, List.mem_of_mem_tail hscope, hdeclares⟩
  obtain ⟨hops, hhops⟩ := Option.isSome_iff_exists.mp hsome
  cases hv.fits (h.resolved b hb).proper with
  | expr hpaired houter _ _ =>
    obtain ⟨distance, inner, rfl, hinner, hthis⟩ := hpaired.this_of_super hhops
    obtain ⟨hlt, houtmost, -⟩ := List.findIdx?_eq_some_iff_getElem.mp hhops
    refine ⟨hcls, distance, inner, σ.scopes[distance + 1], hhops, ?_, hinner, hthis,
      List.getElem?_eq_getElem hlt, ?_⟩
    · rw [(h.resolved b hb).get?_occurrence (.visit hv) rfl, hhops]
    · refine houter _ ?_ "super" houtmost
      rw [← List.drop_one, List.mem_drop_iff_getElem]
      exact ⟨distance, by omega, by simp [Nat.add_comm]⟩

/-- Where a run comes to an occurrence of `super`. -/
theorem Steady.superAt {history : List Execution} (h : Steady bodies (Came history) s)
    (hcame : ∀ {node : Node} {m : Machine}, Came history node m → ∃ σ, SeenIn bodies ⟨node, σ⟩)
    (ho : Ordered ⟨SeenIn bodies, Came history⟩ s.machine.distances plan m)
    (hseen : SeenIn bodies ⟨.expr (.super id line method), σ⟩)
    (hstands : Stands plan m (Visit.ids ⟨.expr (.super id line method), σ⟩) σ.scopes σ.closed) :
    ∃ δ distance receiver, SuperAt history bodies m id line method δ distance receiver := by
  obtain ⟨b, hb, hmet⟩ := hseen
  have hvisited := hmet.visited_of_ne nofun
  obtain ⟨hcls, distance, inner, outer, hdistance, hrecorded, hinner, hthis, houter, hsuper⟩ :=
    h.super_scopes hb hvisited
  have hlt := (List.getElem?_eq_some_iff.mp houter).1
  -- the frames that stand for the two scopes
  have hthis := hstands.lies.holds_ancestor hinner hthis
  have hsuper := hstands.lies.holds_ancestor houter hsuper
  have hlies := hstands.lies.ancestor (Nat.le_of_lt (Nat.lt_of_succ_lt hlt))
  rw [List.drop_eq_getElem_cons (Nat.lt_of_succ_lt hlt)] at hlies
  obtain ⟨j, rest, -, -, -, henclosing, -, hids, hlies⟩ := hlies.innermost
  obtain rfl : m.frames.ancestor m.current (distance + 1) = j := by
    rw [Frames.ancestor_succ, henclosing, Option.getD_some]
  obtain ⟨o, f, k, p, hinherits, hframe, hbinds, hbinds', hsub, methods, hmem, hdeclares⟩ :=
    ho.inherits hthis henclosing hsuper
  obtain ⟨δ, rfl, rfl, hδ, rfl⟩ := Derivation.exists_of_declares hdeclares
  have hid : id ∈ f.decl.ids := hsub (hids (List.mem_singleton_self id))
  -- the method of the derivation is a function of the same program
  obtain ⟨τ, b', hb', hmet'⟩ := hcame δ.came
  have hclass := hmet'.visited_of_ne nofun
  have hroutine := hclass.part
    (List.mem_append_right _ (List.mem_map_of_mem hmem) : (⟨.routine f.decl,
      τ.ofMethod δ.name (some δ.superclass) f.decl⟩ : Visit) ∈ Visit.parts ⟨_, τ⟩)
  obtain rfl := h.body_unique hb hb' (hvisited.ids_subset (List.mem_singleton_self id))
    (hroutine.ids_subset hid)
  have hwithin := (Visited.within_or_within (h.resolved b hb).recorded.nodup hroutine hvisited hid
    (List.mem_singleton_self id)).resolve_right fun hwithin => by
      obtain ⟨e, he⟩ := hwithin.exists_expr
      cases he
  -- it lies as far out as the frame just inside of the one that binds `super`
  obtain ⟨name, hmethod⟩ := hinherits.method
  obtain ⟨ρ, outer', closed, ⟨b'', hb'', hmet''⟩, hscopes, -, hlies'⟩ := ho.methods _ name f hmethod
  obtain ⟨rfl, heq⟩ := h.unique hb hb'' hroutine (hmet''.visited_of_ne nofun) rfl
    (List.ne_nil_of_mem hid)
  cases heq
  have hlength := (hframe ▸ hlies').length_unique hlies
  have hdirectly := hwithin.directly_super hcls hdistance (by
    rw [hscopes, List.length_cons, hlength, List.length_drop]
    omega)
  refine ⟨δ, distance, o, ⟨b, hb, τ, σ, f.decl, hclass, hmem, hdirectly, f, rfl, ?_, hinherits⟩,
    by rw [ho.distances, hrecorded], hδ.symm, hδ ▸ hbinds', hbinds⟩
  rw [hframe, hδ]

/-- Where the execution of an accepted text comes to an occurrence of `super`. -/
theorem After.exists_superAt (hs : After history s) (ha : s.Accepts source body prepared)
    (hm : ComesTo fuel body prepared.machine (.expr (.super id line method)) m) :
    ∃ (δ : Derivation (⟨prepared.machine, fuel, body⟩ :: history)) (distance receiver : Nat),
      SuperAt _ (body :: history.map (·.body)) m id line method δ distance receiver := by
  have hfits := hs.fits_cons hs.fits ha fuel
  have hsteady := hs.steady.of_comes fun _ _ => Came.cons ⟨prepared.machine, fuel, body⟩
  obtain ⟨plan, σ, ho, hseen, hstands⟩ :=
    (hsteady.aligned ha (fun _ _ => Came.of_comesTo history) hm).1
  have hcame {node : Node} {m : Machine}
      (hm : Came (⟨prepared.machine, fuel, body⟩ :: history) node m) :
      ∃ σ, SeenIn (body :: history.map (·.body)) ⟨node, σ⟩ := by
    obtain ⟨y, hy, hm⟩ := hm
    exact (hfits y hy).seen hm
  exact (hsteady.accept ha).superAt hcame ho hseen hstands

end Super

/-- What `this` and `super` denote. After any history, on all machines of the execution of an accepted
text and of those before it, a frame that binds `this` binds an object, a frame that binds `super`
binds the class that a derivation has found, and neither binds anything else; all these machines agree
about the slots of such frames. Wherever the execution comes to `super`, the frames at the recorded
distance and just inside of it are those of the innermost class around the node and of the receiver.
So the evaluation ends with the method of the superclass, bound to the receiver, unless there is
none. -/
theorem receivers_and_superclasses (hs : After history s) (ha : s.Accepts source body prepared)
    {x : Execution} (hx : x ∈ ⟨prepared.machine, fuel, body⟩ :: history) (hm : x.Passes m) :
    (∀ i, m.frames.holds i "this" →
      ∃ o c, m.classOf? o = some c ∧ m.frames.BindsOnly i "this" (.object o)) ∧
    (∀ i, m.frames.holds i "super" →
      ∃ δ : Derivation (⟨prepared.machine, fuel, body⟩ :: history),
        i = δ.frame ∧ m.frames.BindsOnly i "super" (.cls δ.parent)) ∧
    (∀ y ∈ ⟨prepared.machine, fuel, body⟩ :: history, ∀ m', y.Passes m' →
      ∀ i, m.frames.Sealed i → i < m'.frames.size →
        ∀ name, m'.frames.slot? i name = m.frames.slot? i name) ∧
    ∀ id line method, ComesTo fuel body prepared.machine (.expr (.super id line method)) m →
      ∃ (δ : Derivation (⟨prepared.machine, fuel, body⟩ :: history)) (distance receiver : Nat),
        SuperAt _ (body :: history.map (·.body)) m id line method δ distance receiver ∧
        ∀ depth, evaluate .resolved (depth + 1) (.super id line method) m =
          match m.findMethod? δ.parent method.text with
          | some g => .ok (.function ⟨m.closures, g.decl, m.frames.size, g.isInitializer⟩)
              { m with
                frames := m.frames.addBinding g.frame "this" (.object receiver)
                closures := m.closures + 1 }
          | none => .error (.raised ⟨.undefinedProperty method.text, method.line⟩) m := by
  have hfits := hs.fits_cons hs.fits ha fuel
  obtain ⟨ds, plan, ho⟩ := (hfits x hx).ordered hm
  refine ⟨fun i hi => ?_, fun i hi => ?_, fun y hy m' hm' i hi hlt name => ?_,
    fun id line method hcomes => ?_⟩
  · obtain ⟨_, f, hbinds, ⟨o, c, k, name, rfl, hc, -, -⟩, -⟩ := ho.receivers i hi
    exact ⟨o, c, hc, hbinds⟩
  · obtain ⟨-, c, -, hbinds, methods, k, hdeclares⟩ := ho.supers i hi
    obtain ⟨δ, -, rfl, rfl, -⟩ := Derivation.exists_of_declares hdeclares
    exact ⟨δ, rfl, hbinds⟩
  · exact ((hfits x hx).kept hm).slot?_eq ((hfits y hy).kept hm') hi hlt name
  · obtain ⟨δ, distance, receiver, hsuper⟩ := hs.exists_superAt ha hcomes
    have hbinds := hsuper.frame_eq ▸ hsuper.binds_super
    exact ⟨δ, distance, receiver, hsuper, fun _ =>
      Run.superMethod_eq hsuper.distance_eq hbinds hsuper.binds_this⟩

/-- A class that calls a method of its superclass. -/
def inheritingText : String :=
  "class A \x7b f() \x7b\x7d \x7d class B < A \x7b g() \x7b super.f(); \x7d \x7d B().g();"

/-- The program of `inheritingText`, and the session that executes it. -/
def inheriting : List Stmt × Session :=
  (Session.start (fun _ => 0) []).prepare inheritingText

theorem accepts_inheriting : (Session.start (fun _ => 0) []).Accepts inheritingText
    inheriting.1 inheriting.2 where
  prepared_eq := rfl
  no_reports := by decide +kernel

theorem comesTo_inheriting : ∃ id line method m, ComesTo 20 inheriting.1 inheriting.2.machine
    (.expr (.super id line method)) m := by
  have hstops : Run.ends (interpretProbed (stopAtKind Node.isSuper .outOfFuel) .resolved 20
      inheriting.1 inheriting.2.machine) = false := by decide +kernel
  have hends : Run.ends (interpret .resolved 20 inheriting.1 inheriting.2.machine) = true := by
    decide +kernel
  have hne : interpretProbed (stopAtKind Node.isSuper .outOfFuel) .resolved 20 inheriting.1
      inheriting.2.machine ≠ interpret .resolved 20 inheriting.1 inheriting.2.machine := by
    intro heq
    rw [heq, hends] at hstops
    cases hstops
  obtain ⟨node, m, hkind, hm⟩ := ComesTo.exists_of_kind hne
  match node with
  | .expr (.super id line method) => exact ⟨id, line, method, m, hm⟩

theorem receivers_and_superclasses_inheriting : ∃ id line method m δ distance receiver,
    SuperAt [⟨inheriting.2.machine, 20, inheriting.1⟩] [inheriting.1] m id line method δ distance
      receiver ∧ m.frames.BindsOnly δ.frame "super" (.cls δ.parent) := by
  obtain ⟨id, line, method, m, hm⟩ := comesTo_inheriting
  obtain ⟨-, -, -, hsuper⟩ := receivers_and_superclasses (.start (fun _ => 0) []) accepts_inheriting
    List.mem_cons_self (.moment hm)
  obtain ⟨δ, distance, receiver, hat, -⟩ := hsuper id line method hm
  exact ⟨id, line, method, m, δ, distance, receiver, hat, hat.binds_super⟩

end Session

end Treewalk
