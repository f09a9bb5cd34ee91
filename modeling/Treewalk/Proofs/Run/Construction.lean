import Treewalk.Proofs.Run.Arguments
import Treewalk.Proofs.Run.Founded

/-!
# Objects and their initializers

A class makes an object that nothing stored on the machine refers to, since all objects that are stored
have been made before. The object keeps its class, whatever is done to it.

An initializer is bound to an object if the frame that it closes over binds `this` to it. However its
body ends, unless it fails, the call gives this object: the frame is sealed, so the body has not
changed it.

## Main definitions

* `Machine.Stores`: the values in variables and fields.
* `Closure.Initializes`: initializers that are bound to an object.
* `handBack`: a call that gives a certain value however the body ends.

## Main results

* `invoke_keeps`: objects keep their classes in a call.
* `Closure.Initializes.invoke_eq`: the call of an initializer.
* `Ordered.exists_initializes`: every initializer that has come about is bound to an object.
* `Ordered.enters`: a body is entered on a machine in order.
-/

namespace Treewalk

/-! ### Classes of objects -/

theorem Machine.Keeps.trans {m m' m'' : Machine} (h : Keeps m m') (h' : Keeps m' m'') :
    Keeps m m'' where
  size := Nat.le_trans h.size h'.size
  superclass k hk := (h'.superclass k (Nat.lt_of_lt_of_le hk h.size)).trans (h.superclass k hk)
  method k hk name := (h'.method k (Nat.lt_of_lt_of_le hk h.size) name).trans (h.method k hk name)
  classOf o c hc := h'.classOf o c (h.classOf o c hc)

section Course

variable {met : Set Moment} {m m' : Machine} {log : List Moment}

theorem Action.keeps (h : Action met m m') : m.Keeps m' := by
  cases h with
  | cls _ info => exact .addClass m info
  | object _ c => exact .addObject m _
  | field _ i name v => exact .setField m i name v
  | update | leave | closure => exact .of_eq rfl rfl

theorem Event.keeps_next (event : Event) (m : Machine) : m.Keeps (event.next m) := by
  match event with
  | .node (.stmt s) => cases s <;> exact .of_eq rfl rfl
  | .node (.expr _) | .node (.routine _) | .call _ _ => exact .of_eq rfl rfl
  | .native n arguments line =>
    cases n with
    | readLine =>
      have hafter : (Event.native .readLine arguments line).next m =
          { m with input := (Line.read m.input).2 } := Run.after_readLine line m
      rw [hafter]
      exact .of_eq rfl rfl
    | clock | print | printLine => exact .of_eq rfl rfl

/-- Along a course classes are only added, and objects keep their classes. -/
theorem Course.keeps (h : Course met m log m') : m.Keeps m' := by
  induction h with
  | done => exact .of_eq rfl rfl
  | act h _ ih => exact h.keeps.trans ih
  | event event _ _ ihInner ih => exact ((event.keeps_next _).trans ihInner).trans ih

end Course

theorem invoke_keeps (lookup : Lookup) (fuel : Nat) (g : Closure) (arguments : List Value)
    (m : Machine) : m.Keeps ((invoke lookup fuel g arguments).after m) := by
  obtain ⟨log, -, hcourse, -⟩ := (watched_unfolding lookup fuel).invoke m g arguments
  simp only [watched_pure] at hcourse
  exact hcourse.keeps

/-! ### New objects -/

/-- A variable or a field has a value. -/
def Machine.Stores (m : Machine) (v : Value) : Prop :=
  (∃ i name, m.frames.slot? i name = some (some v)) ∨ ∃ i name, m.field? i name = some v

namespace Machine.Founded

variable {came : Node → Machine → Prop} {m : Machine}

/-- An object that is yet to be made is stored nowhere. -/
theorem not_stores (h : m.Founded came) {o : Nat} (ho : m.objects.size ≤ o) :
    ¬ m.Stores (.object o) := by
  rintro (⟨i, name, hv⟩ | ⟨i, name, hv⟩)
  · exact absurd (h.slots i name _ hv) (Nat.not_lt.mpr ho)
  · exact absurd (h.fields i name _ hv) (Nat.not_lt.mpr ho)

/-- A method is an initializer by the name under which it is found. -/
theorem isInitializer_eq (h : m.Founded came) {c : Nat} {name : String} {f : Closure}
    (hf : m.findMethod? c name = some f) : f.isInitializer = (name == initializerName) := by
  obtain ⟨k, -, hf⟩ := List.exists_of_findSome?_eq_some hf
  obtain ⟨δ, hδ⟩ := h.classes k (Machine.lt_size_of_ownMethod? hf)
  exact (hδ.ownMethod?_eq_some.mp hf).isInitializer

end Machine.Founded

/-- The evaluators keep a machine founded, whichever moments are known. -/
theorem evaluators_uphold (fuel : Nat) : EvaluatorsUphold (fun _ _ => True)
    (evaluators .resolved fuel) (evaluators .resolved fuel) := by
  have huphold : EvaluatorsUphold (fun _ _ => True) (probed (fun _ => pure ()) .resolved fuel)
      (probed (fun _ => pure ()) .resolved fuel) :=
    probed_uphold (fun _ _ => .inl ⟨rfl, trivial⟩) (fun _ _ _ => rfl) fuel
  rwa [probed_pure] at huphold

section Known

variable {fuel : Nat} {e : Expr} {es : List Expr} {v : Value} {vs : List Value} {m m' : Machine}

/-- The value of an expression is known. -/
theorem Machine.Founded.of_evaluate (h : m.Founded fun _ _ => True)
    (hv : evaluate .resolved fuel e m = .ok v m') : m'.Founded (fun _ _ => True) ∧ v.KnownOn m' := by
  have hleaves := ((evaluators_uphold fuel).evaluate (e := e) h).leaves
  change Uphold _ _ _ (evaluate .resolved fuel e m) at hleaves
  rw [hv] at hleaves
  exact ⟨hleaves.1, hleaves.2.2.2⟩

/-- The values of arguments are known. -/
theorem Machine.Founded.of_evaluateAll (h : m.Founded fun _ _ => True)
    (hvs : evaluateAll (evaluate .resolved fuel) es m = .ok vs m') :
    m'.Founded (fun _ _ => True) ∧ ∀ v ∈ vs, v.KnownOn m' := by
  have hleaves := ((evaluators_uphold fuel).evaluateAll es h).leaves
  change Uphold _ _ _ (evaluateAll (evaluate .resolved fuel) es m) at hleaves
  rw [hvs] at hleaves
  exact ⟨hleaves.1, hleaves.2.2.2⟩

end Known

/-! ### Initializers -/

/-- An initializer is bound to an object. -/
structure Closure.Initializes (g : Closure) (o : Nat) (m : Machine) : Prop where
  isInitializer : g.isInitializer = true
  binds : m.frames.BindsOnly g.frame "this" (.object o)

/-- A call that gives a certain value, in whichever way the body ends without a fault. The frame of
before is current again. -/
def handBack (v : Value) (current : Nat) :
    EStateM.Result Interrupt Machine Flow → EStateM.Result Interrupt Machine Value
  | .ok _ m => .ok v { m with current := current }
  | .error e m => .error e { m with current := current }

theorem eq_of_handBack {v w : Value} {current : Nat} {r : EStateM.Result Interrupt Machine Flow}
    {m' : Machine} (h : handBack v current r = .ok w m') : w = v := by
  cases r with
  | ok flow m =>
    cases h
    rfl
  | error e m => cases h

namespace Closure.Initializes

variable {g : Closure} {o o' : Nat} {m m' : Machine}

theorem unique (h : g.Initializes o m) (h' : g.Initializes o' m) : o = o' := by
  have heq := h.binds.slot?_eq.symm.trans h'.binds.slot?_eq
  cases heq
  rfl

theorem of_frames (h : g.Initializes o m) (hframes : m'.frames = m.frames) : g.Initializes o m' :=
  ⟨h.isInitializer, hframes ▸ h.binds⟩

theorem lt_size (h : g.Initializes o m) : g.frame < m.frames.size :=
  Frames.lt_size_of_holds (h.binds.holds_iff.mpr rfl)

theorem sealed (h : g.Initializes o m) : m.frames.Sealed g.frame :=
  .inl (h.binds.holds_iff.mpr rfl)

/-- An initializer stays bound to its object where sealed frames are kept. -/
theorem kept (h : g.Initializes o m) (hkept : m.frames.KeptIn m'.frames) : g.Initializes o m' :=
  ⟨h.isInitializer, h.binds.of_slots (hkept.slots _ h.lt_size (.inl h.sealed))⟩

theorem receiverOf_eq (h : g.Initializes o m) : receiverOf g m = .ok (.object o) m := by
  have hread : m.frames.getAt g.frame 0 "this" = .ok (.object o) := by
    rw [Frames.getAt, Frames.holderAt?, Frames.ancestor, if_pos (h.binds.holds_iff.mpr rfl),
      Frames.readIn, h.binds.read_eq]
  rw [receiverOf, Run.get_bind_apply, hread]
  rfl

/-- The call of an initializer gives the object to which it is bound, however its body ends. -/
theorem invoke_eq (h : g.Initializes o m) {fuel : Nat} {arguments : List Value}
    (hkept : m.frames.KeptIn ((invoke .resolved (fuel + 1) g arguments).after m).frames) :
    invoke .resolved (fuel + 1) g arguments m = handBack (.object o) m.current
      (executeAll (execute .resolved fuel) g.decl.body (g.entered arguments m)) := by
  rw [frames_after_invoke] at hkept
  rw [invoke_succ_apply]
  cases hbody : executeAll (execute .resolved fuel) g.decl.body (g.entered arguments m) with
  | ok flow m₁ =>
    rw [Run.after_of_ok hbody] at hkept
    have hlast : g.Initializes o { m₁ with current := m.current } :=
      (h.kept hkept).of_frames rfl
    rw [h.isInitializer]
    exact hlast.receiverOf_eq
  | error e m₁ => rfl

end Closure.Initializes

/-- A method that is found under the name of initializers, bound to an object. -/
theorem Closure.initializes_boundOn {f : Closure} (hf : f.isInitializer = true) (m : Machine)
    (o : Nat) : (f.boundOn m).Initializes o (m.withBound f (.object o)) :=
  ⟨hf, m.frames.bindsOnly_addBinding f.frame "this" (.object o)⟩

/-! ### Machines in order -/

/-- The frames of before are kept in those that a computation leaves. -/
theorem Leaves.keptIn_after {α : Type} {W : World} {ds : Distances} {grows : Nat → Prop} {plan : Plan}
    {m : Machine} {Q : α → Plan → Machine → Prop} {x : Run α} (h : Leaves W ds grows plan m Q (x m)) :
    m.frames.KeptIn (x.after m).frames := by
  have hkept := h.keptIn
  unfold Run.after
  rcases hx : x m with ⟨a, m'⟩ | ⟨e, m'⟩
  · rwa [hx] at hkept
  · rwa [hx] at hkept

namespace Ordered

variable {W : World} {ds : Distances} {plan : Plan} {m m' : Machine} {f : Value} {g : Closure}

/-- An initializer that has come about is bound to an object. -/
theorem exists_initializes (ho : Ordered W ds plan m) (hg : g.Placed W m.frames plan)
    (hinit : g.isInitializer = true) : ∃ o, g.Initializes o m := by
  obtain ⟨-, -, -, hthis⟩ := hg
  obtain ⟨_, f, hbinds, ⟨o, c, k, name, rfl, -⟩, -⟩ := ho.receivers _ (hthis hinit)
  exact ⟨o, hinit, hbinds⟩

/-- The body of a function is entered on a machine in order, and the function is placed. -/
theorem enters (ho : Ordered W ds plan m) (hf : f.Placed W m.frames plan) (h : m.Enters f g m') :
    ∃ plan', Ordered W ds plan' m' ∧ Extends m.frames plan m'.frames plan' ∧
      g.Placed W m'.frames plan' := by
  cases h with
  | function => exact ⟨plan, ho, .refl _ _, hf⟩
  | @initializer c f h =>
    have hobject : Tracks W ds m.frames (fun _ => False) (Run.newObject c) (Run.newObject c) plan m _ :=
      .newObject ho (ho.classes ▸ hf)
    obtain ⟨plan₁, hf₁, rfl, -, -, hclassOf⟩ := hobject.leaves
    have hmethod : (m.withObject c).findMethod? c initializerName = some f :=
      (Machine.findMethod?_congr (m.classes_withObject c) c initializerName).trans h
    have hbind : Tracks W ds m.frames (fun _ => False) (Run.bindReceiver f (.object m.objects.size))
        (Run.bindReceiver f (.object m.objects.size)) plan₁ (m.withObject c) _ :=
      .bindReceiver hf₁.ordered (Tracks.bindable_of_findMethod? hf₁.ordered hmethod)
        (Machine.Receives.of_findMethod? hclassOf hmethod)
    obtain ⟨plan₂, hf₂, -, hg⟩ := hbind.leaves
    exact ⟨plan₂, hf₂.ordered, hf₁.extend.trans hf₂.extend, hg⟩

end Ordered

end Treewalk
