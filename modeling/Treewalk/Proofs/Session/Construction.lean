import Treewalk.Proofs.Run.Construction
import Treewalk.Proofs.Session.Arguments
import Treewalk.Proofs.Session.Lookup

/-!
# Construction

Wherever a run of an accepted text calls a class, the value is a new object of the class, to which no
earlier value refers. The nearest initializer of the class, if there is one, has been bound to the
object and its body has been executed once; whether the body falls off its end or returns, the object is
the value, and if it fails, the call fails in the same way.

An initializer that is found through an object or through `super` is bound to that object for good. Its
calls give the object, wherever and whenever they take place.

## Main definitions

* `Session.Unreferred`: objects to which no earlier value refers.
* `Session.Constructs`: the call of a class.

## Main results

* `Session.construction_yields_instance`: classes and initializers that are called.
-/

namespace Treewalk

namespace Session

variable {bodies : List (List Stmt)} {history : List Execution} {s prepared : Session}
  {source : String} {body : List Stmt} {fuel : Nat}

/-! ### Machines in order along a call -/

section Steady

variable {plan : Plan} {callee : Expr} {line : Nat} {arguments : List Expr}
  {m₀ m₁ m : Machine} {f : Value} {vs : List Value} {k : Nat}

/-- The world of programs, with all moments in it. -/
abbrev worldOf (bodies : List (List Stmt)) : World :=
  ⟨SeenIn bodies, fun _ _ => True⟩

/-- The evaluators keep a machine in order on which the programs can be called. -/
theorem Steady.tracks (h : Steady bodies (fun _ _ => True) s) (last : Frames) (k : Nat) :
    EvaluatorsTrack (worldOf bodies) s.machine.distances last (evaluators .resolved k)
      (evaluators .resolved k) :=
  evaluators_track (guides_seenIn h.resolved) (fun _ _ => trivial) k

/-- The value that is called and the arguments are placed, on machines in order. -/
theorem Steady.called (h : Steady bodies (fun _ _ => True) s)
    (haligned : Aligned (worldOf bodies) s.machine.distances
      (.expr (.call callee line arguments)) m₀)
    (hcallee : evaluate .resolved k callee m₀ = .ok f m₁)
    (harguments : evaluateAll (evaluate .resolved k) arguments m₁ = .ok vs m) :
    ∃ plan₁ plan₂, Ordered (worldOf bodies) s.machine.distances plan₁ m₁ ∧
      f.Placed (worldOf bodies) m₁.frames plan₁ ∧
      Ordered (worldOf bodies) s.machine.distances plan₂ m ∧
      Extends m₁.frames plan₁ m.frames plan₂ ∧
      ∀ v ∈ vs, v.Placed (worldOf bodies) m.frames plan₂ := by
  obtain ⟨plan, σ, ho, hseen, hstands⟩ := haligned
  have hpart : ∀ part ∈ (Expr.call callee line arguments).parts,
      World.Inside (worldOf bodies) (Visit.ids ⟨.expr (.call callee line arguments), σ⟩)
        ⟨.expr part, σ⟩ := fun part hmem =>
    ⟨(guides_seenIn h.resolved).part hseen (List.mem_map_of_mem hmem),
      Visit.ids_subset_of_mem_parts (List.mem_map_of_mem hmem)⟩
  obtain ⟨hcalleeSeen, hargumentsSeen⟩ := List.forall_mem_cons.mp hpart
  have hfirst := ((h.tracks m₀.frames k).evaluate ho hcalleeSeen hstands).leaves
  change Leaves _ _ _ _ _ _ (evaluate .resolved k callee m₀) at hfirst
  rw [hcallee] at hfirst
  obtain ⟨plan₁, hf₁, hf⟩ := hfirst
  have hstands₁ := hf₁.stands hstands ho.global id
  have hrest := ((h.tracks m₀.frames k).evaluateAll hargumentsSeen hf₁.ordered hstands₁).leaves
  change Leaves _ _ _ _ _ _ (evaluateAll (evaluate .resolved k) arguments m₁) at hrest
  rw [harguments] at hrest
  obtain ⟨plan₂, hf₂, hvs⟩ := hrest
  exact ⟨plan₁, plan₂, hf₁.ordered, hf, hf₂.ordered, hf₂.extend, hvs⟩

/-- An expression that is evaluated at a moment keeps the sealed frames. -/
theorem Steady.keptIn_evaluate (h : Steady bodies (fun _ _ => True) s) {e : Expr}
    (haligned : Aligned (worldOf bodies) s.machine.distances (.expr e) m₀) :
    m₀.frames.KeptIn ((evaluate .resolved k e).after m₀).frames := by
  obtain ⟨plan, σ, ho, hseen, hstands⟩ := haligned
  exact ((h.tracks m₀.frames k).evaluate ho ⟨hseen, List.Subset.refl _⟩ hstands).leaves.keptIn_after

/-- A statement that is executed at a moment keeps the sealed frames. -/
theorem Steady.keptIn_execute (h : Steady bodies (fun _ _ => True) s) {stmt : Stmt}
    (haligned : Aligned (worldOf bodies) s.machine.distances (.stmt stmt) m₀) :
    m₀.frames.KeptIn ((Treewalk.execute .resolved k stmt).after m₀).frames := by
  obtain ⟨plan, σ, ho, hseen, hstands⟩ := haligned
  exact ((h.tracks m₀.frames k).execute ho ⟨hseen, List.Subset.refl _⟩ hstands).leaves.keptIn_after

/-- The body of an initializer that is called with the right number of arguments is executed once, and
the call hands back the object to which it is bound. -/
theorem Steady.invoke_eq (h : Steady bodies (fun _ _ => True) s)
    (ho : Ordered (worldOf bodies) s.machine.distances plan m) {g : Closure}
    (hg : g.Placed (worldOf bodies) m.frames plan)
    (hvs : ∀ v ∈ vs, v.Placed (worldOf bodies) m.frames plan) (harity : g.decl.arity = vs.length)
    {o : Nat} (hinit : g.Initializes o m) :
    invoke .resolved (k + 1) g vs m = handBack (.object o) m.current
      (executeAll (Treewalk.execute .resolved k) g.decl.body (g.entered vs m)) :=
  hinit.invoke_eq ((h.tracks m.frames (k + 1)).invoke ho hg hvs harity).leaves.keptIn_after

end Steady

/-! ### Classes that are called -/

/-- No earlier value refers to an object: none that is stored on a machine, or that has been handed on as
an argument, and none that is stored on another machine of the executions, or that an expression has to
which one of them comes, when no more objects are there than on this machine. -/
structure Unreferred (history : List Execution) (m : Machine) (vs : List Value) (o : Nat) : Prop where
  stored : ¬ m.Stores (.object o)
  arguments : ∀ v ∈ vs, v ≠ .object o
  before : ∀ x ∈ history, ∀ m', x.Passes m' → m'.objects.size ≤ m.objects.size →
    ¬ m'.Stores (.object o)
  values : ∀ x ∈ history, ∀ e m₁, ComesTo x.fuel x.body x.start (.expr e) m₁ →
    ∀ k v m₂, evaluate .resolved k e m₁ = .ok v m₂ → m₂.objects.size ≤ m.objects.size →
      v ≠ .object o

/-- The call of a class on a machine. Its value is a new object of the class, to which no earlier value
refers. If the class has an initializer, that is the nearest one, and it is bound to the object. With
the right number of arguments its body is executed once, in a frame inside the one that binds `this`;
in whichever way the body ends without a fault, the object is the value, and a fault of the body is one
of the call. -/
structure Constructs (history : List Execution) (k : Nat) (m : Machine) (c : Nat) (vs : List Value)
    (call : EStateM.Result Interrupt Machine Value) : Prop where
  unreferred : Unreferred history m vs m.objects.size
  unmade : m.classOf? m.objects.size = none
  made : ∀ v m', call = .ok v m' →
    v = .object m.objects.size ∧ m'.classOf? m.objects.size = some c
  nearest : ∀ f, m.findMethod? c initializerName = some f → ∃ nearer j further,
    m.lineage c = nearer ++ j :: further ∧
    (∀ i ∈ nearer, m.ownMethod? i initializerName = none) ∧ m.ownMethod? j initializerName = some f
  initialized : ∀ f, m.findMethod? c initializerName = some f →
    (f.boundOn (m.withObject c)).Initializes m.objects.size
      ((m.withObject c).withBound f (.object m.objects.size)) ∧
    (f.decl.arity = vs.length → call = handBack (.object m.objects.size) m.current
      (executeAll (Treewalk.execute .resolved k) f.decl.body
        ((f.boundOn (m.withObject c)).entered vs
          ((m.withObject c).withBound f (.object m.objects.size)))))

section Moments

variable {callee : Expr} {line : Nat} {arguments : List Expr} {m₀ m : Machine} {vs : List Value}
  {k : Nat}

theorem After.aligned (hs : After history s) (ha : s.Accepts source body prepared) {node : Node}
    (hm : ComesTo fuel body prepared.machine node m₀) :
    Aligned (worldOf (body :: history.map (·.body))) prepared.machine.distances node m₀ :=
  ((hs.steady.of_comes fun _ _ _ => trivial).aligned ha (fun _ _ _ => trivial) hm).1

theorem After.accept (hs : After history s) (ha : s.Accepts source body prepared) :
    Steady (body :: history.map (·.body)) (fun _ _ => True) prepared :=
  (hs.steady.of_comes fun _ _ _ => trivial).accept ha

theorem After.founded_of_comesTo (hs : After history s) (ha : s.Accepts source body prepared)
    {x : Execution} (hx : x ∈ ⟨prepared.machine, fuel, body⟩ :: history) {node : Node}
    (hm : ComesTo x.fuel x.body x.start node m₀) : m₀.Founded fun _ _ => True :=
  (hs.founded_of_passes ha hx (.moment hm)).mono fun _ _ _ => trivial

/-- No earlier value refers to the object that a class makes. -/
theorem After.unreferred (hs : After history s) (ha : s.Accepts source body prepared)
    (hm : m.Founded fun _ _ => True) (hvs : ∀ v ∈ vs, v.KnownOn m) :
    Unreferred (⟨prepared.machine, fuel, body⟩ :: history) m vs m.objects.size where
  stored := hm.not_stores (Nat.le_refl _)
  arguments v hv := by
    rintro rfl
    exact absurd (hvs _ hv) (Nat.lt_irrefl _)
  before x hx m' hm' hle := (hs.founded_of_passes ha hx hm').not_stores hle
  values x hx e m₁ hm₁ j v m₂ hv hle := by
    rintro rfl
    obtain ⟨-, hknown⟩ := (hs.founded_of_comesTo ha hx hm₁).of_evaluate hv
    exact absurd hknown (Nat.not_lt.mpr hle)

/-- A class that is called. -/
theorem After.constructs (hs : After history s) (ha : s.Accepts source body prepared)
    (hm₀ : ComesTo fuel body prepared.machine (.expr (.call callee line arguments)) m₀) {c : Nat}
    (hcalled : Expr.CalledOn (k + 1) callee arguments m₀ (.cls c) vs m) :
    Constructs (⟨prepared.machine, fuel, body⟩ :: history) k m c vs
      (evaluate .resolved (k + 2) (.call callee line arguments) m₀) := by
  obtain ⟨m₁, hcallee, harguments⟩ := id hcalled
  rw [hcalled.evaluate_eq line]
  have hfounded₁ := ((hs.founded_of_comesTo ha List.mem_cons_self hm₀).of_evaluate hcallee).1
  obtain ⟨hfounded, hknown⟩ := hfounded₁.of_evaluateAll harguments
  obtain ⟨plan₁, plan, -, hf, ho, hextend, hvs⟩ :=
    (hs.accept ha).called (hs.aligned ha hm₀) hcallee harguments
  have hclassOf : (m.withObject c).classOf? m.objects.size = some c := by
    simp [Machine.classOf?, Machine.withObject]
  have hinit (f : Closure) (hmethod : m.findMethod? c initializerName = some f) :
      (f.boundOn (m.withObject c)).Initializes m.objects.size
        ((m.withObject c).withBound f (.object m.objects.size)) :=
    Closure.initializes_boundOn (hfounded.isInitializer_eq hmethod) (m.withObject c) m.objects.size
  -- with the right number of arguments the initializer is called, once
  have hinvoke (f : Closure) (hmethod : m.findMethod? c initializerName = some f)
      (harity : f.decl.arity = vs.length) :
      invoke .resolved (k + 1) (f.boundOn (m.withObject c)) vs
        ((m.withObject c).withBound f (.object m.objects.size)) =
          handBack (.object m.objects.size) m.current
            (executeAll (Treewalk.execute .resolved k) f.decl.body
              ((f.boundOn (m.withObject c)).entered vs
                ((m.withObject c).withBound f (.object m.objects.size)))) := by
    obtain ⟨plan', ho', hextend', hg⟩ := ho.enters (hf.extends hextend) (.initializer hmethod)
    exact (hs.accept ha).invoke_eq ho' hg (fun v hv => (hvs v hv).extends hextend') harity
      (hinit f hmethod)
  have hcall (f : Closure) (hmethod : m.findMethod? c initializerName = some f)
      (harity : f.decl.arity = vs.length) :
      callWith (invoke .resolved (k + 1)) (.cls c) vs line m =
        invoke .resolved (k + 1) (f.boundOn (m.withObject c)) vs
          ((m.withObject c).withBound f (.object m.objects.size)) := by
    rw [callWith_of_enters (.initializer hmethod) harity, Run.bind_apply, hinvoke f hmethod harity]
    cases executeAll (Treewalk.execute .resolved k) f.decl.body _ <;> rfl
  refine ⟨hs.unreferred ha hfounded hknown, by simp [Machine.classOf?], fun v m' hv => ?_,
    fun f hmethod => ?_, fun f hmethod => ⟨hinit f hmethod, fun harity => ?_⟩⟩
  · cases hmethod : m.findMethod? c initializerName with
    | none =>
      have harity : m.arity? (.cls c) = some 0 := by rw [Machine.arity?, hmethod]; rfl
      by_cases heq : 0 = vs.length
      · rw [callWith_of_eq harity heq, callUnchecked_cls_apply, hmethod] at hv
        cases hv
        exact ⟨rfl, hclassOf⟩
      · rw [callWith_of_ne harity heq] at hv
        cases hv
    | some f =>
      have harity : m.arity? (.cls c) = some f.decl.arity := by rw [Machine.arity?, hmethod]; rfl
      by_cases heq : f.decl.arity = vs.length
      · rw [hcall f hmethod heq] at hv
        refine ⟨eq_of_handBack ((hinvoke f hmethod heq).symm.trans hv), ?_⟩
        have hkeeps := invoke_keeps .resolved (k + 1) (f.boundOn (m.withObject c)) vs
          ((m.withObject c).withBound f (.object m.objects.size))
        rw [Run.after_of_ok hv] at hkeeps
        exact hkeeps.classOf _ _ hclassOf
      · rw [callWith_of_ne harity heq] at hv
        cases hv
  · obtain ⟨nearer, j, further, hlineage, hown, hnearer⟩ := List.findSome?_eq_some_iff.mp hmethod
    exact ⟨nearer, j, further, hlineage, hnearer, hown⟩
  · rw [hcall f hmethod harity, hinvoke f hmethod harity]

/-! ### Initializers that are called -/

/-- An initializer that is called is bound to an object, and it hands this object back. -/
theorem After.handsBack (hs : After history s) (ha : s.Accepts source body prepared)
    (hm₀ : ComesTo fuel body prepared.machine (.expr (.call callee line arguments)) m₀) {g : Closure}
    (hcalled : Expr.CalledOn (k + 1) callee arguments m₀ (.function g) vs m)
    (hinit : g.isInitializer = true) : ∃ o, g.Initializes o m ∧
      (∀ m₁, evaluate .resolved (k + 1) callee m₀ = .ok (.function g) m₁ → g.Initializes o m₁) ∧
      (g.decl.arity = vs.length →
        evaluate .resolved (k + 2) (.call callee line arguments) m₀ =
          handBack (.object o) m.current
            (executeAll (Treewalk.execute .resolved k) g.decl.body (g.entered vs m))) := by
  obtain ⟨m₁, hcallee, harguments⟩ := id hcalled
  obtain ⟨plan₁, plan, ho₁, hg, ho, hextend, hvs⟩ :=
    (hs.accept ha).called (hs.aligned ha hm₀) hcallee harguments
  obtain ⟨o, ho₁⟩ := ho₁.exists_initializes hg hinit
  have hlast : g.Initializes o m := ho₁.kept hextend.kept
  refine ⟨o, hlast, fun m₁' hcallee' => ?_, fun harity => ?_⟩
  · cases hcallee.symm.trans hcallee'
    exact ho₁
  · rw [hcalled.evaluate_eq line, callWith_of_eq (by rw [Machine.arity?]) harity]
    exact (hs.accept ha).invoke_eq ho (Closure.Placed.extends hg hextend) hvs harity hlast

/-- An initializer that is found through an object is bound to it. -/
theorem After.initializer_of_get (hs : After history s) (ha : s.Accepts source body prepared)
    {object : Expr} {name : Name}
    (hm₀ : ComesTo fuel body prepared.machine (.expr (.get object name)) m₀)
    (hname : name.text = initializerName) {i : Nat} {f : Closure}
    (hobject : evaluate .resolved k object m₀ = .ok (.object i) m)
    (hfield : m.field? i name.text = none)
    (hmethod : ((m.classOf? i).bind fun c => m.findMethod? c name.text) = some f) :
    evaluate .resolved (k + 1) (.get object name) m₀ =
        .ok (.function (f.boundOn m)) (m.withBound f (.object i)) ∧
      (f.boundOn m).Initializes i (m.withBound f (.object i)) := by
  have hfounded := ((hs.founded_of_comesTo ha List.mem_cons_self hm₀).of_evaluate hobject).1
  obtain ⟨c, -, hf⟩ := Option.bind_eq_some_iff.mp hmethod
  refine ⟨?_, Closure.initializes_boundOn ?_ m i⟩
  · refine (Run.bind_of_ok hobject).trans ?_
    change Run.property i name m = _
    rw [Run.property, Run.get_bind_apply, hfield]
    simp only [hmethod]
    rfl
  · rw [hfounded.isInitializer_eq hf, hname]
    rfl

/-- An initializer that is found through `super` is bound to the receiver of the method around it. -/
theorem After.initializer_of_super (hs : After history s) (ha : s.Accepts source body prepared)
    {id : Nat} {method : Name}
    (hm₀ : ComesTo fuel body prepared.machine (.expr (.super id line method)) m₀)
    (hname : method.text = initializerName) {v : Value}
    (hv : evaluate .resolved (k + 1) (.super id line method) m₀ = .ok v m) :
    ∃ g distance o, v = .function g ∧ g.Initializes o m ∧
      m₀.distances.get? id = some (distance + 1) ∧
      m₀.frames.BindsOnly (m₀.frames.ancestor m₀.current distance) "this" (.object o) := by
  have hfounded := hs.founded_of_comesTo ha List.mem_cons_self hm₀
  obtain ⟨δ, distance, o, hsuper⟩ := hs.exists_superAt ha hm₀
  have heq : evaluate .resolved (k + 1) (.super id line method) m₀ = _ :=
    Run.superMethod_eq hsuper.distance_eq (hsuper.frame_eq ▸ hsuper.binds_super) hsuper.binds_this
  rw [heq] at hv
  cases hf : m₀.findMethod? δ.parent method.text with
  | none =>
    rw [hf] at hv
    cases hv
  | some f =>
    rw [hf] at hv
    cases hv
    refine ⟨f.boundOn m₀, distance, o, rfl, Closure.initializes_boundOn ?_ m₀ o,
      hsuper.distance_eq, hsuper.binds_this⟩
    rw [hfounded.isInitializer_eq hf, hname]
    rfl

end Moments

/-- Constructing and initializing yield the instance. After any history, wherever the run of an accepted
text comes to a call and has evaluated what is called and the arguments, a class makes a new object, to
which no earlier value refers, has its nearest initializer called once, bound to the object, and gives
the object; an initializer that is called is bound to an object, which it gives however its body ends.
An initializer that is found through an object, where no field hides it, is bound to that object, and one
that is found through `super` to the object that `this` denotes there. It stays bound to it, whatever is
evaluated or executed, and on all machines of the execution and of those before it. -/
theorem construction_yields_instance (hs : After history s) (ha : s.Accepts source body prepared) :
    (∀ callee line arguments m₀,
      ComesTo fuel body prepared.machine (.expr (.call callee line arguments)) m₀ →
      ∀ k f vs m, Expr.CalledOn (k + 1) callee arguments m₀ f vs m →
        (∀ c, f = .cls c → Constructs (⟨prepared.machine, fuel, body⟩ :: history) k m c vs
          (evaluate .resolved (k + 2) (.call callee line arguments) m₀)) ∧
        ∀ g, f = .function g → g.isInitializer = true → ∃ o, g.Initializes o m ∧
          (∀ m₁, evaluate .resolved (k + 1) callee m₀ = .ok f m₁ → g.Initializes o m₁) ∧
          (g.decl.arity = vs.length →
            evaluate .resolved (k + 2) (.call callee line arguments) m₀ =
              handBack (.object o) m.current
                (executeAll (Treewalk.execute .resolved k) g.decl.body (g.entered vs m)))) ∧
    (∀ object name m₀, ComesTo fuel body prepared.machine (.expr (.get object name)) m₀ →
      name.text = initializerName → ∀ k i m f,
        evaluate .resolved k object m₀ = .ok (.object i) m → m.field? i name.text = none →
        ((m.classOf? i).bind fun c => m.findMethod? c name.text) = some f →
          evaluate .resolved (k + 1) (.get object name) m₀ =
              .ok (.function (f.boundOn m)) (m.withBound f (.object i)) ∧
            (f.boundOn m).Initializes i (m.withBound f (.object i))) ∧
    (∀ id line method m₀, ComesTo fuel body prepared.machine (.expr (.super id line method)) m₀ →
      method.text = initializerName → ∀ k v m,
        evaluate .resolved (k + 1) (.super id line method) m₀ = .ok v m →
          ∃ g distance o, v = .function g ∧ g.Initializes o m ∧
            m₀.distances.get? id = some (distance + 1) ∧
            m₀.frames.BindsOnly (m₀.frames.ancestor m₀.current distance) "this" (.object o)) ∧
    ∀ (g : Closure) (o : Nat) (m : Machine), g.Initializes o m →
      (∀ e, ComesTo fuel body prepared.machine (.expr e) m →
        ∀ k, g.Initializes o ((evaluate .resolved k e).after m)) ∧
      (∀ stmt, ComesTo fuel body prepared.machine (.stmt stmt) m →
        ∀ k, g.Initializes o ((Treewalk.execute .resolved k stmt).after m)) ∧
      ∀ x ∈ ⟨prepared.machine, fuel, body⟩ :: history, x.Passes m →
        ∀ y ∈ ⟨prepared.machine, fuel, body⟩ :: history, ∀ m', y.Passes m' →
          g.frame < m'.frames.size → g.Initializes o m' := by
  refine ⟨fun callee line arguments m₀ hm₀ k f vs m hcalled => ⟨?_, ?_⟩,
    fun _ _ _ hm₀ hname _ _ _ _ => hs.initializer_of_get ha hm₀ hname,
    fun _ _ _ _ hm₀ hname _ _ _ => hs.initializer_of_super ha hm₀ hname,
    fun g o m hinit => ⟨fun e hm k => ?_, fun stmt hm k => ?_, fun x hx hm y hy m' hm' hlt => ?_⟩⟩
  · rintro c rfl
    exact hs.constructs ha hm₀ hcalled
  · rintro g rfl hinit
    exact hs.handsBack ha hm₀ hcalled hinit
  · exact hinit.kept ((hs.accept ha).keptIn_evaluate (hs.aligned ha hm))
  · exact hinit.kept ((hs.accept ha).keptIn_execute (hs.aligned ha hm))
  · have hfits := hs.fits_cons hs.fits ha fuel
    exact ⟨hinit.isInitializer, hinit.binds.of_slots
      (((hfits x hx).kept hm).slot?_eq ((hfits y hy).kept hm') hinit.sealed hlt)⟩

theorem construction_yields_instance_constructing : ∃ m',
    evaluate .resolved 2 (.call (.variable 0 ⟨"A", 1⟩) 1 [.literal (.bool true)])
      constructingMachine = .ok (.object 0) m' ∧ m'.classOf? 0 = some 0 ∧
      ¬ constructingMachine.Stores (.object 0) := by
  have hcalled : Expr.CalledOn 1 (.variable 0 ⟨"A", 1⟩) [.literal (.bool true)] constructingMachine
      (.cls 0) [.bool true] constructingMachine :=
    ⟨constructingMachine, by cbv, by cbv⟩
  have hmethod : constructingMachine.findMethod? 0 initializerName = some constructingInitializer := by
    cbv
  have hconstructs := ((construction_yields_instance (.start (fun _ => 0) [])
    accepts_constructing).1 _ _ _ _ comesTo_constructing 0 _ _ _ hcalled).1 0 rfl
  have hcall := (hconstructs.initialized _ hmethod).2 rfl
  exact ⟨_, hcall, (hconstructs.made _ _ hcall).2, hconstructs.unreferred.stored⟩

end Session

end Treewalk
