import Treewalk.Proofs.Run.Obtaining
import Treewalk.Proofs.Run.Properties
import Treewalk.Proofs.Run.Receiving
import Treewalk.Proofs.Session.Binding
import Treewalk.Proofs.Session.Construction

/-!
# Properties over a history

After a field of an object has been written, the object has the new value under that name, however it is
reached, and all other properties of all objects are what they were. Where no field hides it, the nearest
method of the class is bound to the object, as a function that is new.

Such a function stays bound to its object. Over the whole history its frame binds `this` to the object
and nothing else. Wherever the function is kept meanwhile, and from wherever it is called, its body
begins inside of this frame, and the value of `this` in the call is the object.

## Main definitions

* `Session.Retains`: functions that stay bound to their object.

## Main results

* `Session.After.retains`: a method that has been bound stays bound.
* `Session.property_access`: fields and methods.
-/

namespace Treewalk

namespace Session

variable {history : List Execution} {s prepared : Session} {source : String} {body : List Stmt}
  {fuel : Nat} {m₀ m m' m₂ : Machine} {e : Expr} {v : Value} {g : Closure} {i : Nat}

/-! ### Functions that stay bound -/

/-- A function stays bound to an object. On all machines of the executions its frame, if it is there,
binds `this` to the object and nothing else. If the execution `x` calls the function, its body begins in
a new frame inside of this one, and wherever the execution comes to `this` inside of the frame of the
call, with no other receiver between, the value is the object. -/
structure Retains (executions : List Execution) (x : Execution) (g : Closure) (i : Nat) : Prop where
  binds : ∀ y ∈ executions, ∀ m, y.Passes m → g.frame < m.frames.size →
    m.frames.BindsOnly g.frame "this" (.object i)
  begins : ∀ arguments m, Calls x.fuel x.body x.start g arguments m →
    m.frames.BindsOnly g.frame "this" (.object i) ∧ g.Begins arguments m (g.entered arguments m)
  receiver : ∀ arguments m, Calls x.fuel x.body x.start g arguments m →
    ∀ id line m', ComesTo x.fuel x.body x.start (.expr (.this id line)) m' →
      ∀ steps, m'.frames.StepsTo m'.current "this" steps m.frames.size →
        ∀ k, evaluate .resolved (k + 1) (.this id line) m' = .ok (.object i) m'

/-- Every execution of a history is that of a text that was accepted after an earlier one. -/
theorem After.exists_accepted (h : After history s) : ∀ x ∈ history,
    ∃ earlier s' source prepared', After earlier s' ∧ Accepts s' source x.body prepared' ∧
      x.start = prepared'.machine := by
  induction h with
  | start => exact fun x hx => absurd hx List.not_mem_nil
  | accepted h ha _ ih => exact List.forall_mem_cons.mpr ⟨⟨_, _, _, _, h, ha, rfl⟩, ih⟩
  | rejected _ _ _ ih => exact ih
  | takeOutput _ ih => exact ih
  | takeReports _ ih => exact ih

/-- Sealed frames are kept from where a value is obtained to the end of the execution. -/
theorem After.keptIn_of_obtains (hs : After history s) (ha : s.Accepts source body prepared)
    (h : Obtains fuel body prepared.machine e m₀ v m) :
    m.frames.KeptIn (Run.framesAfter (interpret .resolved fuel body prepared.machine)) := by
  have hsteady := hs.accept ha
  obtain ⟨plan, ho⟩ := hsteady.ordered
  exact Treewalk.keptIn_of_obtains (guides_seenIn hsteady.resolved)
    (Steady.seenIn_along List.mem_cons_self) (fun _ _ => trivial) ho hsteady.current h

/-- So are those of where a value is obtained in an earlier execution. -/
theorem After.keptIn_of_mem (hs : After history s) (ha : s.Accepts source body prepared)
    {x : Execution} (hx : x ∈ ⟨prepared.machine, fuel, body⟩ :: history)
    (h : Obtains x.fuel x.body x.start e m₀ v m) :
    m.frames.KeptIn (Run.framesAfter (interpret .resolved fuel body prepared.machine)) := by
  rcases List.mem_cons.mp hx with rfl | hmem
  · exact hs.keptIn_of_obtains ha h
  · obtain ⟨earlier, s', source', prepared', hs', ha', hstart⟩ := hs.exists_accepted x hmem
    rw [hstart] at h
    have hlast := (hs.fits_cons hs.fits ha fuel x hx).kept .last
    rw [Run.frames_machineAfter, hstart] at hlast
    exact (hs'.keptIn_of_obtains ha' h).trans hlast

/-- A function that is called has come about. -/
theorem After.placed_of_calls (hs : After history s) (ha : s.Accepts source body prepared)
    {arguments : List Value} (h : Calls fuel body prepared.machine g arguments m) :
    (∃ plan, Ordered (worldOf (body :: history.map (·.body))) prepared.machine.distances plan m ∧
      g.Placed (worldOf (body :: history.map (·.body))) m.frames plan) ∧
      m.frames.KeptIn (Run.framesAfter (interpret .resolved fuel body prepared.machine)) := by
  have hsteady := hs.accept ha
  obtain ⟨plan, ho⟩ := hsteady.ordered
  exact h.placed (guides_seenIn hsteady.resolved) (Steady.seenIn_along List.mem_cons_self)
    (fun _ _ => trivial) ho hsteady.current

/-- No declaration and no assignment that an execution comes to is one of `this`. -/
theorem After.not_binds_this (hs : After history s) (ha : s.Accepts source body prepared) {node : Node}
    (hm : ComesTo fuel body prepared.machine node m) : ¬ node.Binds "this" := by
  obtain ⟨_, σ, -, hseen, -⟩ := hs.aligned ha hm
  exact ((guides_seenIn (hs.accept ha).resolved).fits hseen).not_binds .thisWord

/-- Neither is a parameter of a function that is called. -/
theorem After.this_notMem_params (hs : After history s) (ha : s.Accepts source body prepared)
    {arguments : List Value} (h : Calls fuel body prepared.machine g arguments m) :
    "this" ∉ g.decl.params.map Name.text := by
  intro hmem
  obtain ⟨p, hp, heq⟩ := List.mem_map.mp hmem
  obtain ⟨⟨plan, -, σ, hroutine, -⟩, -⟩ := hs.placed_of_calls ha h
  have hfits := (guides_seenIn (hs.accept ha).resolved).fits hroutine
  exact (hfits.of_routine p hp).ne_text .thisWord heq

/-- A function whose frame binds `this` to an object stays bound to it. -/
theorem After.retains (hs : After history s) (ha : s.Accepts source body prepared)
    (hbinds : m.frames.BindsOnly g.frame "this" (.object i))
    (hkept : m.frames.KeptIn (Run.framesAfter (interpret .resolved fuel body prepared.machine))) :
    Retains (⟨prepared.machine, fuel, body⟩ :: history) ⟨prepared.machine, fuel, body⟩ g i := by
  have hfits := hs.fits_cons hs.fits ha fuel
  have hsealed : m.frames.Sealed g.frame := .inl (hbinds.holds_iff.mpr rfl)
  have hstays (m' : Machine)
      (hkept' : m'.frames.KeptIn (Run.framesAfter (interpret .resolved fuel body prepared.machine)))
      (hlt : g.frame < m'.frames.size) : m'.frames.BindsOnly g.frame "this" (.object i) :=
    hbinds.of_slots (hkept.slot?_eq hkept' hsealed hlt)
  have hbegins (arguments : List Value) (m₁ : Machine)
      (hcalls : Calls fuel body prepared.machine g arguments m₁) :
      g.Begins arguments m₁ (g.entered arguments m₁) := by
    have hdeclared := hcalls.stocked List.mem_cons_self (ha.stocks hs)
    exact Closure.begins hcalls.arity_eq
      (FunctionDecl.DeclaredIn.nodup_params hdeclared (hs.lawful ha)) m₁
  refine ⟨fun y hy m' hm' hlt => hstays m' ((hfits y hy).kept hm') hlt,
    fun arguments m₁ hcalls => ⟨?_, hbegins arguments m₁ hcalls⟩,
    fun arguments m₁ hcalls id line m' hm' steps hsteps k => ?_⟩
  · obtain ⟨⟨plan, ho, hg⟩, hkept₁⟩ := hs.placed_of_calls ha hcalls
    exact hstays m₁ hkept₁ (ho.frame_lt_size hg)
  · obtain ⟨⟨plan₁, ho₁, hplaced⟩, -⟩ := hs.placed_of_calls ha hcalls
    obtain ⟨plan, σ, ho, hseen, hstands⟩ := hs.aligned ha hm'
    have hlt := (hstands.lies.of_hop? ho.root hsteps.1).lt_size ho.global
    have hthis := hstays m' ((hfits _ List.mem_cons_self).kept (.moment hm'))
      (Nat.lt_trans (ho₁.frame_lt_size hplaced) hlt)
    have hnearest := hcalls.nearest hm' (fun _ _ => hs.not_binds_this ha)
      (hbegins arguments m₁ hcalls) (hs.this_notMem_params ha hcalls) hlt hsteps
      (hthis.holds_iff.mpr rfl)
    obtain ⟨b, hb, hmet⟩ := hseen
    exact hstands.evaluate_this ((hs.accept ha).resolved b hb) ho hmet hnearest hthis k

/-! ### Objects at moments -/

section Moments

variable {whole object : Expr} {name : Name} {k : Nat}

/-- After a part of an expression has been evaluated the machine is in order. -/
theorem After.ordered_of_evaluate (hs : After history s) (ha : s.Accepts source body prepared)
    (hm₀ : ComesTo fuel body prepared.machine (.expr whole) m₀) (he : e ∈ whole.parts)
    (hv : evaluate .resolved k e m₀ = .ok v m) :
    ∃ plan, Ordered (worldOf (body :: history.map (·.body))) prepared.machine.distances plan m := by
  obtain ⟨plan, σ, ho, hseen, hstands⟩ := hs.aligned ha hm₀
  have hpart : (⟨.expr e, σ⟩ : Visit) ∈ Visit.parts ⟨.expr whole, σ⟩ := List.mem_map_of_mem he
  have hsteady := hs.accept ha
  have hinside := (guides_seenIn hsteady.resolved).part hseen hpart
  obtain ⟨plan', ho', -⟩ := hsteady.stands_of_evaluate (fun _ _ => trivial) ho
    ⟨hinside, Visit.ids_subset_of_mem_parts hpart⟩ hstands hv
  exact ⟨plan', ho'⟩

/-- An object that is the value of an expression is there. -/
theorem After.object_lt_size (hs : After history s) (ha : s.Accepts source body prepared)
    (hm₀ : ComesTo fuel body prepared.machine (.expr whole) m₀)
    (hobject : evaluate .resolved k object m₀ = .ok (.object i) m) : i < m.objects.size :=
  ((hs.founded_of_comesTo ha List.mem_cons_self hm₀).of_evaluate hobject).2

/-- What it gives to ask an object for a property. A field gives its value. Where no field hides it, the
nearest method from the class of the object upward is bound to the object, as a function that is stored
nowhere yet. If there is none either, the machine is left as it is. -/
structure Answers (m : Machine) (i c : Nat) (name : Name)
    (answer : EStateM.Result Interrupt Machine Value) : Prop where
  classOf_eq : m.classOf? i = some c
  ancestry : m.Ancestry c (m.lineage c)
  field : ∀ v, m.field? i name.text = some v → answer = .ok v m
  method : m.field? i name.text = none → ∀ nearer j further f,
    m.lineage c = nearer ++ j :: further → (∀ k ∈ nearer, m.ownMethod? k name.text = none) →
      m.ownMethod? j name.text = some f →
        ∃ g m', answer = .ok (.function g) m' ∧ f.BoundAs g i m m' ∧
          ∀ h, m.Stores (.function h) → h.frame ≠ g.frame
  undefined : m.field? i name.text = none → (∀ k ∈ m.lineage c, m.ownMethod? k name.text = none) →
    answer = .error (.raised ⟨.undefinedProperty name.text, name.line⟩) m

/-- Where a run comes to a property of an object. -/
theorem After.answers (hs : After history s) (ha : s.Accepts source body prepared)
    (hm₀ : ComesTo fuel body prepared.machine (.expr (.get object name)) m₀)
    (hobject : evaluate .resolved k object m₀ = .ok (.object i) m) :
    ∃ c, Answers m i c name (evaluate .resolved (k + 1) (.get object name) m₀) := by
  obtain ⟨plan, ho⟩ := hs.ordered_of_evaluate ha hm₀ List.mem_cons_self hobject
  have hlt := hs.object_lt_size ha hm₀ hobject
  have hc : m.classOf? i = some m.objects[i].cls := by
    rw [Machine.classOf?, Array.getElem?_eq_getElem hlt, Option.map_some]
  rw [evaluate_get_eq hobject, Run.property_eq]
  refine ⟨_, hc, ho.descends.ancestry (ho.descends.classOf i _ hc), fun v hfield => ?_,
    fun hfield nearer j further f hlineage hnearer hown => ?_, fun hfield hnone => ?_⟩
  · rw [Machine.property?_of_field hfield]
  · rw [Machine.property?_of_no_field hfield hc, Machine.findMethod?_of_nearest hlineage hnearer hown]
    exact ⟨_, _, rfl, f.boundAs_boundOn i m, fun h hh => Nat.ne_of_lt (ho.stored_frame_lt hh)⟩
  · rw [Machine.property?_of_no_field hfield hc, Machine.findMethod?,
      List.findSome?_eq_none_iff.mpr hnone]
    rfl

/-- A property that an execution has obtained: a field, or a method that stays bound to the object. -/
theorem After.obtained (hs : After history s) (ha : s.Accepts source body prepared) {x : Execution}
    (hx : x ∈ ⟨prepared.machine, fuel, body⟩ :: history)
    (h : Obtains x.fuel x.body x.start (.get object name) m₀ v m₂) :
    ∃ k i m, evaluate .resolved k object m₀ = .ok (.object i) m ∧
      ((m.property? i name.text = some (.field v) ∧ m₂ = m) ∨
        ∃ f g, m.property? i name.text = some (.method f) ∧ v = .function g ∧ f.BoundAs g i m m₂ ∧
          Retains (⟨prepared.machine, fuel, body⟩ :: history) ⟨prepared.machine, fuel, body⟩ g i) := by
  obtain ⟨k, hk⟩ := h.exists_evaluate
  obtain ⟨k', i, m, hobject, hproperty⟩ := exists_object_of_get hk
  refine ⟨k', i, m, hobject, ?_⟩
  rw [Run.property_eq] at hproperty
  rcases hfound : m.property? i name.text with _ | w | f
  · rw [hfound] at hproperty
    cases hproperty
  · rw [hfound] at hproperty
    cases hproperty
    exact .inl ⟨rfl, rfl⟩
  · rw [hfound] at hproperty
    cases hproperty
    have hbound := f.boundAs_boundOn i m
    exact .inr ⟨f, _, rfl, rfl, hbound, hs.retains ha hbound.binds (hs.keptIn_of_mem ha hx h)⟩

end Moments

/-- Fields and methods. To write a field of an object and then to ask for it gives the value; to ask for
any other property, of this object or of another one, gives what it gave before. Wherever the run of an
accepted text comes to such a write, after any history, this is so for all expressions whose value is an
object, whichever way they lead to it. Wherever it comes to a property of an object, a field hides a
method of its name; where no field does, the nearest method is bound to the object, as a function that
is new and closes over a new frame with `this` in it; and where there is none, the fault says so and
nothing is changed.

Of the properties that this run and the earlier ones have obtained, those that are no fields stay bound
to their object: in every call of such a function, wherever the function comes from, `this` is the
object. -/
theorem property_access (hs : After history s) (ha : s.Accepts source body prepared) :
    (∀ m i, i < m.objects.size → ∀ name v,
      Run.setField i name v m = .ok () (m.withField i name v) ∧
      ∀ j other, Run.property j other (m.withField i name v) =
        if j = i ∧ other.text = name then .ok v (m.withField i name v)
        else Run.mapMachine (·.withField i name v) (Run.property j other m)) ∧
    (∀ object name value m₀,
      ComesTo fuel body prepared.machine (.expr (.set object name value)) m₀ →
      ∀ k i m v m₁, evaluate .resolved k object m₀ = .ok (.object i) m →
        evaluate .resolved k value m = .ok v m₁ → ∃ m', m' = m₁.withField i name.text v ∧
          evaluate .resolved (k + 1) (.set object name value) m₀ = .ok v m' ∧
          ∀ k' e j, evaluate .resolved k' e m' = .ok (.object j) m' → ∀ other,
            evaluate .resolved (k' + 1) (.get e other) m' =
              if j = i ∧ other.text = name.text then .ok v m'
              else Run.mapMachine (·.withField i name.text v) (Run.property j other m₁)) ∧
    (∀ object name m₀, ComesTo fuel body prepared.machine (.expr (.get object name)) m₀ →
      ∀ k i m, evaluate .resolved k object m₀ = .ok (.object i) m →
        ∃ c, Answers m i c name (evaluate .resolved (k + 1) (.get object name) m₀)) ∧
    ∀ x ∈ ⟨prepared.machine, fuel, body⟩ :: history, ∀ object name m₀ v m₂,
      Obtains x.fuel x.body x.start (.get object name) m₀ v m₂ →
        ∃ k i m, evaluate .resolved k object m₀ = .ok (.object i) m ∧
          ((m.property? i name.text = some (.field v) ∧ m₂ = m) ∨
            ∃ f g, m.property? i name.text = some (.method f) ∧ v = .function g ∧
              f.BoundAs g i m m₂ ∧
              Retains (⟨prepared.machine, fuel, body⟩ :: history) ⟨prepared.machine, fuel, body⟩
                g i) := by
  refine ⟨fun m i hi name v => ⟨rfl, Run.property_withField hi name v⟩,
    fun object name value m₀ hm₀ k i m v m₁ hobject hvalue => ?_,
    fun _ _ _ hm₀ _ _ _ => hs.answers ha hm₀, fun _ hx _ _ _ _ _ => hs.obtained ha hx⟩
  have hfounded := ((hs.founded_of_comesTo ha List.mem_cons_self hm₀).of_evaluate hobject).1
  have hi := Nat.lt_of_lt_of_le (hs.object_lt_size ha hm₀ hobject)
    (hfounded.objects_le_of_evaluate hvalue)
  refine ⟨_, rfl, evaluate_set_eq hobject hvalue name, fun k' e j he other => ?_⟩
  rw [evaluate_get_eq he, Run.property_withField hi]

/-- A class with a method that gives the receiver, and a call of the method for a new object. -/
def receivingText : String :=
  "class A \x7b m() \x7b return this; \x7d \x7d A().m();"

/-- The method of `receiving`. -/
def receivingMethod : Closure :=
  ⟨0, ⟨⟨"m", 1⟩, [], [.return 1 (some (.this 0 1))]⟩, 0, false⟩

/-- The program of `receivingText`. -/
def receiving : List Stmt :=
  [.class ⟨"A", 1⟩ none [receivingMethod.decl],
    .expression (.call (.get (.call (.variable 1 ⟨"A", 1⟩) 1 []) ⟨"m", 1⟩) 1 [])]

/-- The session that executes `receiving`. -/
def receivingSession : Session :=
  ⟨{ Machine.start (fun _ => 0) [] with distances := #[some 1] }, 2, .empty⟩

theorem accepts_receiving : (Session.start (fun _ => 0) []).Accepts receivingText receiving
    receivingSession where
  prepared_eq := by cbv
  no_reports := rfl

/-- The machine on which `receiving` comes to the call. -/
def receivingMachine : Machine :=
  { receivingSession.machine with
    frames := #[⟨none, Native.all.map (fun n => (n.name, some (.native n))) ++
      [("A", some (.cls 0))]⟩]
    classes := #[⟨"A", none, [("m", receivingMethod)]⟩]
    closures := 1 }

/-- The machine on which the method has been bound to the new object. -/
def boundMachine : Machine :=
  (receivingMachine.withObject 0).withBound receivingMethod (.object 0)

/-- The function that is then called. -/
def boundMethod : Closure :=
  receivingMethod.boundOn (receivingMachine.withObject 0)

theorem obtains_receiving : Obtains 6 receiving receivingSession.machine
    (.get (.call (.variable 1 ⟨"A", 1⟩) 1 []) ⟨"m", 1⟩) receivingMachine (.function boundMethod)
    boundMachine := by
  refine .of_stops fun stop => ?_
  generalize hinspector : inspectAt _ receivingMachine _ boundMachine stop = inspector
  have hpass (callee : Expr) (line : Nat) (es : List Expr) (m₁ : Machine) (v₁ : Value)
      (m₁' : Machine) : inspector (.call callee line es) m₁ v₁ m₁' = .ok () m₁' := by
    rw [← hinspector]
    exact inspectAt_of_ne (by rintro ⟨⟨⟩, -⟩)
  have hread : (inspected inspector .resolved 2).evaluate (.variable 1 ⟨"A", 1⟩) receivingMachine =
      .ok (.cls 0) receivingMachine := by
    refine inspect_of_ok (by cbv) ?_
    rw [← hinspector]
    exact inspectAt_of_ne (by rintro ⟨⟨⟩, -⟩)
  have hobject : (inspected inspector .resolved 3).evaluate (.call (.variable 1 ⟨"A", 1⟩) 1 [])
      receivingMachine = .ok (.object 0) (receivingMachine.withObject 0) :=
    inspect_of_ok ((Run.bind_of_ok hread).trans (by cbv)) (hpass _ _ _ _ _ _)
  have hclass : (inspected inspector .resolved 6).execute (.class ⟨"A", 1⟩ none [receivingMethod.decl])
      receivingSession.machine = .ok .normal receivingMachine := by cbv
  subst hinspector
  refine Run.Stops.bind (Run.Stops.bind_ok hclass ?_) _
  refine Run.Stops.bind (Run.Stops.bind ?_ _) _
  refine Run.Stops.bind_ok rfl (Run.Stops.bind (Run.Stops.bind ?_ _) _)
  exact stops_inspect ((Run.bind_of_ok hobject).trans (by cbv))

theorem calls_receiving : Calls 6 receiving receivingSession.machine boundMethod [] boundMachine := by
  refine .of_stops fun stop => ?_
  obtain ⟨m', hstop⟩ : Run.Stops (tapAt boundMethod [] boundMachine stop boundMethod []) boundMachine
    stop := stops_tapAt
  generalize tapAt boundMethod [] boundMachine stop = tap at *
  refine ⟨m', ?_⟩
  cbv
  generalize hcall : tap _ _ _ = outcome
  obtain rfl : outcome = .error stop m' := hcall.symm.trans hstop
  rfl

theorem comesTo_receiving : ComesTo 6 receiving receivingSession.machine (.expr (.this 0 1))
    (boundMethod.entered [] boundMachine) := by
  refine .of_stops fun stop => ?_
  generalize hprobe : stopAt _ (boundMethod.entered [] boundMachine) stop = probe
  have hpass (node : Node) (hnode : node ≠ .expr (.this 0 1)) (m : Machine) :
      probe node m = .ok () m := by
    rw [← hprobe]
    exact stopAt_of_ne (.inl hnode)
  have hstmt (stmt : Stmt) (m : Machine) : probe (.stmt stmt) m = .ok () m :=
    hpass _ (by rintro ⟨⟩) m
  have hcall (callee : Expr) (line : Nat) (es : List Expr) (m : Machine) :
      probe (.expr (.call callee line es)) m = .ok () m :=
    hpass _ (by rintro ⟨⟩) m
  have hclass : (probed probe .resolved 6).execute (.class ⟨"A", 1⟩ none [receivingMethod.decl])
      receivingSession.machine = .ok .normal receivingMachine :=
    (Run.bind_of_ok (hstmt _ _)).trans (by cbv)
  have hread : (probed probe .resolved 2).evaluate (.variable 1 ⟨"A", 1⟩) receivingMachine =
      .ok (.cls 0) receivingMachine :=
    (Run.bind_of_ok (hpass (.expr (.variable 1 ⟨"A", 1⟩)) (by rintro ⟨⟩) _)).trans (by cbv)
  have hobject : (probed probe .resolved 3).evaluate (.call (.variable 1 ⟨"A", 1⟩) 1 [])
      receivingMachine = .ok (.object 0) (receivingMachine.withObject 0) :=
    (Run.bind_of_ok (hcall _ _ _ _)).trans ((Run.bind_of_ok hread).trans (by cbv))
  have hget : (probed probe .resolved 4).evaluate (.get (.call (.variable 1 ⟨"A", 1⟩) 1 []) ⟨"m", 1⟩)
      receivingMachine = .ok (.function boundMethod) boundMachine :=
    (Run.bind_of_ok (hpass (.expr (.get _ _)) (by rintro ⟨⟩) _)).trans
      ((Run.bind_of_ok hobject).trans (by cbv))
  refine Run.Stops.bind (Run.Stops.bind_ok hclass ?_) _
  refine Run.Stops.bind (Run.Stops.bind_ok (hstmt _ _) ?_) _
  refine Run.Stops.bind (Run.Stops.bind_ok (hcall _ _ _ _) (Run.Stops.bind_ok hget ?_)) _
  refine Run.Stops.bind_ok rfl ?_
  change Run.Stops ((probed probe .resolved 4).invoke boundMethod []) boundMachine stop
  refine Run.Stops.bind_ok rfl (Run.Stops.bind_ok rfl (Run.Stops.bind (Run.Stops.within ?_) _))
  refine Run.Stops.bind (Run.Stops.bind_ok (hstmt _ _) (Run.Stops.bind ?_ _)) _
  subst hprobe
  exact Run.Stops.bind stops_stopAt _

/-- The object for which the method is asked is the new one. -/
theorem object_receiving {k i : Nat} {m : Machine}
    (h : evaluate .resolved k (.call (.variable 1 ⟨"A", 1⟩) 1 []) receivingMachine =
      .ok (.object i) m) : i = 0 ∧ m = receivingMachine.withObject 0 := by
  match k with
  | 0 => cases h
  | 1 => cases h
  | k + 2 =>
    cases h
    exact ⟨rfl, rfl⟩

theorem property_access_receiving :
    receivingMethod.BoundAs boundMethod 0 (receivingMachine.withObject 0) boundMachine ∧
      boundMethod.Begins [] boundMachine (boundMethod.entered [] boundMachine) ∧
      evaluate .resolved 1 (.this 0 1) (boundMethod.entered [] boundMachine) =
        .ok (.object 0) (boundMethod.entered [] boundMachine) := by
  obtain ⟨-, -, -, hobtained⟩ := property_access (.start (fun _ => 0) []) accepts_receiving
  obtain ⟨k, i, m, hobject, hproperty⟩ := hobtained _ List.mem_cons_self _ _ _ _ _ obtains_receiving
  obtain ⟨rfl, rfl⟩ := object_receiving hobject
  have hmethod : (receivingMachine.withObject 0).property? 0 "m" = some (.method receivingMethod) := by
    cbv
  rw [hmethod] at hproperty
  obtain ⟨hfield, -⟩ | ⟨f, g, hf, hg, hbound, hretains⟩ := hproperty
  · cases hfield
  · cases hf
    cases hg
    have hsteps : (boundMethod.entered [] boundMachine).frames.StepsTo
        (boundMethod.entered [] boundMachine).current "this" 0 boundMachine.frames.size :=
      ⟨rfl, fun k hk => absurd hk (Nat.not_lt_zero k)⟩
    exact ⟨hbound, (hretains.begins _ _ calls_receiving).2,
      hretains.receiver _ _ calls_receiving 0 1 _ comesTo_receiving 0 hsteps 0⟩

end Session

end Treewalk
