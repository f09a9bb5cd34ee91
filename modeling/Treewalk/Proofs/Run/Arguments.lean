import Treewalk.Proofs.Run.Confinement

/-!
# Arguments and parameters

The number of arguments is compared with the number of parameters when a value is called, and the
parameters get their values when a body is entered. In between the arguments are handed on as they
are: for a class to the initializer that its number of arguments has been taken from. So wherever a
function is called in a run it gets as many arguments as it has parameters, although nothing compares
them there.

## Main definitions

* `Closure.Begins`: a body that is entered with its parameters.
* `Machine.Enters`: the function whose body the call of a value enters.
* `Evaluators.AgreeOnMatching`: evaluators that call alike where the numbers are the same.

## Main results

* `Closure.begins`: a body is entered with its parameters if there are as many arguments.
* `callWith_of_ne`, `callWith_of_enters`: what the call of a value does.
* `Calls.arity_eq`: a function that a run calls gets as many arguments as it has parameters.
-/

namespace Treewalk

open Run

/-! ### The frame of a call -/

namespace Frames

variable {fs : Frames} {i : Nat} {params : List Name} {arguments : List Value}

/-- Names that are no parameters are not bound. -/
theorem slot?_bindAll_of_notMem {name : String} (hname : name ∉ params.map Name.text) :
    (fs.bindAll i params arguments).slot? i name = fs.slot? i name := by
  induction params generalizing fs arguments with
  | nil => rfl
  | cons p params ih =>
    cases arguments with
    | nil => rfl
    | cons v arguments =>
      rw [List.map_cons, List.mem_cons, not_or] at hname
      refine (ih hname.2).trans ?_
      by_contra hwrite
      exact hname.1 (eq_of_slot?_write_ne hwrite).2.symm

/-- Each parameter has the argument in the same position as its value, if no two parameters have the
same name. -/
theorem slot?_bindAll (hi : i < fs.size) (hnodup : (params.map Name.text).Nodup) {k : Nat} {p : Name}
    {v : Value} (hp : params[k]? = some p) (hv : arguments[k]? = some v) :
    (fs.bindAll i params arguments).slot? i p.text = some (some v) := by
  induction params generalizing fs arguments k with
  | nil => cases hp
  | cons q params ih =>
    obtain ⟨hq, hnodup⟩ := List.nodup_cons.mp hnodup
    cases arguments with
    | nil => cases hv
    | cons w arguments =>
      cases k with
      | zero =>
        cases hp
        cases hv
        exact (slot?_bindAll_of_notMem hq).trans ((fs.slot?_write hi _ _ _ _).trans (if_pos ⟨rfl, rfl⟩))
      | succ k => exact ih (by rwa [size_write]) hnodup hp hv

end Frames

/-- On the machine `m'` the body of a function begins that has been called with arguments on the
machine `m`: in a frame that was not there before, inside the one that the function closes over. In it
each parameter has the argument in the same position as its value, and nothing else is bound. -/
structure Closure.Begins (f : Closure) (arguments : List Value) (m m' : Machine) : Prop where
  length_eq : f.decl.params.length = arguments.length
  nodup : (f.decl.params.map Name.text).Nodup
  current : m'.current = m.frames.size
  size : m'.frames.size = m.frames.size + 1
  enclosing : m'.frames.enclosing? m'.current = some f.frame
  binds : ∀ (k : Nat) (p : Name) (v : Value), f.decl.params[k]? = some p → arguments[k]? = some v →
    m'.frames.slot? m'.current p.text = some (some v)
  bindsOnly : ∀ name, m'.frames.holds m'.current name → name ∈ f.decl.params.map Name.text
  others : ∀ i < m.frames.size, ∀ name, m'.frames.slot? i name = m.frames.slot? i name

/-- A body is entered with its parameters if there are as many arguments and no two parameters have the
same name. -/
theorem Closure.begins {f : Closure} {arguments : List Value}
    (hlength : f.decl.params.length = arguments.length)
    (hnodup : (f.decl.params.map Name.text).Nodup) (m : Machine) :
    f.Begins arguments m (f.entered arguments m) where
  length_eq := hlength
  nodup := hnodup
  current := rfl
  size := Frames.size_bindAll_add _ _ _ _ _
  enclosing := Frames.enclosing?_bindAll_add _ _ _ _ _
  binds k p v hp hv := by
    refine Frames.slot?_bindAll ?_ hnodup hp hv
    rw [Frames.size_add]
    exact Nat.lt_succ_self _
  bindsOnly name hname := by
    by_contra hnot
    have hslot : (f.entered arguments m).frames.slot? m.frames.size name = none :=
      (Frames.slot?_bindAll_of_notMem hnot).trans ((Frames.slot?_add _ _ _ _).trans (if_pos rfl))
    rw [Frames.holds] at hname
    change ((f.entered arguments m).frames.slot? m.frames.size name).isSome = true at hname
    rw [hslot] at hname
    cases hname
  others i hi name :=
    (Frames.slot?_bindAll_of_ne _ (Nat.ne_of_gt hi) _ _ _).trans
      ((Frames.slot?_add _ _ _ _).trans (if_neg (Nat.ne_of_lt hi)))

/-! ### Calls of values -/

/-- The machine with a new object of a class, which has no fields yet. -/
def Machine.withObject (m : Machine) (c : Nat) : Machine :=
  { m with objects := m.objects.push ⟨c, []⟩ }

@[simp] theorem Machine.classes_withObject (m : Machine) (c : Nat) :
    (m.withObject c).classes = m.classes :=
  rfl

/-- The machine with a function bound to a receiver. -/
def Machine.withBound (m : Machine) (f : Closure) (receiver : Value) : Machine :=
  { m with frames := m.frames.addBinding f.frame "this" receiver, closures := m.closures + 1 }

/-- A function that is bound to a receiver on a machine. -/
def Closure.boundOn (f : Closure) (m : Machine) : Closure :=
  ⟨m.closures, f.decl, m.frames.size, f.isInitializer⟩

theorem Run.bindReceiver_apply (f : Closure) (receiver : Value) (m : Machine) :
    bindReceiver f receiver m = .ok (f.boundOn m) (m.withBound f receiver) :=
  rfl

/-- The call of a value on the machine `m` enters the body of a function, on the machine `m'`. A class
makes an object and binds its initializer to it before. -/
inductive Machine.Enters (m : Machine) : Value → Closure → Machine → Prop
  | function (f : Closure) : Enters m (.function f) f m
  | initializer {c : Nat} {f : Closure} (h : m.findMethod? c initializerName = some f) :
    Enters m (.cls c) (f.boundOn (m.withObject c))
      ((m.withObject c).withBound f (.object m.objects.size))

/-- What the call of a value gives when the body that it enters gives a value: a class gives the object
that it has made. -/
def Value.answer (callee : Value) (m : Machine) (v : Value) : Value :=
  match callee with
  | .cls _ => .object m.objects.size
  | _ => v

section Calls

variable {invoke : Closure → List Value → Run Value} {callee : Value} {arguments : List Value}
  {line n : Nat} {m m' : Machine} {g : Closure}

/-- The function that is entered has the number of parameters that the value is asked for. -/
theorem Machine.Enters.arity_eq (h : m.Enters callee g m') : m.arity? callee = some g.decl.arity := by
  cases h with
  | function f => rfl
  | initializer h => rw [Machine.arity?, h, Option.elim_some]; rfl

/-- With another number of arguments nothing is called. -/
theorem callWith_of_ne (harity : m.arity? callee = some n) (hne : n ≠ arguments.length) :
    callWith invoke callee arguments line m =
      .error (.raised ⟨.arityMismatch n arguments.length, line⟩) m := by
  rw [callWith, get_bind_apply, harity]
  exact congrFun (if_neg hne) m

theorem callWith_of_eq (harity : m.arity? callee = some n) (heq : n = arguments.length) :
    callWith invoke callee arguments line m = callUnchecked invoke callee arguments line m := by
  rw [callWith, get_bind_apply, harity]
  exact congrFun (if_pos heq) m

/-- A class makes an object. If it has an initializer, that is bound to the object and called. -/
theorem callUnchecked_cls_apply (c : Nat) :
    callUnchecked invoke (.cls c) arguments line m =
      match m.findMethod? c initializerName with
      | none => .ok (.object m.objects.size) (m.withObject c)
      | some f =>
        (do
          let _ ← invoke (f.boundOn (m.withObject c)) arguments
          return .object m.objects.size : Run Value)
          ((m.withObject c).withBound f (.object m.objects.size)) := by
  have hfind : (m.withObject c).findMethod? c initializerName = m.findMethod? c initializerName :=
    Machine.findMethod?_congr (m.classes_withObject c) c initializerName
  change ((get >>= fun m' : Machine => match m'.findMethod? c initializerName with
    | none => pure (.object m.objects.size)
    | some f => bindReceiver f (.object m.objects.size) >>= fun g => invoke g arguments >>= fun _ =>
        pure (.object m.objects.size)) : Run Value) (m.withObject c) = _
  rw [get_bind_apply, hfind]
  cases m.findMethod? c initializerName with
  | none => rfl
  | some f => exact Run.bind_of_ok (bindReceiver_apply f (.object m.objects.size) (m.withObject c))

/-- With the right number of arguments the body of a function is entered, once. -/
theorem callWith_of_enters (h : m.Enters callee g m') (heq : g.decl.arity = arguments.length) :
    callWith invoke callee arguments line m =
      (do
        let v ← invoke g arguments
        return callee.answer m v) m' := by
  rw [callWith_of_eq h.arity_eq heq]
  cases h with
  | function => exact congrFun (bind_pure (invoke g arguments)).symm m
  | initializer h => rw [callUnchecked_cls_apply, h]; rfl

end Calls

/-! ### The number of arguments -/

/-- Evaluators that evaluate and execute alike, and that call alike a function with as many arguments as
it has parameters. -/
structure Evaluators.AgreeOnMatching (parts' parts : Evaluators) : Prop where
  evaluate : parts'.evaluate = parts.evaluate
  execute : parts'.execute = parts.execute
  invoke : ∀ (f : Closure) (arguments : List Value), f.decl.arity = arguments.length →
    parts'.invoke f arguments = parts.invoke f arguments

namespace Evaluators.AgreeOnMatching

variable {parts' parts : Evaluators} (h : AgreeOnMatching parts' parts)

include h

/-- Values are called alike: the body that is entered gets the right number of arguments. -/
theorem callWith (callee : Value) (arguments : List Value) (line : Nat) :
    callWith parts'.invoke callee arguments line = callWith parts.invoke callee arguments line := by
  funext m
  cases harity : m.arity? callee with
  | none => rw [Treewalk.callWith, Treewalk.callWith, get_bind_apply, get_bind_apply, harity]
  | some n =>
    by_cases heq : n = arguments.length
    · by_cases henters : ∃ g m', m.Enters callee g m'
      · obtain ⟨g, m', henters⟩ := henters
        obtain rfl := Option.some.inj (harity.symm.trans henters.arity_eq)
        rw [callWith_of_enters henters heq, callWith_of_enters henters heq, h.invoke g arguments heq]
      · rw [callWith_of_eq harity heq, callWith_of_eq harity heq]
        cases callee with
        | function f => exact absurd ⟨f, m, .function f⟩ henters
        | cls c =>
          rw [callUnchecked_cls_apply, callUnchecked_cls_apply]
          cases hf : m.findMethod? c initializerName with
          | none => rfl
          | some f => exact absurd ⟨_, _, .initializer hf⟩ henters
        | _ => rfl
    · rw [callWith_of_ne harity heq, callWith_of_ne harity heq]

theorem evaluateStep (lookup : Lookup) (e : Expr) :
    evaluateStep lookup parts' e = evaluateStep lookup parts e := by
  cases e with
  | call callee line arguments => simp only [Treewalk.evaluateStep, h.evaluate, h.callWith]
  | _ => simp only [Treewalk.evaluateStep, h.evaluate]

theorem executeStep (bound : Nat) (s : Stmt) :
    executeStep parts' bound s = executeStep parts bound s := by
  match s with
  | .variable _ none | .variable _ (some _) | .return _ none | .return _ (some _)
  | .class _ none _ | .class _ (some _) _ | .expression _ | .block _ | .ifThen _ _ | .ifElse _ _ _
  | .while _ _ | .function _ =>
    simp only [Treewalk.executeStep, h.evaluate, h.execute]

theorem invokeStep (f : Closure) (arguments : List Value) :
    invokeStep parts' f arguments = invokeStep parts f arguments := by
  simp only [Treewalk.invokeStep, h.execute]

end Evaluators.AgreeOnMatching

/-- A tap that passes at calls with the right number of arguments makes no difference. -/
theorem tapped_agreeOnMatching {tap : Closure → List Value → Run Unit}
    (htap : ∀ (f : Closure) (arguments : List Value), f.decl.arity = arguments.length →
      tap f arguments = pure ()) (lookup : Lookup) (fuel : Nat) :
    (tapped tap lookup fuel).AgreeOnMatching (evaluators lookup fuel) := by
  induction fuel with
  | zero => exact ⟨rfl, rfl, fun _ _ _ => rfl⟩
  | succ fuel ih =>
    refine ⟨funext (ih.evaluateStep lookup), funext (ih.executeStep fuel), fun f arguments heq => ?_⟩
    change (tap f arguments >>= fun _ => invokeStep (tapped tap lookup fuel) f arguments) = _
    rw [htap f arguments heq, pure_bind]
    exact ih.invokeStep f arguments

/-- A function that a run calls gets as many arguments as it has parameters. -/
theorem Calls.arity_eq {fuel : Nat} {body : List Stmt} {start m : Machine} {f : Closure}
    {arguments : List Value} (h : Calls fuel body start f arguments m) :
    f.decl.arity = arguments.length := by
  by_contra hne
  obtain ⟨stop, hstop⟩ := h
  have hpass (f' : Closure) (arguments' : List Value) (heq : f'.decl.arity = arguments'.length) :
      tapAt f arguments m stop f' arguments' = pure () := by
    funext m'
    refine if_neg fun hsame => hne ?_
    obtain ⟨rfl, rfl, -⟩ := hsame
    exact heq
  refine hstop ?_
  rw [interpretTapped, (tapped_agreeOnMatching hpass .resolved fuel).execute]
  rfl

end Treewalk
