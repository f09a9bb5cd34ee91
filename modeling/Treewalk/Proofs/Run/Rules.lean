import Treewalk.Evaluation

/-!
# Properties that pass from the parts of a computation to the whole

The evaluators are put together from the operations of the machine, one computation after another, and in
another frame. So a property that the operations have, and that both ways pass on, is a property of the
evaluators. It may be one of a family of computations, such as the runs with all ways of stopping.

## Main definitions

* `Run.IsOperation`: the operations of the machine.
* `Run.Rules`: properties that the operations have and that pass from parts to the whole.
* `Run.Rules.OfEvaluators`: evaluators that have the property.

## Main results

* `Run.Rules.evaluateStep`, `Run.Rules.executeStep`, `Run.Rules.invokeStep`: one step inward.
* `Run.Rules.evaluators`: the evaluators with any fuel.
-/

namespace Treewalk

namespace Run

/-- The operations of the machine of which computations are made. -/
inductive IsOperation : {α : Type} → Run α → Prop
  | pure {α : Type} (a : α) : IsOperation (Pure.pure a)
  | throw {α : Type} (e : Interrupt) : IsOperation (MonadExcept.throw e : Run α)
  | get : IsOperation (MonadState.get : Run Machine)
  | newFrame (enclosing : Nat) : IsOperation (newFrame enclosing)
  | writeSlot (i : Nat) (name : String) (slot : Option Value) : IsOperation (writeSlot i name slot)
  | define (name : String) (v : Value) : IsOperation (define name v)
  | declare (name : String) : IsOperation (declare name)
  | currentFrame : IsOperation currentFrame
  | newClosure (decl : FunctionDecl) (frame : Nat) (isInitializer : Bool) :
    IsOperation (newClosure decl frame isInitializer)
  | newClass (info : ClassInfo) : IsOperation (newClass info)
  | newObject (c : Nat) : IsOperation (newObject c)
  | setField (i : Nat) (name : String) (v : Value) : IsOperation (setField i name v)
  | native (n : Native) (arguments : List Value) (line : Nat) : IsOperation (n.run arguments line)

/-- A property of families of computations that the operations of the machine have, and that passes from
the parts of a computation to the whole. -/
structure Rules (ι : Type) where
  /-- The property. -/
  Holds : {α : Type} → (ι → Run α) → Prop
  operation : ∀ {α : Type} {x : Run α}, IsOperation x → Holds fun _ => x
  bind : ∀ {α β : Type} {x : ι → Run α} {f : ι → α → Run β}, Holds x → (∀ a, Holds fun i => f i a) →
    Holds fun i => x i >>= f i
  within : ∀ {α : Type} {x : ι → Run α} (frame : Nat), Holds x → Holds fun i => within frame (x i)

namespace Rules

variable {ι α β : Type} (P : Rules ι)

theorem pure (a : α) : P.Holds fun _ => (Pure.pure a : Run α) :=
  P.operation (.pure a)

theorem ite {c : Prop} [Decidable c] {x y : ι → Run α} (hx : P.Holds x) (hy : P.Holds y) :
    P.Holds fun i => if c then x i else y i := by
  by_cases hc : c
  · simpa only [if_pos hc] using hx
  · simpa only [if_neg hc] using hy

/-- The machine is looked at before the rest of a computation. -/
theorem get_bind {f : ι → Machine → Run α} (hf : ∀ m, P.Holds fun i => f i m) :
    P.Holds fun i => MonadState.get >>= f i :=
  P.bind (P.operation .get) hf

theorem raise (fault : RuntimeFault) (line : Nat) : P.Holds fun _ => (raise fault line : Run α) :=
  P.operation (.throw _)

theorem checked (line : Nat) (outcome : Except RuntimeFault α) :
    P.Holds fun _ => checked line outcome := by
  cases outcome with
  | ok a => exact P.pure a
  | error fault => exact P.raise fault line

theorem readVariable (lookup : Lookup) (id : Nat) (name : Name) :
    P.Holds fun _ => readVariable lookup id name :=
  P.get_bind fun _ => P.checked _ _

theorem assignIn (holder : Option Nat) (name : Name) (v : Value) :
    P.Holds fun _ => assignIn holder name v := by
  cases holder with
  | none => exact P.raise _ _
  | some i => exact P.operation (.writeSlot i name.text (some v))

theorem assignVariable (lookup : Lookup) (id : Nat) (name : Name) (v : Value) :
    P.Holds fun _ => assignVariable lookup id name v :=
  P.get_bind fun _ => P.assignIn _ _ _

theorem bindReceiver (f : Closure) (receiver : Value) : P.Holds fun _ => bindReceiver f receiver :=
  P.bind (P.operation (.newFrame _)) fun _ => P.bind (P.operation (.writeSlot _ _ _)) fun _ =>
    P.operation (.newClosure _ _ _)

theorem asObject (v : Value) (what : String) (line : Nat) :
    P.Holds fun _ => asObject v what line := by
  cases v with
  | object i => exact P.pure i
  | _ => exact P.raise _ _

/-- A method that is found is bound; otherwise there is a fault. -/
theorem bindFound (found : Option Closure) (receiver : Value) (fault : RuntimeFault) (line : Nat) :
    P.Holds fun _ => (match found with
      | some f => do return .function (← Run.bindReceiver f receiver)
      | none => Run.raise fault line : Run Value) := by
  cases found with
  | some f => exact P.bind (P.bindReceiver f receiver) fun _ => P.pure _
  | none => exact P.raise _ _

theorem property (i : Nat) (name : Name) : P.Holds fun _ => property i name := by
  refine P.get_bind fun m => ?_
  cases m.field? i name.text with
  | some v => exact P.pure v
  | none => exact P.bindFound _ _ _ _

theorem superMethod (id line : Nat) (method : Name) :
    P.Holds fun _ => superMethod id line method := by
  refine P.get_bind fun m => ?_
  cases m.distances.get? id with
  | none => exact P.raise _ _
  | some distance =>
    refine P.bind (P.checked _ _) fun parent => P.bind (P.checked _ _) fun v => ?_
    cases parent with
    | cls c => exact P.bindFound _ _ _ _
    | _ => exact P.raise _ _

theorem methodFrame (superclass : Option Nat) : P.Holds fun _ => methodFrame superclass := by
  refine P.bind (P.operation .currentFrame) fun outer => ?_
  cases superclass with
  | none => exact P.pure outer
  | some c =>
    exact P.bind (P.operation (.newFrame outer)) fun i =>
      P.bind (P.operation (.writeSlot i _ _)) fun _ => P.pure i

theorem makeMethods (frame : Nat) (methods : List FunctionDecl) (table : Bindings Closure) :
    P.Holds fun _ => makeMethods frame methods table := by
  induction methods generalizing table with
  | nil => exact P.pure table
  | cons d methods ih => exact P.bind (P.operation (.newClosure d frame _)) fun f => ih _

theorem declareClass (name : Name) (superclass : Option Nat) (methods : List FunctionDecl) :
    P.Holds fun _ => declareClass name superclass methods :=
  P.bind (P.operation (.define _ _)) fun _ => P.bind (P.methodFrame superclass) fun frame =>
    P.bind (P.makeMethods frame methods []) fun _ => P.bind (P.operation (.newClass _)) fun _ =>
      P.get_bind fun _ => P.assignIn _ _ _

theorem asSuperclass (v : Value) (line : Nat) : P.Holds fun _ => asSuperclass v line := by
  cases v with
  | cls c => exact P.pure c
  | _ => exact P.raise _ _

theorem bindParameters (i : Nat) (params : List Name) (arguments : List Value) :
    P.Holds fun _ => bindParameters i params arguments := by
  induction params generalizing arguments with
  | nil => exact P.pure _
  | cons p params ih =>
    cases arguments with
    | nil => exact P.pure _
    | cons v arguments => exact P.bind (P.operation (.writeSlot i p.text (some v))) fun _ => ih arguments

/-! ### One step inward -/

/-- Evaluators that have the property. -/
structure OfEvaluators (parts : ι → Evaluators) : Prop where
  evaluate : ∀ e, P.Holds fun i => (parts i).evaluate e
  execute : ∀ s, P.Holds fun i => (parts i).execute s
  invoke : ∀ f arguments, P.Holds fun i => (parts i).invoke f arguments

namespace OfEvaluators

variable {P} {parts : ι → Evaluators} (h : P.OfEvaluators parts)

include h

theorem callUnchecked (callee : Value) (arguments : List Value) (line : Nat) :
    P.Holds fun i => callUnchecked (parts i).invoke callee arguments line := by
  cases callee with
  | native n => exact P.operation (.native n arguments line)
  | function f => exact h.invoke f arguments
  | cls c =>
    refine P.bind (P.operation (.newObject c)) fun o => P.get_bind fun m => ?_
    cases m.findMethod? c initializerName with
    | none => exact P.pure _
    | some f =>
      exact P.bind (P.bindReceiver f _) fun g => P.bind (h.invoke g arguments) fun _ => P.pure _
  | _ => exact P.raise _ _

theorem callWith (callee : Value) (arguments : List Value) (line : Nat) :
    P.Holds fun i => callWith (parts i).invoke callee arguments line := by
  refine P.get_bind fun m => ?_
  cases m.arity? callee with
  | none => exact P.raise _ _
  | some arity => exact P.ite (h.callUnchecked callee arguments line) (P.raise _ _)

theorem evaluateAll (es : List Expr) : P.Holds fun i => evaluateAll (parts i).evaluate es := by
  induction es with
  | nil => exact P.pure _
  | cons e es ih => exact P.bind (h.evaluate e) fun v => P.bind ih fun vs => P.pure _

theorem evaluateStep (lookup : Lookup) (e : Expr) :
    P.Holds fun i => evaluateStep lookup (parts i) e := by
  cases e with
  | literal l => exact P.pure _
  | grouping inner => exact h.evaluate inner
  | unary op line operand => exact P.bind (h.evaluate operand) fun v => P.checked _ _
  | binary op line left right =>
    exact P.bind (h.evaluate left) fun v => P.bind (h.evaluate right) fun w =>
      P.get_bind fun m => P.checked _ _
  | logical op line left right =>
    exact P.bind (h.evaluate left) fun v => P.ite (P.pure v) (h.evaluate right)
  | ternary condition whenTrue whenFalse =>
    exact P.bind (h.evaluate condition) fun v => P.ite (h.evaluate whenTrue) (h.evaluate whenFalse)
  | «variable» id name => exact P.readVariable lookup id name
  | assign id name value =>
    exact P.bind (h.evaluate value) fun v => P.bind (P.assignVariable lookup id name v) fun _ =>
      P.pure v
  | call callee line arguments =>
    exact P.bind (h.evaluate callee) fun f => P.bind (h.evaluateAll arguments) fun vs =>
      h.callWith f vs line
  | get object name =>
    exact P.bind (h.evaluate object) fun v => P.bind (P.asObject v _ _) fun o => P.property o name
  | set object name value =>
    exact P.bind (h.evaluate object) fun v => P.bind (P.asObject v _ _) fun o =>
      P.bind (h.evaluate value) fun w => P.bind (P.operation (.setField o name.text w)) fun _ =>
        P.pure w
  | this id line => exact P.readVariable lookup id ⟨"this", line⟩
  | super id line method => exact P.superMethod id line method

theorem executeAll (ss : List Stmt) : P.Holds fun i => executeAll (parts i).execute ss := by
  induction ss with
  | nil => exact P.pure _
  | cons s ss ih =>
    refine P.bind (h.execute s) fun flow => ?_
    cases flow with
    | normal => exact ih
    | returned v => exact P.pure _

theorem loop (condition : Expr) (body : Stmt) (bound : Nat) :
    P.Holds fun i => loop ((parts i).evaluate condition) ((parts i).execute body) bound := by
  induction bound with
  | zero => exact P.operation (.throw _)
  | succ bound ih =>
    refine P.bind (h.evaluate condition) fun v => P.ite (P.bind (h.execute body) fun flow => ?_)
      (P.pure _)
    cases flow with
    | normal => exact ih
    | returned v => exact P.pure _

theorem executeStep (bound : Nat) (s : Stmt) :
    P.Holds fun i => executeStep (parts i) bound s := by
  match s with
  | .expression e => exact P.bind (h.evaluate e) fun _ => P.pure _
  | .variable name (some e) =>
    exact P.bind (h.evaluate e) fun v => P.bind (P.operation (.define name.text v)) fun _ => P.pure _
  | .variable name none => exact P.bind (P.operation (.declare name.text)) fun _ => P.pure _
  | .block body =>
    exact P.bind (P.operation .currentFrame) fun outer => P.bind (P.operation (.newFrame outer))
      fun frame => P.within frame (h.executeAll body)
  | .ifThen condition thenBranch =>
    exact P.bind (h.evaluate condition) fun v => P.ite (h.execute thenBranch) (P.pure _)
  | .ifElse condition thenBranch elseBranch =>
    exact P.bind (h.evaluate condition) fun v => P.ite (h.execute thenBranch) (h.execute elseBranch)
  | .while condition body => exact h.loop condition body bound
  | .function decl =>
    exact P.bind (P.operation .currentFrame) fun outer =>
      P.bind (P.operation (.newClosure decl outer false)) fun f =>
        P.bind (P.operation (.define decl.name.text (.function f))) fun _ => P.pure _
  | .return line (some e) => exact P.bind (h.evaluate e) fun _ => P.pure _
  | .return line none => exact P.pure _
  | .class name none methods => exact P.bind (P.declareClass name none methods) fun _ => P.pure _
  | .class name (some s) methods =>
    exact P.bind (h.evaluate s.expr) fun v => P.bind (P.asSuperclass v _) fun c =>
      P.bind (P.declareClass name (some c) methods) fun _ => P.pure _

theorem invokeStep (f : Closure) (arguments : List Value) :
    P.Holds fun i => invokeStep (parts i) f arguments := by
  refine P.bind (P.operation (.newFrame f.frame)) fun frame =>
    P.bind (P.bindParameters frame f.decl.params arguments) fun _ =>
      P.bind (P.within frame (h.executeAll f.decl.body)) fun flow => ?_
  exact P.ite (P.get_bind fun m => P.checked _ _) (P.pure _)

end OfEvaluators

/-- The evaluators have the property, with any fuel. -/
theorem evaluators (lookup : Lookup) (fuel : Nat) :
    P.OfEvaluators fun _ => evaluators lookup fuel := by
  induction fuel with
  | zero =>
    exact ⟨fun _ => P.operation (.throw _), fun _ => P.operation (.throw _),
      fun _ _ => P.operation (.throw _)⟩
  | succ fuel ih => exact ⟨ih.evaluateStep lookup, ih.executeStep fuel, ih.invokeStep⟩

end Rules

end Run

end Treewalk
