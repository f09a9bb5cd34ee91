import Treewalk.Proofs.Run.Declaring
import Treewalk.Proofs.Run.Holding
import Treewalk.Proofs.Run.Unfolding

/-!
# Declarations and assignments that fail

A declaration of a variable with a value, a declaration of a class, and an assignment to a variable or
to a field evaluate expressions first and write something then. One that fails has written nothing: the
machine is as the expressions that have been evaluated left it. Either the last of these has failed, or
the declaration or the assignment itself has a fault, which it finds before it begins to write.

So a class is not declared if its superclass has no value or has another value than a class, nothing is
defined by an assignment to a variable that is not defined, and of an assignment to a field of something
that has none the right side is not evaluated.

## Main definitions

* `Node.Commits`: the declarations and the assignments, with the expressions that they evaluate.
* `Node.Faults`: the faults that they have themselves.
* `Node.CutShort`: a declaration or an assignment that has been cut short.

## Main results

* `Node.exists_cutShort`: a declaration or an assignment that is cut short has written nothing.
* `fails_before_writing`: the same, with what follows for classes, variables and fields.
-/

namespace Treewalk

open Run

namespace Node

/-- Evaluates an expression or executes a statement, for what it does to the machine. A routine is not
run where it stands. -/
def run (parts : Evaluators) : Node → Run Unit
  | .expr e => do
    let _ ← parts.evaluate e
  | .stmt s => do
    let _ ← parts.execute s
  | .routine _ => pure ()

/-- The declarations and the assignments that write something after they have evaluated expressions,
with these expressions from left to right. -/
inductive Commits : Node → List Expr → Prop
  /-- The declaration of a variable with a value. -/
  | declared (name : Name) (e : Expr) : Commits (.stmt (.variable name (some e))) [e]
  /-- The declaration of a class. -/
  | cls (name : Name) (superclass : Option Superclass) (methods : List FunctionDecl) :
    Commits (.stmt (.class name superclass methods)) (superclass.toList.map Superclass.expr)
  /-- An assignment to a variable. -/
  | assign (id : Nat) (name : Name) (e : Expr) : Commits (.expr (.assign id name e)) [e]
  /-- An assignment to a field. -/
  | field (object : Expr) (name : Name) (e : Expr) : Commits (.expr (.set object name e)) [object, e]

/-- The faults of declarations and assignments themselves, when expressions have given values. -/
inductive Faults (lookup : Lookup) : Node → List Value → Machine → Interrupt → Prop
  /-- The superclass is no class. -/
  | superclass {name : Name} {s : Superclass} {methods : List FunctionDecl} {v : Value} {m : Machine}
      (hv : ∀ c, v ≠ .cls c) : Faults lookup (.stmt (.class name (some s) methods)) [v] m
        (.raised ⟨.invalidSuperclass, s.name.line⟩)
  /-- The variable is not defined. -/
  | undefined {id : Nat} {name : Name} {e : Expr} {v : Value} {m : Machine}
      (hnone : m.holderOf lookup id name.text = none) : Faults lookup (.expr (.assign id name e)) [v] m
        (.raised ⟨.undefinedVariable name.text, name.line⟩)
  /-- Something else than an object has no fields. -/
  | notObject {object : Expr} {name : Name} {e : Expr} {v : Value} {m : Machine}
      (hv : ∀ i, v ≠ .object i) : Faults lookup (.expr (.set object name e)) [v] m
        (.raised ⟨.notAnObject "fields", name.line⟩)

/-- A node that is evaluated or executed is cut short when some expressions have been evaluated. The
moments are that of the node itself and those of the expressions, and the machine is the one that the
expressions leave: the last of them has been cut short, or the node itself has a fault. -/
structure CutShort (lookup : Lookup) (fuel : Nat) (node : Node) (evaluated : List Expr) (m : Machine)
    (stop : Interrupt) (m' : Machine) : Prop where
  moments : ∃ log,
    Logs (fun watch => evaluateAll (watched watch lookup fuel).evaluate evaluated) m log ∧
      Logs (fun watch => node.run (watched watch lookup (fuel + 1))) m (⟨.node node, m⟩ :: log)
  outcome : evaluateAll (Treewalk.evaluate lookup fuel) evaluated m = .error stop m' ∨
    ∃ vs, evaluateAll (Treewalk.evaluate lookup fuel) evaluated m = .ok vs m' ∧
      node.Faults lookup vs m' stop

end Node

variable {lookup : Lookup} {fuel : Nat} {m m₁ m' : Machine} {stop : Interrupt} {log log' : List Moment}
  {e e' : Expr} {v : Value}

/-! ### Moments -/

/-- The evaluation of an expression has a log. -/
theorem exists_logs_evaluate (lookup : Lookup) (fuel : Nat) (e : Expr) (m : Machine) :
    ∃ log, Logs (fun watch => (watched watch lookup fuel).evaluate e) m log := by
  obtain ⟨log, hlog, -⟩ := (watched_unfolding lookup fuel).evaluate m e
  exact ⟨log, hlog⟩

theorem watched_evaluate (lookup : Lookup) (fuel : Nat) (e : Expr) :
    (watched (fun _ => pure ()) lookup fuel).evaluate e = evaluate lookup fuel e := by
  rw [watched_pure]
  rfl

theorem logs_evaluateAll_singleton
    (h : Logs (fun watch => (watched watch lookup fuel).evaluate e) m log) :
    Logs (fun watch => evaluateAll (watched watch lookup fuel).evaluate [e]) m log :=
  h.bind_const fun v => evaluateAll (evaluate lookup fuel) [] >>= fun vs => pure (v :: vs)

theorem logs_evaluateAll_pair (h : Logs (fun watch => (watched watch lookup fuel).evaluate e) m log)
    (hv : evaluate lookup fuel e m = .ok v m₁)
    (h' : Logs (fun watch => (watched watch lookup fuel).evaluate e') m₁ log') :
    Logs (fun watch => evaluateAll (watched watch lookup fuel).evaluate [e, e']) m (log ++ log') := by
  have hok : (watched (fun _ => pure ()) lookup fuel).evaluate e m = .ok v m₁ := by
    rwa [watched_evaluate]
  exact h.bind_ok hok ((logs_evaluateAll_singleton h').bind_const _)

/-- The moment of an expression comes before those of its parts. -/
theorem logs_run_expr
    (h : Logs (fun watch => evaluateAnnounced watch lookup (watched watch lookup fuel) e) m log) :
    Logs (fun watch => Node.run (watched watch lookup (fuel + 1)) (.expr e)) m
      (⟨.node (.expr e), m⟩ :: log) :=
  ((Logs.event _ m).bind_ok rfl h).bind_const fun _ => pure ()

/-- The moment of a statement comes before those of its parts. -/
theorem logs_run_stmt {s : Stmt}
    (h : Logs (fun watch => executeStep (watched watch lookup fuel) fuel s) m log) :
    Logs (fun watch => Node.run (watched watch lookup (fuel + 1)) (.stmt s)) m
      (⟨.node (.stmt s), m⟩ :: log) :=
  ((Logs.event _ m).bind_ok rfl h).bind_const fun _ => pure ()

/-! ### Outcomes -/

/-- A computation that continues another one fails because that one does, or after it. -/
theorem bind_eq_error_iff {α β : Type} {x : Run α} {f : α → Run β} :
    (x >>= f) m = .error stop m' ↔
      x m = .error stop m' ∨ ∃ a m₁, x m = .ok a m₁ ∧ f a m₁ = .error stop m' := by
  rw [bind_apply]
  cases x m with
  | ok a m₁ => simp
  | error e m₁ => simp

/-- A computation of whose value another one is made fails as it does by itself. -/
theorem bind_pure_eq_error_iff {α β : Type} {x : Run α} {f : α → β} :
    (x >>= fun a => pure (f a)) m = .error stop m' ↔ x m = .error stop m' := by
  rw [bind_eq_error_iff, or_iff_left]
  rintro ⟨a, m₁, -, h⟩
  cases h

theorem run_expr_eq_error_iff : Node.run (evaluators lookup (fuel + 1)) (.expr e) m = .error stop m' ↔
    evaluateStep lookup (evaluators lookup fuel) e m = .error stop m' :=
  bind_pure_eq_error_iff

theorem run_stmt_eq_error_iff {s : Stmt} :
    Node.run (evaluators lookup (fuel + 1)) (.stmt s) m = .error stop m' ↔
      executeStep (evaluators lookup fuel) fuel s m = .error stop m' :=
  bind_pure_eq_error_iff

theorem evaluateAll_singleton_ok {parts : Expr → Run Value} (h : parts e m = .ok v m₁) :
    evaluateAll parts [e] m = .ok [v] m₁ := by
  rw [evaluateAll, bind_of_ok h]
  rfl

theorem evaluateAll_singleton_error {parts : Expr → Run Value} (h : parts e m = .error stop m') :
    evaluateAll parts [e] m = .error stop m' := by
  rw [evaluateAll, bind_apply, h]

theorem evaluateAll_pair_error {parts : Expr → Run Value} (h : parts e m = .ok v m₁)
    (h' : parts e' m₁ = .error stop m') : evaluateAll parts [e, e'] m = .error stop m' := by
  rw [evaluateAll, bind_of_ok h, bind_apply, evaluateAll_singleton_error h']

/-- The name of a class is bound when its class is assigned to it, so that this does not fail. -/
theorem declareClass_ne_error (hm : m.current < m.frames.size) (name : Name) (superclass : Option Nat)
    (methods : List FunctionDecl) : declareClass name superclass methods m ≠ .error stop m' := by
  have hdefine : define name.text .nil m =
      .ok () { m with frames := m.frames.define m.current name.text .nil } := rfl
  rw [declareClass_eq hm, declareClassHere, bind_of_ok hdefine,
    bind_of_ok (methodFrame_apply superclass _), bind_of_ok (makeMethods_apply _ methods [] _)]
  intro h
  cases h

/-- A superclass is read without a change to the machine. -/
theorem after_evaluate_superclass (s : Superclass) : (evaluate lookup fuel s.expr).after m = m := by
  cases fuel with
  | zero => rfl
  | succ fuel =>
    change (checked _ (m.frames.readIn (m.holderOf lookup s.id s.name.text) s.name.text)).after m = m
    cases m.frames.readIn (m.holderOf lookup s.id s.name.text) s.name.text <;> rfl

namespace Node

/-- A declaration or an assignment that begins with an expression and does not go on to another one. -/
theorem moments_single {node : Node}
    (h : ∀ log, Logs (fun watch => (watched watch lookup fuel).evaluate e) m log →
      Logs (fun watch => node.run (watched watch lookup (fuel + 1))) m (⟨.node node, m⟩ :: log)) :
    ∃ log, Logs (fun watch => evaluateAll (watched watch lookup fuel).evaluate [e]) m log ∧
      Logs (fun watch => node.run (watched watch lookup (fuel + 1))) m (⟨.node node, m⟩ :: log) := by
  obtain ⟨log, hlog⟩ := exists_logs_evaluate lookup fuel e m
  exact ⟨log, logs_evaluateAll_singleton hlog, h log hlog⟩

/-- The declaration of a variable fails because its value cannot be given. -/
theorem cutShort_variable {name : Name}
    (h : Node.run (evaluators lookup (fuel + 1)) (.stmt (.variable name (some e))) m = .error stop m') :
    CutShort lookup fuel (.stmt (.variable name (some e))) [e] m stop m' where
  moments := moments_single fun _ hlog => logs_run_stmt (hlog.bind_const _)
  outcome := by
    rcases bind_eq_error_iff.mp (run_stmt_eq_error_iff.mp h) with he | ⟨v, m₁, -, hdefine⟩
    · exact .inl (evaluateAll_singleton_error he)
    · cases hdefine

/-- An assignment to a variable fails because its value cannot be given, or there is no variable then. -/
theorem cutShort_assign {id : Nat} {name : Name}
    (h : Node.run (evaluators lookup (fuel + 1)) (.expr (.assign id name e)) m = .error stop m') :
    CutShort lookup fuel (.expr (.assign id name e)) [e] m stop m' where
  moments := moments_single fun _ hlog => logs_run_expr (hlog.bind_const _)
  outcome := by
    rcases bind_eq_error_iff.mp (run_expr_eq_error_iff.mp h) with he | ⟨v, m₁, he, hassign⟩
    · exact .inl (evaluateAll_singleton_error he)
    · rcases bind_eq_error_iff.mp hassign with hassign | ⟨-, m₂, -, hpure⟩
      · cases hnone : m₁.holderOf lookup id name.text with
        | none =>
          change assignIn (m₁.holderOf lookup id name.text) name v m₁ = _ at hassign
          rw [hnone] at hassign
          cases hassign
          exact .inr ⟨[v], evaluateAll_singleton_ok he, .undefined hnone⟩
        | some i =>
          change assignIn (m₁.holderOf lookup id name.text) name v m₁ = _ at hassign
          rw [hnone] at hassign
          cases hassign
      · cases hpure

/-- The declaration of a class with a superclass fails because the superclass cannot be read, or it is no
class. -/
theorem cutShort_subclass (hm : m.current < m.frames.size) {name : Name} {s : Superclass}
    {methods : List FunctionDecl}
    (h : Node.run (evaluators lookup (fuel + 1)) (.stmt (.class name (some s) methods)) m =
      .error stop m') :
    CutShort lookup fuel (.stmt (.class name (some s) methods)) [s.expr] m stop m' where
  moments := moments_single fun _ hlog => logs_run_stmt (hlog.bind_const _)
  outcome := by
    rcases bind_eq_error_iff.mp (run_stmt_eq_error_iff.mp h) with he | ⟨v, m₁, he, hrest⟩
    · exact .inl (evaluateAll_singleton_error he)
    · obtain rfl : m = m₁ := (after_evaluate_superclass s).symm.trans (after_of_ok he)
      rcases bind_eq_error_iff.mp hrest with hsuper | ⟨c, m₂, hsuper, hdeclare⟩
      · cases v with
        | cls c => cases hsuper
        | _ =>
          cases hsuper
          exact .inr ⟨_, evaluateAll_singleton_ok he, .superclass fun c hc => by cases hc⟩
      · cases v with
        | cls c' =>
          cases hsuper
          exact absurd (bind_pure_eq_error_iff.mp hdeclare) (declareClass_ne_error hm _ _ _)
        | _ => cases hsuper

/-- The declaration of a class without a superclass does not fail. -/
theorem run_class_ne_error (hm : m.current < m.frames.size) {name : Name}
    {methods : List FunctionDecl} :
    Node.run (evaluators lookup (fuel + 1)) (.stmt (.class name none methods)) m ≠ .error stop m' :=
  fun h => declareClass_ne_error hm name none methods
    (bind_pure_eq_error_iff.mp (run_stmt_eq_error_iff.mp h))

/-- An assignment to a field of something that is no object ends before its value is evaluated. -/
theorem logs_run_field {object : Expr} {name : Name}
    (hlog : Logs (fun watch => (watched watch lookup fuel).evaluate object) m log)
    (hv : ∀ i m₁, evaluate lookup fuel object m ≠ .ok (.object i) m₁) :
    Logs (fun watch => Node.run (watched watch lookup (fuel + 1)) (.expr (.set object name e))) m
      (⟨.node (.expr (.set object name e)), m⟩ :: log) := by
  refine logs_run_expr ?_
  rw [← watched_evaluate] at hv
  cases hobject : (watched (fun _ => pure ()) lookup fuel).evaluate object m with
  | error stop m₁ => exact hlog.bind_error hobject _
  | ok v m₁ =>
    rw [← List.append_nil log]
    refine hlog.bind_ok hobject ?_
    cases v with
    | object i => exact absurd hobject (hv i m₁)
    | _ => exact (Logs.const _ m₁).bind_error rfl _

theorem logs_run_set {object : Expr} {name : Name} {i : Nat}
    (hlog : Logs (fun watch => (watched watch lookup fuel).evaluate object) m log)
    (hobject : evaluate lookup fuel object m = .ok (.object i) m₁)
    (hlog' : Logs (fun watch => (watched watch lookup fuel).evaluate e) m₁ log') :
    Logs (fun watch => Node.run (watched watch lookup (fuel + 1)) (.expr (.set object name e))) m
      (⟨.node (.expr (.set object name e)), m⟩ :: (log ++ log')) := by
  refine logs_run_expr ?_
  rw [← watched_evaluate] at hobject
  refine hlog.bind_ok hobject ?_
  exact hlog'.bind_const _

/-- An assignment to a field fails because its object cannot be given or is no object, or its value
cannot be given. -/
theorem exists_cutShort_field {object : Expr} {name : Name}
    (h : Node.run (evaluators lookup (fuel + 1)) (.expr (.set object name e)) m = .error stop m') :
    ∃ evaluated left, [object, e] = evaluated ++ left ∧
      CutShort lookup fuel (.expr (.set object name e)) evaluated m stop m' := by
  obtain ⟨log, hlog⟩ := exists_logs_evaluate lookup fuel object m
  rcases bind_eq_error_iff.mp (run_expr_eq_error_iff.mp h) with hobject | ⟨v, m₁, hobject, hrest⟩
  · refine ⟨[object], [e], rfl, ⟨log, logs_evaluateAll_singleton hlog, ?_⟩,
      .inl (evaluateAll_singleton_error hobject)⟩
    refine logs_run_field hlog fun i m₁ hi => ?_
    cases hobject.symm.trans hi
  · cases v with
    | object i =>
      rcases bind_eq_error_iff.mp hrest with hi | ⟨i', m₂, hi, hrest⟩
      · cases hi
      · cases hi
        rcases bind_eq_error_iff.mp hrest with he | ⟨v, m₃, -, hwrite⟩
        · obtain ⟨log', hlog'⟩ := exists_logs_evaluate lookup fuel e m₁
          exact ⟨[object, e], [], rfl, ⟨log ++ log', logs_evaluateAll_pair hlog hobject hlog',
            logs_run_set hlog hobject hlog'⟩, .inl (evaluateAll_pair_error hobject he)⟩
        · cases hwrite
    | _ =>
      cases hrest
      refine ⟨[object], [e], rfl, ⟨log, logs_evaluateAll_singleton hlog, ?_⟩,
        .inr ⟨_, evaluateAll_singleton_ok hobject, .notObject fun i hi => by cases hi⟩⟩
      refine logs_run_field hlog fun i m₁ hi => ?_
      cases hobject.symm.trans hi

/-- A declaration or an assignment that is cut short has written nothing. -/
theorem exists_cutShort (hm : m.current < m.frames.size) {node : Node} {parts : List Expr}
    (hnode : node.Commits parts) (h : node.run (evaluators lookup (fuel + 1)) m = .error stop m') :
    ∃ evaluated left, parts = evaluated ++ left ∧ node.CutShort lookup fuel evaluated m stop m' := by
  cases hnode with
  | declared name e => exact ⟨[e], [], rfl, cutShort_variable h⟩
  | cls name superclass methods =>
    cases superclass with
    | none => exact absurd h (run_class_ne_error hm)
    | some s => exact ⟨[s.expr], [], rfl, cutShort_subclass hm h⟩
  | assign id name e => exact ⟨[e], [], rfl, cutShort_assign h⟩
  | field object name e => exact exists_cutShort_field h

theorem keepsCurrent_run (lookup : Lookup) (fuel : Nat) (node : Node) :
    KeepsCurrent (node.run (evaluators lookup fuel)) := by
  have hparts := evaluators_keepCurrent lookup fuel
  cases node with
  | expr e => exact (hparts.evaluate e).bind fun _ => .pure ()
  | stmt s => exact (hparts.execute s).bind fun _ => .pure ()
  | routine decl => exact .pure ()

end Node

/-- A class is not declared if its superclass cannot be read or is no class. -/
theorem execute_class_of_not_class {name : Name} {s : Superclass} (methods : List FunctionDecl)
    (hs : ∀ c, readVariable lookup s.id s.name m ≠ .ok (.cls c) m) : ∃ err,
      execute lookup (fuel + 2) (.class name (some s) methods) m = .error (.raised err) m := by
  change ∃ err, (readVariable lookup s.id s.name >>= fun v => asSuperclass v s.name.line >>= fun c =>
    declareClass name (some c) methods >>= fun _ => pure Flow.normal) m = .error (.raised err) m
  have hread : ∃ found, readVariable lookup s.id s.name m = checked s.name.line found m := ⟨_, rfl⟩
  obtain ⟨found, hread⟩ := hread
  rw [bind_apply, hread]
  rw [hread] at hs
  cases found with
  | error fault => exact ⟨_, rfl⟩
  | ok v =>
    cases v with
    | cls c => exact absurd rfl (hs c)
    | _ => exact ⟨_, rfl⟩

theorem not_holds_of_holder?_eq_none {fs : Frames} {i : Nat} {name : String}
    (h : fs.holder? i name = none) : ¬ fs.holds i name := by
  intro hholds
  rw [Frames.holder?_self hholds] at h
  cases h

/-- An assignment to a variable that is not found has a fault after its value has been evaluated. -/
theorem evaluate_assign_of_not_found {id : Nat} {name : Name} (he : evaluate lookup fuel e m = .ok v m₁)
    (hnone : m₁.holderOf lookup id name.text = none) :
    evaluate lookup (fuel + 1) (.assign id name e) m =
      .error (.raised ⟨.undefinedVariable name.text, name.line⟩) m₁ := by
  have hassign : assignVariable lookup id name v m₁ =
      .error (.raised ⟨.undefinedVariable name.text, name.line⟩) m₁ := by
    change assignIn (m₁.holderOf lookup id name.text) name v m₁ = _
    rw [hnone]
    rfl
  refine (bind_of_ok he).trans ?_
  rw [bind_apply, hassign]

/-- An assignment to a field of something that is no object has a fault after that has been
evaluated. -/
theorem evaluate_set_of_not_object {object : Expr} {name : Name}
    (hobject : evaluate lookup fuel object m = .ok v m₁) (hv : ∀ i, v ≠ .object i) :
    evaluate lookup (fuel + 1) (.set object name e) m =
      .error (.raised ⟨.notAnObject "fields", name.line⟩) m₁ := by
  refine (bind_of_ok hobject).trans ?_
  cases v with
  | object i => exact absurd rfl (hv i)
  | _ => rfl

/-- Let the current frame of a machine be one of its frames, as that of every machine of a session is.

When a declaration of a variable with a value, a declaration of a class, or an assignment to a variable
or to a field is cut short, the first of its expressions have been evaluated from left to right and
nothing else has, and the machine is exactly the one that they leave, with the same frame current as
before: the last of these expressions has been cut short itself or, when all of them have given values,
the declaration or the assignment has a fault of its own.

In particular, the declaration of a class whose superclass is undefined, has no value or is no class
leaves the machine as it is. An assignment to a global variable that is not defined leaves the machine as
its value does, without that variable. An assignment to a field of something that is no object leaves the
machine as that does, whatever stands on the right, and none of its moments belongs to the right side. -/
theorem fails_before_writing (hm : m.current < m.frames.size) (lookup : Lookup) (fuel : Nat) :
    (∀ node parts stop m', Node.Commits node parts →
      node.run (evaluators lookup (fuel + 1)) m = .error stop m' → m'.current = m.current ∧
        ∃ evaluated left, parts = evaluated ++ left ∧
          node.CutShort lookup fuel evaluated m stop m') ∧
    (∀ name s methods, (∀ c, readVariable lookup s.id s.name m ≠ .ok (.cls c) m) → ∃ err,
      execute lookup (fuel + 2) (.class name (some s) methods) m = .error (.raised err) m) ∧
    (∀ id name e v m₁, evaluate .resolved fuel e m = .ok v m₁ → m₁.distances.get? id = none →
      m₁.frames.holder? globalFrame name.text = none →
      evaluate .resolved (fuel + 1) (.assign id name e) m =
          .error (.raised ⟨.undefinedVariable name.text, name.line⟩) m₁ ∧
        ¬ m₁.frames.holds globalFrame name.text) ∧
    ∀ object name e v m₁, evaluate lookup fuel object m = .ok v m₁ → (∀ i, v ≠ .object i) →
      evaluate lookup (fuel + 1) (.set object name e) m =
          .error (.raised ⟨.notAnObject "fields", name.line⟩) m₁ ∧
        ∃ log, Logs (fun watch => (watched watch lookup fuel).evaluate object) m log ∧
          Logs (fun watch => Node.run (watched watch lookup (fuel + 1)) (.expr (.set object name e))) m
            (⟨.node (.expr (.set object name e)), m⟩ :: log) := by
  refine ⟨fun node parts stop m' hnode h => ⟨?_, Node.exists_cutShort hm hnode h⟩,
    fun name s methods hs => execute_class_of_not_class methods hs,
    fun id name e v m₁ he hdistance hnone => ⟨?_, not_holds_of_holder?_eq_none hnone⟩,
    fun object name e v m₁ hobject hv => ⟨?_, ?_⟩⟩
  · exact (Node.keepsCurrent_run lookup (fuel + 1) node).error _ _ _ h
  · refine evaluate_assign_of_not_found he ?_
    rw [Machine.holderOf, hdistance]
    exact hnone
  · exact evaluate_set_of_not_object hobject hv
  · obtain ⟨log, hlog⟩ := exists_logs_evaluate lookup fuel object m
    refine ⟨log, hlog, Node.logs_run_field hlog fun i m₂ hi => ?_⟩
    cases hobject.symm.trans hi
    exact hv i rfl

/-- A built-in function is no superclass, and nil has no fields; on a machine on which only built-in
functions are defined these fail, and so does an assignment to another variable. -/
theorem fails_before_writing_start :
    let m := Machine.start (fun _ => 0) []
    let s : Superclass := ⟨0, ⟨"clock", 1⟩⟩
    (∃ err, execute .resolved 2 (.class ⟨"A", 1⟩ (some s) []) m = .error (.raised err) m ∧
      ∃ evaluated left, [s.expr] = evaluated ++ left ∧
        Node.CutShort .resolved 1 (.stmt (.class ⟨"A", 1⟩ (some s) [])) evaluated m (.raised err) m) ∧
    evaluate .resolved 2 (.assign 1 ⟨"a", 2⟩ (.literal .nil)) m =
      .error (.raised ⟨.undefinedVariable "a", 2⟩) m ∧
    evaluate .resolved 2 (.set (.literal .nil) ⟨"f", 3⟩ (.variable 2 ⟨"b", 3⟩)) m =
      .error (.raised ⟨.notAnObject "fields", 3⟩) m := by
  intro m s
  have hcurrent : m.current < m.frames.size := by decide
  obtain ⟨-, hclass, -, -⟩ := fails_before_writing hcurrent .resolved 0
  obtain ⟨hfails, -, hassign, hfield⟩ := fails_before_writing hcurrent .resolved 1
  have hs : ∀ c, readVariable .resolved s.id s.name m ≠ .ok (.cls c) m := fun c h => by cases h
  obtain ⟨err, herr⟩ := hclass ⟨"A", 1⟩ s [] hs
  have hrun : Node.run (evaluators .resolved 2) (.stmt (.class ⟨"A", 1⟩ (some s) [])) m =
      .error (.raised err) m := bind_pure_eq_error_iff.mpr herr
  refine ⟨⟨err, herr, (hfails _ _ _ _ (.cls ⟨"A", 1⟩ (some s) []) hrun).2⟩, ?_, ?_⟩
  · exact (hassign 1 ⟨"a", 2⟩ _ .nil m rfl rfl rfl).1
  · exact (hfield _ ⟨"f", 3⟩ _ .nil m rfl fun i h => by cases h).1

end Treewalk
