import Treewalk.Proofs.Run.Course

/-!
# How a run unfolds

Every expression, every statement and every call with a watch has a log and a course along it. This
is shown for each of them from its parts: the writes of a declaration or of an assignment are those of
the node at which it began, since the frame that was current then is current again whenever a part has
been evaluated or executed.

## Main definitions

* `Run.Unfolding`: evaluators with a watch that unfold.

## Main results

* `Run.Unfolding.evaluateStep`, `Run.Unfolding.executeStep`, `Run.Unfolding.invokeStep`: one step
  inward.
* `watched_unfolding`: the evaluators with any fuel.
* `exists_course`: the log and the course of a program.
-/

namespace Treewalk

/-! ### Frames that names are looked up in -/

namespace Frames

variable {fs : Frames} {i j : Nat} {name : String}

theorem outward_ancestor (fs : Frames) (i distance : Nat) :
    fs.Outward i (fs.ancestor i distance) := by
  induction distance generalizing i with
  | zero => exact .refl
  | succ distance ih =>
    rw [ancestor]
    cases h : fs.enclosing? i with
    | none => exact .refl
    | some j => exact .head h (ih j)

theorem outward_of_mem_chainFrom {bound : Nat} (h : j ∈ fs.chainFrom bound i) : fs.Outward i j := by
  induction bound generalizing i with
  | zero => cases h
  | succ bound ih =>
    rcases List.mem_cons.mp h with rfl | h
    · exact .refl
    · cases hi : fs.enclosing? i with
      | none =>
        rw [hi] at h
        cases h
      | some k =>
        rw [hi] at h
        exact .head hi (ih h)

theorem outward_of_holder? (h : fs.holder? i name = some j) : fs.Outward i j :=
  outward_of_mem_chainFrom (List.mem_of_find?_eq_some h)

theorem outward_of_holderAt? {distance : Nat} (h : fs.holderAt? i distance name = some j) :
    fs.Outward i j := by
  rw [holderAt?] at h
  split at h
  · cases h
    exact fs.outward_ancestor i distance
  · cases h

end Frames

/-- A variable is found outward from the current frame, or from the global one. -/
theorem Machine.outward_of_holderOf {m : Machine} {lookup : Lookup} {id i : Nat} {name : String}
    (h : m.holderOf lookup id name = some i) :
    m.frames.Outward m.current i ∨ m.frames.Outward globalFrame i := by
  cases lookup with
  | resolved =>
    rw [holderOf] at h
    cases hdistance : m.distances.get? id with
    | none =>
      rw [hdistance] at h
      exact .inr (Frames.outward_of_holder? h)
    | some distance =>
      rw [hdistance] at h
      exact .inl (Frames.outward_of_holderAt? h)
  | chained => exact .inl (Frames.outward_of_holder? h)

namespace Run

variable {met : Set Moment} {m : Machine}

/-! ### Operations -/

theorem unfolds_raise {α : Type} (fault : RuntimeFault) (line : Nat) :
    Unfolds met m fun _ => (raise fault line : Run α) :=
  .throw _

theorem unfolds_checked {α : Type} (line : Nat) (outcome : Except RuntimeFault α) :
    Unfolds met m fun _ => checked line outcome := by
  cases outcome with
  | ok a => exact .pure a
  | error fault => exact unfolds_raise fault line

theorem unfolds_readVariable (lookup : Lookup) (id : Nat) (name : Name) :
    Unfolds met m fun _ => readVariable lookup id name :=
  .get_bind (unfolds_checked _ _)

theorem unfolds_newClosure (decl : FunctionDecl) (frame : Nat) (isInitializer : Bool) :
    Unfolds met m fun _ => newClosure decl frame isInitializer :=
  .action (.closure m) rfl

theorem unfolds_bindReceiver (f : Closure) (receiver : Value) :
    Unfolds met m fun _ => bindReceiver f receiver :=
  .const (.tail (.single (.update (.receiver m.frames f receiver))) (.closure _)) rfl

theorem unfolds_asObject (v : Value) (what : String) (line : Nat) :
    Unfolds met m fun _ => asObject v what line := by
  cases v with
  | object i => exact .pure i
  | _ => exact unfolds_raise _ _

/-- A method that is found is bound; otherwise there is a fault. -/
theorem unfolds_bindFound (found : Option Closure) (receiver : Value) (fault : RuntimeFault)
    (line : Nat) : Unfolds met m fun _ => (match found with
      | some f => do return .function (← bindReceiver f receiver)
      | none => raise fault line : Run Value) := by
  cases found with
  | some f => exact (unfolds_bindReceiver f receiver).bind fun _ _ _ => .pure _
  | none => exact unfolds_raise _ _

theorem unfolds_property (i : Nat) (name : Name) : Unfolds met m fun _ => property i name := by
  refine .get_bind ?_
  cases m.field? i name.text with
  | some v => exact .pure v
  | none => exact unfolds_bindFound _ _ _ _

theorem unfolds_superMethod (id line : Nat) (method : Name) :
    Unfolds met m fun _ => superMethod id line method := by
  refine .get_bind ?_
  cases m.distances.get? id with
  | none => exact unfolds_raise _ _
  | some distance =>
    refine (unfolds_checked _ _).bind fun parent _ _ => ?_
    refine (unfolds_checked _ _).bind fun receiver _ _ => ?_
    cases parent with
    | cls c => exact unfolds_bindFound _ _ _ _
    | _ => exact unfolds_raise _ _

theorem unfolds_native {n : Native} {arguments : List Value} {line : Nat} :
    UnfoldsFrom met (Event.next (.native n arguments line) m) m fun _ => n.run arguments line :=
  ⟨[], .const _ m, .done met _, (IsOperation.native n arguments line).keepsCurrent.after m⟩

theorem unfolds_asSuperclass (v : Value) (line : Nat) :
    Unfolds met m fun _ => asSuperclass v line := by
  cases v with
  | cls c => exact .pure c
  | _ => exact unfolds_raise _ _

theorem unfolds_makeMethods (frame : Nat) (methods : List FunctionDecl) (table : Bindings Closure) :
    Unfolds met m fun _ => makeMethods frame methods table := by
  induction methods generalizing m table with
  | nil => exact .pure table
  | cons d methods ih => exact (unfolds_newClosure _ _ _).bind fun _ _ _ => ih _

theorem unfolds_receiverOf (f : Closure) : Unfolds met m fun _ => receiverOf f :=
  .get_bind (unfolds_checked _ _)

/-! ### Writes of a node

The node at which the run is has begun in the frame that is current again. -/

section Writes

variable {node : Node} {origin : Machine} {name : Name} (hmet : ⟨.node node, origin⟩ ∈ met)
  (hcurrent : m.current = origin.current)

include hmet hcurrent

theorem unfolds_assignIn (hnode : node.Binds name.text) {holder : Option Nat}
    (hholder : ∀ i, holder = some i →
      m.frames.Outward m.current i ∨ m.frames.Outward globalFrame i) (v : Value) :
    Unfolds met m fun _ => assignIn holder name v := by
  cases holder with
  | none => exact unfolds_raise _ _
  | some i => exact .action (.update (.write hmet hcurrent.symm hnode (hholder i rfl) _)) rfl

theorem unfolds_assignVariable (hnode : node.Binds name.text) (lookup : Lookup) (id : Nat)
    (v : Value) : Unfolds met m fun _ => assignVariable lookup id name v :=
  .get_bind (unfolds_assignIn hmet hcurrent hnode (fun _ => Machine.outward_of_holderOf) v)

theorem unfolds_define (hnode : node.Binds name.text) (v : Value) :
    Unfolds met m fun _ => define name.text v :=
  .action (.update (.write hmet hcurrent.symm hnode (.inl .refl) _)) rfl

theorem unfolds_declare (hnode : node.Binds name.text) :
    Unfolds met m fun _ => declare name.text :=
  .action (.update (.write hmet hcurrent.symm hnode (.inl .refl) _)) rfl

end Writes

/-- The declaration of a class, whose node has begun in the frame that is current. -/
theorem unfolds_declareClass {name : Name} {s : Option Superclass} {superclass : Option Nat}
    {methods : List FunctionDecl} {origin : Machine}
    (hmet : ⟨.node (.stmt (.class name s methods)), origin⟩ ∈ met)
    (hs : superclass.isSome → s.isSome) (hcurrent : m.current = origin.current) :
    Unfolds met m fun _ => declareClass name superclass methods := by
  have hframe {m : Machine} (hcurrent : m.current = origin.current) :
      Unfolds met m fun _ => methodFrame superclass := by
    cases superclass with
    | none => exact .same rfl
    | some c =>
      obtain ⟨s, rfl⟩ := Option.isSome_iff_exists.mp (hs rfl)
      exact .action (.update (.superclass hmet hcurrent.symm m.frames c)) rfl
  refine (unfolds_define hmet hcurrent rfl .nil).bind fun _ m₁ h₁ => ?_
  refine (hframe (h₁.trans hcurrent)).bind fun frame m₂ h₂ => ?_
  refine (unfolds_makeMethods frame methods []).bind fun table m₃ h₃ => ?_
  refine (Unfolds.action (.cls m₃ _) rfl).bind fun c m₄ h₄ => .get_bind ?_
  have h₄ := (((h₄.trans h₃).trans h₂).trans h₁).trans hcurrent
  exact unfolds_assignIn hmet h₄ rfl (fun _ hi => .inl (Frames.outward_of_holder? hi)) _

/-! ### One step inward -/

/-- Evaluators with a watch that unfold. -/
structure Unfolding (parts : (Event → Run Unit) → Evaluators) : Prop where
  evaluate : ∀ (m : Machine) (e : Expr), Unfolds ∅ m fun watch => (parts watch).evaluate e
  execute : ∀ (m : Machine) (s : Stmt), Unfolds ∅ m fun watch => (parts watch).execute s
  invoke : ∀ (m : Machine) (f : Closure) (arguments : List Value),
    Unfolds ∅ m fun watch => (parts watch).invoke f arguments

namespace Unfolding

variable {parts : (Event → Run Unit) → Evaluators} (h : Unfolding parts)

include h

theorem evaluate' (e : Expr) : Unfolds met m fun watch => (parts watch).evaluate e :=
  (h.evaluate m e).mono (Set.empty_subset met)

theorem execute' (s : Stmt) : Unfolds met m fun watch => (parts watch).execute s :=
  (h.execute m s).mono (Set.empty_subset met)

theorem invoke' (f : Closure) (arguments : List Value) :
    Unfolds met m fun watch => (parts watch).invoke f arguments :=
  (h.invoke m f arguments).mono (Set.empty_subset met)

theorem evaluateAll (es : List Expr) :
    Unfolds met m fun watch => evaluateAll (parts watch).evaluate es := by
  induction es generalizing m with
  | nil => exact .pure _
  | cons e es ih => exact (h.evaluate' e).bind fun _ _ _ => ih.bind fun _ _ _ => .pure _

theorem executeAll (ss : List Stmt) :
    Unfolds met m fun watch => executeAll (parts watch).execute ss := by
  induction ss generalizing m with
  | nil => exact .pure _
  | cons s ss ih =>
    refine (h.execute' s).bind fun flow _ _ => ?_
    cases flow with
    | normal => exact ih
    | returned v => exact .pure _

theorem loop (condition : Expr) (body : Stmt) (bound : Nat) :
    Unfolds met m fun watch =>
      loop ((parts watch).evaluate condition) ((parts watch).execute body) bound := by
  induction bound generalizing m with
  | zero => exact .throw _
  | succ bound ih =>
    refine (h.evaluate' condition).bind fun v _ _ => .ite ?_ (.pure _)
    refine (h.execute' body).bind fun flow _ _ => ?_
    cases flow with
    | normal => exact ih
    | returned v => exact .pure _

/-- A call with the right number of arguments of a value that is no built-in function. -/
theorem callUnchecked {callee : Value} (hcallee : ∀ n, callee ≠ .native n) (arguments : List Value)
    (line : Nat) :
    Unfolds met m fun watch => callUnchecked (parts watch).invoke callee arguments line := by
  cases callee with
  | native n => exact absurd rfl (hcallee n)
  | function f => exact h.invoke' f arguments
  | cls c =>
    refine (Unfolds.action (.object m c) rfl).bind fun i m₁ _ => .get_bind ?_
    cases m₁.findMethod? c initializerName with
    | none => exact .pure _
    | some f =>
      exact (unfolds_bindReceiver f _).bind fun g _ _ =>
        (h.invoke' g arguments).bind fun _ _ _ => .pure _
  | _ => exact unfolds_raise _ _

/-- A call, with the announcement of a built-in function. -/
theorem callWith (callee : Value) (arguments : List Value) (line : Nat) :
    Unfolds met m fun watch => announce watch callee arguments line >>= fun _ =>
      callWith (parts watch).invoke callee arguments line := by
  by_cases hcallee : ∃ n, callee = .native n
  · obtain ⟨n, rfl⟩ := hcallee
    simp only [announce]
    by_cases harity : n.arity = arguments.length
    · simp only [if_pos harity]
      refine .event (unfolds_native.of_eq rfl fun watch => ?_)
      exact congrFun (if_pos harity) m
    · simp only [if_neg harity]
      refine (Unfolds.pure ()).bind fun _ m₁ _ => ?_
      exact (unfolds_raise (.arityMismatch n.arity arguments.length) line).of_eq rfl fun _ =>
        congrFun (if_neg harity) m₁
  · have hannounce (watch : Event → Run Unit) : announce watch callee arguments line = pure () := by
      cases callee with
      | native n => exact absurd ⟨n, rfl⟩ hcallee
      | _ => rfl
    simp only [hannounce]
    refine (Unfolds.pure ()).bind fun _ m₁ _ => .get_bind ?_
    cases m₁.arity? callee with
    | none => exact unfolds_raise _ _
    | some arity =>
      exact .ite (h.callUnchecked (fun n hn => hcallee ⟨n, hn⟩) arguments line) (unfolds_raise _ _)

/-- An expression that is evaluated at a moment to which the run has come. -/
theorem evaluateStep (lookup : Lookup) {e : Expr} (hmet : ⟨.node (.expr e), m⟩ ∈ met) :
    Unfolds met m fun watch => evaluateAnnounced watch lookup (parts watch) e := by
  cases e with
  | literal l => exact .pure _
  | grouping inner => exact h.evaluate' inner
  | unary op line operand => exact (h.evaluate' operand).bind fun _ _ _ => unfolds_checked _ _
  | binary op line left right =>
    exact (h.evaluate' left).bind fun _ _ _ => (h.evaluate' right).bind fun _ _ _ =>
      .get_bind (unfolds_checked _ _)
  | logical op line left right =>
    exact (h.evaluate' left).bind fun v _ _ => .ite (.pure v) (h.evaluate' right)
  | ternary condition whenTrue whenFalse =>
    exact (h.evaluate' condition).bind fun _ _ _ =>
      .ite (h.evaluate' whenTrue) (h.evaluate' whenFalse)
  | «variable» id name => exact unfolds_readVariable lookup id name
  | assign id name value =>
    exact (h.evaluate' value).bind fun v _ h₁ =>
      (unfolds_assignVariable hmet h₁ rfl lookup id v).bind fun _ _ _ => .pure v
  | call callee line arguments =>
    exact (h.evaluate' callee).bind fun f _ _ => (h.evaluateAll arguments).bind fun vs _ _ =>
      h.callWith f vs line
  | get object name =>
    exact (h.evaluate' object).bind fun v _ _ => (unfolds_asObject v _ _).bind fun i _ _ =>
      unfolds_property i name
  | set object name value =>
    exact (h.evaluate' object).bind fun v _ _ => (unfolds_asObject v _ _).bind fun i _ _ =>
      (h.evaluate' value).bind fun w m₁ _ =>
        (Unfolds.action (.field m₁ i name.text w) rfl).bind fun _ _ _ => .pure w
  | this id line => exact unfolds_readVariable lookup id ⟨"this", line⟩
  | super id line method => exact unfolds_superMethod id line method

/-- A statement that is executed at a moment to which the run has come, and which for a block is the
moment at which it is entered. -/
theorem executeStep (bound : Nat) {s : Stmt} (hmet : ⟨.node (.stmt s), m⟩ ∈ met) :
    UnfoldsFrom met (Event.next (.node (.stmt s)) m) m fun watch =>
      executeStep (parts watch) bound s := by
  match s with
  | .expression e => exact (h.evaluate' e).bind fun _ _ _ => .pure _
  | .variable name (some e) =>
    exact (h.evaluate' e).bind fun v _ h₁ => (unfolds_define hmet h₁ rfl v).bind fun _ _ _ => .pure _
  | .variable name none => exact (unfolds_declare hmet rfl rfl).bind fun _ _ _ => .pure _
  | .block body =>
    have hbody : Unfolds met m.inside fun watch => Treewalk.executeAll (parts watch).execute body :=
      h.executeAll body
    exact (UnfoldsFrom.within (m := { m with frames := m.frames.add (some m.current) }) hmet rfl
      hbody).of_eq rfl fun _ => rfl
  | .ifThen condition thenBranch =>
    exact (h.evaluate' condition).bind fun _ _ _ => .ite (h.execute' thenBranch) (.pure _)
  | .ifElse condition thenBranch elseBranch =>
    exact (h.evaluate' condition).bind fun _ _ _ =>
      .ite (h.execute' thenBranch) (h.execute' elseBranch)
  | .while condition body => exact h.loop condition body bound
  | .function decl =>
    refine UnfoldsFrom.of_eq ((unfolds_newClosure decl m.current false).bind
      (k := fun _ f => do
        define decl.name.text (.function f)
        return .normal) fun f _ h₁ => ?_) rfl fun _ => rfl
    exact (unfolds_define hmet h₁ rfl (.function f)).bind fun _ _ _ => .pure _
  | .return line (some e) => exact (h.evaluate' e).bind fun _ _ _ => .pure _
  | .return line none => exact Unfolds.pure _
  | .class name none methods =>
    have hclass : Unfolds met m fun _ => declareClass name none methods :=
      unfolds_declareClass hmet id rfl
    exact hclass.bind fun _ _ _ => .pure _
  | .class name (some s) methods =>
    refine (h.evaluate' s.expr).bind fun v _ h₁ => (unfolds_asSuperclass v _).bind fun c _ h₂ => ?_
    have hclass {m₁ : Machine} (hcurrent : m₁.current = m.current) :
        Unfolds met m₁ fun _ => declareClass name (some c) methods :=
      unfolds_declareClass hmet id hcurrent
    exact (hclass (h₂.trans h₁)).bind fun _ _ _ => .pure _

/-- A function that is called at a moment to which the run has come, and which is the moment at which
it is entered. -/
theorem invokeStep {f : Closure} {arguments : List Value} (hmet : ⟨.call f arguments, m⟩ ∈ met) :
    UnfoldsFrom met (f.entered arguments m) m fun watch => invokeStep (parts watch) f arguments := by
  have hbody : Unfolds met (f.entered arguments m) fun watch =>
      Treewalk.executeAll (parts watch).execute f.decl.body :=
    h.executeAll f.decl.body
  have hwithin := UnfoldsFrom.within
    (m := { f.entered arguments m with current := m.current }) hmet rfl hbody
  refine UnfoldsFrom.of_eq (hwithin.bind (k := fun _ flow =>
    if f.isInitializer then receiverOf f else pure flow.value) fun flow _ _ => ?_) rfl fun watch => ?_
  · exact .ite (unfolds_receiverOf f) (.pure _)
  · exact (bind_of_ok rfl).trans (bind_of_ok (bindParameters_apply _ _ _ _))

end Unfolding

end Run

/-! ### The evaluators -/

/-- The evaluators with a watch unfold. -/
theorem watched_unfolding (lookup : Lookup) (fuel : Nat) :
    Run.Unfolding fun watch => watched watch lookup fuel := by
  induction fuel with
  | zero => exact ⟨fun _ _ => .throw _, fun _ _ => .throw _, fun _ _ _ => .throw _⟩
  | succ fuel ih =>
    refine ⟨fun m e => .event ?_, fun m s => .event ?_, fun m f arguments => .event ?_⟩
    · exact ih.evaluateStep lookup (Set.mem_insert _ _)
    · exact ih.executeStep fuel (Set.mem_insert _ _)
    · exact ih.invokeStep (Set.mem_insert _ _)

/-- A program has a log, and a course along it. -/
theorem exists_course (lookup : Lookup) (fuel : Nat) (body : List Stmt) (m : Machine) :
    ∃ log, Run.Logs (fun watch => interpretWatched watch lookup fuel body) m log ∧
      Course ∅ m log ((interpret lookup fuel body).after m) := by
  have hprogram : Run.Unfolds ∅ m fun watch => interpretWatched watch lookup fuel body :=
    ((watched_unfolding lookup fuel).executeAll body).bind fun _ _ _ => .pure ()
  obtain ⟨log, hlog, hcourse, -⟩ := hprogram
  refine ⟨log, hlog, ?_⟩
  rwa [← interpretWatched_pure]

end Treewalk
