import Treewalk.Proofs.Relocation.Operations

/-!
# Running relocated programs

A relocated program does the same on a relocated machine as the program does on the machine itself.
It ends in the same way, and the fault that ends it, if one does, is the same fault at the line that
its line has moved to. More fuel than suffices changes nothing.

## Main definitions

* `EvaluatorsMove`: evaluators of which the one does on relocated parts what the other does.

## Main results

* `evaluators_move`: expressions, statements and calls of a relocated program.
* `interpret_moves`: a relocated program.
-/

namespace Treewalk

open Run

/-- How a relocated statement ends. -/
def Flow.relocate (r : Relocation) : Flow → Flow
  | .normal => .normal
  | .returned v => .returned (v.relocate r)

theorem Flow.value_relocate (r : Relocation) (flow : Flow) :
    (flow.relocate r).value = flow.value.relocate r := by
  cases flow <;> rfl

theorem Literal.value_relocate (r : Relocation) (l : Literal) : l.value.relocate r = l.value := by
  cases l <;> rfl

/-- Evaluators of which the second does on relocated parts what the first does on the parts. -/
structure EvaluatorsMove (r : Relocation) (exact : Prop) (parts parts' : Evaluators) : Prop where
  evaluate : ∀ e, Lockstep (tie r exact) (Maps (Value.relocate r)) (parts.evaluate e)
    (parts'.evaluate (e.relocate r))
  execute : ∀ s, Lockstep (tie r exact) (Maps (Flow.relocate r)) (parts.execute s)
    (parts'.execute (s.relocate r))
  invoke : ∀ f arguments, Lockstep (tie r exact) (Maps (Value.relocate r))
    (parts.invoke f arguments)
    (parts'.invoke (f.relocate r) (arguments.map (Value.relocate r)))

namespace EvaluatorsMove

variable {r : Relocation} {exact : Prop} {parts parts' : Evaluators}
  (h : EvaluatorsMove r exact parts parts')

include h

/-! ### Calls -/

theorem callUnchecked (callee : Value) (arguments : List Value) (line : Nat) :
    Lockstep (tie r exact) (Maps (Value.relocate r))
      (callUnchecked parts.invoke callee arguments line)
      (callUnchecked parts'.invoke (callee.relocate r) (arguments.map (Value.relocate r))
        (r.line line)) := by
  cases callee with
  | native n => exact native_moves n arguments line
  | function f => exact h.invoke f arguments
  | cls c =>
    refine (newObject_moves c).bind ?_
    rintro i _ rfl
    refine .get_bind fun m m' hm => ?_
    rw [hm.findMethod?]
    cases m.findMethod? c initializerName with
    | none => exact .pure rfl
    | some f =>
      exact (bindReceiver_moves f (.object i)).bind_map fun g =>
        (h.invoke g arguments).bind_map fun _ => .pure rfl
  | _ => exact raise_moves _ _

theorem callWith (callee : Value) (arguments : List Value) (line : Nat) :
    Lockstep (tie r exact) (Maps (Value.relocate r)) (callWith parts.invoke callee arguments line)
      (callWith parts'.invoke (callee.relocate r) (arguments.map (Value.relocate r))
        (r.line line)) := by
  refine .get_bind fun m m' hm => ?_
  rw [hm.arity?]
  cases m.arity? callee with
  | none => exact raise_moves _ _
  | some arity =>
    dsimp only
    rw [List.length_map]
    exact .ite Iff.rfl (h.callUnchecked callee arguments line) (raise_moves _ _)

/-! ### Expressions -/

theorem evaluateAll (es : List Expr) :
    Lockstep (tie r exact) (Maps (List.map (Value.relocate r))) (evaluateAll parts.evaluate es)
      (evaluateAll parts'.evaluate (es.map (Expr.relocate r))) := by
  induction es with
  | nil => exact .pure rfl
  | cons e es ih => exact (h.evaluate e).bind_map fun v => ih.bind_map fun vs => .pure rfl

/-- One step of an expression. -/
theorem evaluateStep (lookup : Lookup) (e : Expr) :
    Lockstep (tie r exact) (Maps (Value.relocate r)) (evaluateStep lookup parts e)
      (evaluateStep lookup parts' (e.relocate r)) := by
  cases e with
  | literal l => exact .pure (l.value_relocate r).symm
  | grouping inner => exact h.evaluate inner
  | unary op line operand =>
    refine (h.evaluate operand).bind_map fun v => ?_
    rw [UnaryOp.apply_relocate]
    exact checked_moves line _
  | binary op line left right =>
    refine (h.evaluate left).bind_map fun v => (h.evaluate right).bind_map fun w =>
      .get_bind fun m m' hm => ?_
    rw [BinaryOp.apply_relocate hm.text]
    exact checked_moves line _
  | logical op line left right =>
    refine (h.evaluate left).bind_map fun v => ?_
    rw [LogicalOp.decides_relocate]
    exact .ite Iff.rfl (.pure rfl) (h.evaluate right)
  | ternary condition whenTrue whenFalse =>
    refine (h.evaluate condition).bind_map fun v => ?_
    rw [Value.isTruthy_relocate]
    exact .ite Iff.rfl (h.evaluate whenTrue) (h.evaluate whenFalse)
  | «variable» id name => exact readVariable_moves lookup id name
  | assign id name value =>
    exact (h.evaluate value).bind_map fun v =>
      (assignVariable_moves lookup id name v).bind fun _ _ _ => .pure rfl
  | call callee line arguments =>
    rw [Expr.relocate, Expr.relocateAll_eq_map]
    exact (h.evaluate callee).bind_map fun f => (h.evaluateAll arguments).bind_map fun vs =>
      h.callWith f vs line
  | get object name =>
    refine (h.evaluate object).bind_map fun v =>
      (asObject_moves v "properties" name.line).bind ?_
    rintro i _ rfl
    exact property_moves i name
  | set object name value =>
    refine (h.evaluate object).bind_map fun v => (asObject_moves v "fields" name.line).bind ?_
    rintro i _ rfl
    exact (h.evaluate value).bind_map fun w =>
      (setField_moves i name.text w).bind fun _ _ _ => .pure rfl
  | this id line => exact readVariable_moves lookup id ⟨"this", line⟩
  | super id line method => exact superMethod_moves id line method

/-! ### Statements -/

theorem executeAll (ss : List Stmt) :
    Lockstep (tie r exact) (Maps (Flow.relocate r)) (executeAll parts.execute ss)
      (executeAll parts'.execute (ss.map (Stmt.relocate r))) := by
  induction ss with
  | nil => exact .pure rfl
  | cons s ss ih =>
    refine (h.execute s).bind_map fun flow => ?_
    cases flow with
    | normal => exact ih
    | returned v => exact .pure rfl

/-- Loops go round the same number of times, unless the first one may not go round any further. -/
theorem loop (condition : Expr) (body : Stmt) {bound bound' : Nat} (hle : bound ≤ bound')
    (hexact : exact → bound = bound') : Lockstep (tie r exact) (Maps (Flow.relocate r))
      (loop (parts.evaluate condition) (parts.execute body) bound)
      (loop (parts'.evaluate (condition.relocate r)) (parts'.execute (body.relocate r))
        bound') := by
  induction bound generalizing bound' with
  | zero =>
    intro m m' hm
    by_cases hfuel : exact
    · obtain rfl := hexact hfuel
      exact .error rfl hm
    · exact .free ⟨hfuel, rfl⟩
  | succ bound ih =>
    obtain ⟨bound', rfl⟩ : ∃ n, bound' = n + 1 := ⟨bound' - 1, by omega⟩
    refine (h.evaluate condition).bind_map fun v => ?_
    rw [Value.isTruthy_relocate]
    refine .ite Iff.rfl ((h.execute body).bind_map fun flow => ?_) (.pure rfl)
    cases flow with
    | normal => exact ih (by omega) fun hfuel => by have := hexact hfuel; omega
    | returned v => exact .pure rfl

omit h in
theorem methodFrame (superclass : Option Nat) :
    Lockstep (tie r exact) Eq (methodFrame superclass) (methodFrame superclass) := by
  refine currentFrame_moves.bind ?_
  rintro outer _ rfl
  cases superclass with
  | none => exact .pure rfl
  | some c =>
    refine (newFrame_moves outer).bind ?_
    rintro i _ rfl
    exact (writeSlot_moves i "super" (some (.cls c))).bind fun _ _ _ => .pure rfl

omit h in
theorem makeMethods (frame : Nat) (methods : List FunctionDecl) {table table' : Bindings Closure}
    (htable : MethodsMoved r table table') : Lockstep (tie r exact) (MethodsMoved r)
      (makeMethods frame methods table)
      (makeMethods frame (methods.map (FunctionDecl.relocate r)) table') := by
  induction methods generalizing table table' with
  | nil => exact .pure htable
  | cons d methods ih =>
    simp only [List.map_cons, Treewalk.makeMethods, FunctionDecl.name_relocate, Name.text_relocate]
    refine (newClosure_moves d frame _).bind_map fun f => ih fun name => ?_
    rw [Bindings.get?_insert, Bindings.get?_insert, htable]
    split <;> rfl

omit h in
theorem declareClass (name : Name) (superclass : Option Nat) (methods : List FunctionDecl) :
    Lockstep (tie r exact) Eq (declareClass name superclass methods)
      (declareClass (name.relocate r) superclass (methods.map (FunctionDecl.relocate r))) := by
  refine (define_moves name.text .nil).bind fun _ _ _ => (methodFrame superclass).bind ?_
  rintro frame _ rfl
  have hnone : MethodsMoved r [] [] := fun _ => rfl
  refine (makeMethods frame methods hnone).bind fun table table' htable =>
    (newClass_moves name.text superclass htable).bind ?_
  rintro c _ rfl
  refine .get_bind fun m m' hm => ?_
  rw [hm.current, hm.frames.holder?]
  exact assignIn_moves _ name (.cls c)

/-- One step of a statement. -/
theorem executeStep {bound bound' : Nat} (hle : bound ≤ bound') (hexact : exact → bound = bound')
    (s : Stmt) : Lockstep (tie r exact) (Maps (Flow.relocate r)) (executeStep parts bound s)
      (executeStep parts' bound' (s.relocate r)) := by
  match s with
  | .expression e => exact (h.evaluate e).bind_map fun _ => .pure rfl
  | .variable name (some e) =>
    exact (h.evaluate e).bind_map fun v => (define_moves name.text v).bind fun _ _ _ => .pure rfl
  | .variable name none => exact (declare_moves name.text).bind fun _ _ _ => .pure rfl
  | .block body =>
    rw [Stmt.relocate, Stmt.relocateAll_eq_map]
    refine currentFrame_moves.bind ?_
    rintro outer _ rfl
    refine (newFrame_moves outer).bind ?_
    rintro i _ rfl
    exact within_moves (h.executeAll body) i
  | .ifThen condition thenBranch =>
    refine (h.evaluate condition).bind_map fun v => ?_
    rw [Value.isTruthy_relocate]
    exact .ite Iff.rfl (h.execute thenBranch) (.pure rfl)
  | .ifElse condition thenBranch elseBranch =>
    refine (h.evaluate condition).bind_map fun v => ?_
    rw [Value.isTruthy_relocate]
    exact .ite Iff.rfl (h.execute thenBranch) (h.execute elseBranch)
  | .while condition body => exact h.loop condition body hle hexact
  | .function decl =>
    refine currentFrame_moves.bind ?_
    rintro outer _ rfl
    refine (newClosure_moves decl outer false).bind_map fun f => ?_
    rw [FunctionDecl.name_relocate]
    exact (define_moves decl.name.text (.function f)).bind fun _ _ _ => .pure rfl
  | .return line (some e) => exact (h.evaluate e).bind_map fun _ => .pure rfl
  | .return line none => exact .pure rfl
  | .class name none methods =>
    rw [Stmt.relocate, Stmt.relocateMethods_eq_map]
    exact (declareClass name none methods).bind fun _ _ _ => .pure rfl
  | .class name (some s) methods =>
    rw [Stmt.relocate, Stmt.relocateMethods_eq_map]
    refine (h.evaluate s.expr).bind_map fun v => ?_
    refine Lockstep.bind (R := Eq) ?_ fun c _ hc => ?_
    · cases v with
      | cls c => exact .pure rfl
      | _ => exact raise_moves _ _
    · subst hc
      exact (declareClass name (some c) methods).bind fun _ _ _ => .pure rfl

/-! ### Calls of functions -/

omit h in
theorem bindParameters (i : Nat) (params : List Name) (arguments : List Value) :
    Lockstep (tie r exact) Eq (bindParameters i params arguments)
      (bindParameters i (params.map (Name.relocate r)) (arguments.map (Value.relocate r))) := by
  induction params generalizing arguments with
  | nil => exact .pure rfl
  | cons p params ih =>
    cases arguments with
    | nil => exact .pure rfl
    | cons v arguments => exact (writeSlot_moves i p.text (some v)).bind fun _ _ _ => ih arguments

/-- One step of a call. -/
theorem invokeStep (f : Closure) (arguments : List Value) :
    Lockstep (tie r exact) (Maps (Value.relocate r)) (invokeStep parts f arguments)
      (invokeStep parts' (f.relocate r) (arguments.map (Value.relocate r))) := by
  refine (newFrame_moves f.frame).bind ?_
  rintro i _ rfl
  simp only [Closure.relocate, FunctionDecl.params_relocate, FunctionDecl.body_relocate]
  refine (bindParameters i f.decl.params arguments).bind fun _ _ _ =>
    (within_moves (h.executeAll f.decl.body) i).bind_map fun flow => .ite Iff.rfl ?_ ?_
  · refine .get_bind fun m m' hm => ?_
    rw [hm.frames.getAt]
    simp only [FunctionDecl.name_relocate]
    exact checked_moves f.decl.name.line _
  · exact .pure (flow.value_relocate r)

end EvaluatorsMove

/-! ### Whole programs -/

section

variable {r : Relocation} {exact : Prop} {fuel fuel' : Nat}

/-- Expressions, statements and calls of a relocated program, with at least as much fuel. -/
theorem evaluators_move (lookup : Lookup) (hle : fuel ≤ fuel') (hexact : exact → fuel = fuel') :
    EvaluatorsMove r exact (evaluators lookup fuel) (evaluators lookup fuel') := by
  induction fuel generalizing fuel' with
  | zero =>
    by_cases hfuel : exact
    · obtain rfl := hexact hfuel
      exact ⟨fun _ => .throw rfl, fun _ => .throw rfl, fun _ _ => .throw rfl⟩
    · have hfree : (tie r exact).free .outOfFuel := ⟨hfuel, rfl⟩
      exact ⟨fun _ _ _ _ => .free hfree, fun _ _ _ _ => .free hfree, fun _ _ _ _ _ => .free hfree⟩
  | succ fuel ih =>
    obtain ⟨fuel', rfl⟩ : ∃ n, fuel' = n + 1 := ⟨fuel' - 1, by omega⟩
    have hle : fuel ≤ fuel' := Nat.le_of_succ_le_succ hle
    have hexact : exact → fuel = fuel' := fun hfuel => Nat.succ.inj (hexact hfuel)
    have hparts := ih hle hexact
    exact ⟨hparts.evaluateStep lookup, hparts.executeStep hle hexact, hparts.invokeStep⟩

/-- A relocated program, with at least as much fuel. -/
theorem interpret_moves (lookup : Lookup) (hle : fuel ≤ fuel') (hexact : exact → fuel = fuel')
    (body : List Stmt) : Lockstep (tie r exact) Eq (interpret lookup fuel body)
      (interpret lookup fuel' (body.map (Stmt.relocate r))) :=
  ((evaluators_move lookup hle hexact).executeAll body).bind fun _ _ _ => .pure rfl

end

end Treewalk
