import Treewalk.Proofs.Scope.Uniqueness

/-!
# The walk with a stack of scopes

The walk over a program can be done with one stack of scopes, which a block, a function or a class
pushes onto and pops again, and with two marks for the innermost function and the innermost class,
which are set and put back. Every function of this walk adds the findings of its node to what was
found before, leaves the stack with the names that the node declares and leaves the marks as they
were, whichever rules the node breaks.

## Main definitions

* `Walker`: the stack, the marks and what has been found.
* `Expr.walk`, `Stmt.walk`: the walk.

## Main results

* `Stmt.walk_eq`, `FunctionDecl.walk_eq`: the walk finds what `Stmt.findings` says, and is balanced.
* `Stmt.walkAll_start`: a program is walked statement by statement, each from an empty stack.
-/

namespace Treewalk

/-- What a walk with a stack carries along. -/
structure Walker where
  /-- The stack of open scopes. -/
  scopes : Scopes
  /-- The mark for the innermost function. -/
  routine : Enclosing
  /-- The mark for the innermost class. -/
  cls : EnclosingClass
  /-- What has been found so far. -/
  found : List Finding

namespace Walker

/-- Before the first statement. -/
def start : Walker := ⟨[], .nothing, .nothing, []⟩

/-- Adds a finding. -/
def note (w : Walker) (finding : Finding) : Walker :=
  { w with found := w.found ++ [finding] }

/-- Pushes a scope without names. -/
def push (w : Walker) : Walker :=
  { w with scopes := [] :: w.scopes }

/-- Pops the innermost scope. -/
def pop (w : Walker) : Walker :=
  { w with scopes := w.scopes.tail }

/-- Declares a name, or reports that it is declared already. -/
def declare (w : Walker) (name : Name) : Walker :=
  if w.scopes.innermostDeclares name.text then w.note (.at name (.declaredTwice name.text))
  else { w with scopes := w.scopes.enter name.text false }

/-- Makes a word ready in the innermost scope. -/
def define (w : Walker) (word : String) : Walker :=
  { w with scopes := w.scopes.enter word true }

/-- Declares parameters, each ready at once. -/
def declareAll (w : Walker) (names : List Name) : Walker :=
  names.foldl (fun w name => (w.declare name).define name.text) w

/-- Looks for the scope of an occurrence and records how far outward it lies. -/
def lookUp (w : Walker) (id : Nat) (word : String) : Walker :=
  match w.scopes.distance? word with
  | some hops => w.note (.distance id hops)
  | none => w

end Walker

/-! ### The walk -/

mutual

/-- Walks over an expression. -/
def Expr.walk (w : Walker) : Expr → Walker
  | .literal _ => w
  | .grouping inner => inner.walk w
  | .unary _ _ operand => operand.walk w
  | .binary _ _ left right => right.walk (left.walk w)
  | .logical _ _ left right => right.walk (left.walk w)
  | .ternary condition whenTrue whenFalse => whenFalse.walk (whenTrue.walk (condition.walk w))
  | .variable id name =>
    (if w.scopes.isPending name.text then w.note (.at name .readInInitializer) else w).lookUp
      id name.text
  | .assign id name value => (value.walk w).lookUp id name.text
  | .call callee _ arguments => Expr.walkAll (callee.walk w) arguments
  | .get object _ => object.walk w
  | .set object _ value => object.walk (value.walk w)
  | .this id line =>
    if w.cls = .nothing then w.note (.at ⟨"this", line⟩ .thisOutside) else w.lookUp id "this"
  | .super id line _ =>
    match w.cls with
    | .nothing => w.note (.at ⟨"super", line⟩ .superOutside)
    | .base => w.note (.at ⟨"super", line⟩ .superWithoutSuperclass)
    | .derived => w.lookUp id "super"

/-- Walks over expressions from left to right. -/
def Expr.walkAll (w : Walker) : List Expr → Walker
  | [] => w
  | e :: es => Expr.walkAll (e.walk w) es

end

/-- Walks over an expression that may be absent. -/
def Expr.walkOf (w : Walker) (e : Option Expr) : Walker :=
  e.elim w (Expr.walk w)

/-- Walks over a superclass. -/
def Superclass.walk (w : Walker) (name : Name) (s : Superclass) : Walker :=
  s.expr.walk
    { (if s.name.text = name.text then w.note (.at s.name .inheritsFromItself) else w)
      with cls := .derived }

mutual

/-- Walks over a statement. -/
def Stmt.walk (w : Walker) : Stmt → Walker
  | .expression e => e.walk w
  | .variable name initializer => (Expr.walkOf (w.declare name) initializer).define name.text
  | .block body => (Stmt.walkAll w.push body).pop
  | .ifThen condition thenBranch => thenBranch.walk (condition.walk w)
  | .ifElse condition thenBranch elseBranch => elseBranch.walk (thenBranch.walk (condition.walk w))
  | .while condition body => body.walk (condition.walk w)
  | .function decl => decl.walk ((w.declare decl.name).define decl.name.text) .function
  | .return line value =>
    let w := if w.routine = .nothing then w.note (.at ⟨"return", line⟩ .returnOutside) else w
    let w := if w.routine = .initializer ∧ value.isSome then
      w.note (.at ⟨"return", line⟩ .returnFromInitializer) else w
    Expr.walkOf w value
  | .class name superclass methods =>
    let enclosing := w.cls
    let w := ({ w with cls := .base }.declare name).define name.text
    match superclass with
    | none =>
      { (Stmt.walkMethods (w.push.define "this") methods).pop with cls := enclosing }
    | some s =>
      let w := (s.walk w name).push.define "super"
      { (Stmt.walkMethods (w.push.define "this") methods).pop.pop with cls := enclosing }

/-- Walks over statements in order. -/
def Stmt.walkAll (w : Walker) : List Stmt → Walker
  | [] => w
  | s :: ss => Stmt.walkAll (s.walk w) ss

/-- Walks over a function of a given kind. -/
def FunctionDecl.walk (w : Walker) (kind : Enclosing) : FunctionDecl → Walker
  | ⟨_, params, body⟩ =>
    let enclosing := w.routine
    let w := { w with routine := kind }.push
    { (Stmt.walkAll (w.declareAll params) body).pop with routine := enclosing }

/-- Walks over the methods of a class. -/
def Stmt.walkMethods (w : Walker) : List FunctionDecl → Walker
  | [] => w
  | m :: ms => Stmt.walkMethods (m.walk w (.ofMethod m.name.text)) ms

end

/-! ### What the walk finds -/

namespace Walker

variable (w : Walker) (scopes scopes' : Scopes) (findings findings' : List Finding)

/-- What the walk stands in. -/
def context : Context :=
  ⟨w.routine, w.cls⟩

/-- The walk with other scopes open and more findings, and with the same marks. -/
def proceed : Walker :=
  { w with scopes := scopes, found := w.found ++ findings }

@[simp] theorem scopes_proceed : (w.proceed scopes findings).scopes = scopes := rfl

@[simp] theorem routine_proceed : (w.proceed scopes findings).routine = w.routine := rfl

@[simp] theorem cls_proceed : (w.proceed scopes findings).cls = w.cls := rfl

@[simp] theorem context_proceed : (w.proceed scopes findings).context = w.context := rfl

@[simp] theorem cls_context : w.context.cls = w.cls := rfl

@[simp]
theorem proceed_proceed : (w.proceed scopes findings).proceed scopes' findings' =
    w.proceed scopes' (findings ++ findings') := by
  simp only [proceed, List.append_assoc]

theorem proceed_nil : w.proceed w.scopes [] = w := by
  simp only [proceed, List.append_nil]

theorem note_eq (finding : Finding) : w.note finding = w.proceed w.scopes [finding] :=
  rfl

@[simp]
theorem define_eq (word : String) : w.define word = w.proceed (w.scopes.enter word true) [] := by
  simp only [define, proceed, List.append_nil]

@[simp]
theorem lookUp_eq (id : Nat) (word : String) :
    w.lookUp id word = w.proceed w.scopes (w.scopes.occurrence id word) := by
  cases h : w.scopes.distance? word with
  | none => simp only [lookUp, Scopes.occurrence, h, proceed_nil]
  | some hops => simp only [lookUp, Scopes.occurrence, h, note_eq]

/-- A name that is declared twice is reported, and the stack stays as it is. -/
@[simp]
theorem declare_eq (name : Name) :
    w.declare name = w.proceed (w.scopes.declare name) (w.scopes.declaration name) := by
  unfold declare Scopes.declare Scopes.declaration
  split
  · rfl
  · simp only [proceed, List.append_nil]

/-- A note that depends on a condition. -/
theorem ite_note (p : Prop) [Decidable p] (finding : Finding) :
    (if p then w.note finding else w) = w.proceed w.scopes (if p then [finding] else []) := by
  split
  · rfl
  · exact w.proceed_nil.symm

@[simp]
theorem declareAll_eq (names : List Name) :
    w.declareAll names = w.proceed (w.scopes.introduceAll names)
      (parameterFindings w.scopes names).1 := by
  induction names generalizing w with
  | nil => exact w.proceed_nil.symm
  | cons name names ih =>
    refine (ih _).trans ?_
    simp [parameterFindings, Scopes.introduceAll, Scopes.introduce, Scopes.define]

end Walker

mutual

/-- Walking over an expression adds its findings and changes nothing else. -/
theorem Expr.walk_eq (w : Walker) :
    (e : Expr) → e.walk w = w.proceed w.scopes (e.findings w.cls w.scopes)
  | .literal _ => w.proceed_nil.symm
  | .grouping inner => inner.walk_eq w
  | .unary _ _ operand => operand.walk_eq w
  | .binary _ _ left right => by simp [Expr.walk, Expr.findings, left.walk_eq, right.walk_eq]
  | .logical _ _ left right => by simp [Expr.walk, Expr.findings, left.walk_eq, right.walk_eq]
  | .ternary condition whenTrue whenFalse => by
    simp [Expr.walk, Expr.findings, condition.walk_eq, whenTrue.walk_eq, whenFalse.walk_eq]
  | .variable id name => by simp [Expr.walk, Expr.findings, Walker.ite_note]
  | .assign id name value => by simp [Expr.walk, Expr.findings, value.walk_eq]
  | .call callee _ arguments => by
    simp [Expr.walk, Expr.findings, callee.walk_eq, Expr.walkAll_eq _ arguments]
  | .get object _ => object.walk_eq w
  | .set object _ value => by simp [Expr.walk, Expr.findings, value.walk_eq, object.walk_eq]
  | .this id line => by
    obtain ⟨scopes, routine, cls, found⟩ := w
    cases cls <;> simp [Expr.walk, Expr.findings, Walker.note_eq]
  | .super id line _ => by
    obtain ⟨scopes, routine, cls, found⟩ := w
    cases cls <;> simp [Expr.walk, Expr.findings, Walker.note_eq]

theorem Expr.walkAll_eq (w : Walker) :
    (es : List Expr) → Expr.walkAll w es = w.proceed w.scopes (Expr.findingsAll w.cls w.scopes es)
  | [] => w.proceed_nil.symm
  | e :: es => by simp [Expr.walkAll, Expr.findingsAll, e.walk_eq, Expr.walkAll_eq _ es]

end

theorem Expr.walkOf_eq (w : Walker) (e : Option Expr) :
    Expr.walkOf w e = w.proceed w.scopes (Expr.findingsOf w.cls w.scopes e) := by
  cases e with
  | none => exact w.proceed_nil.symm
  | some e => exact e.walk_eq w

/-- Walking over a superclass leaves the mark of a class with a superclass. -/
theorem Superclass.walk_eq (w : Walker) (name : Name) (s : Superclass) :
    s.walk w name =
      { w.proceed w.scopes (superclassFindings name w.scopes s) with cls := .derived } := by
  rw [Superclass.walk, Walker.ite_note, Expr.walk_eq]
  simp [Walker.proceed, superclassFindings]

mutual

/-- Walking over a statement adds its findings, leaves the names that it declares in the innermost
scope, and leaves the marks as they were. -/
theorem Stmt.walk_eq (w : Walker) : (s : Stmt) → s.walk w =
    w.proceed (s.after w.scopes) (s.findings w.context w.scopes).1
  | .expression e => e.walk_eq w
  | .variable name initializer => by
    simp [Stmt.walk, Stmt.findings, Stmt.after, Expr.walkOf_eq, Scopes.introduce, Scopes.define]
  | .block body => by
    have htail := Stmt.tail_afterAll body ([] :: w.scopes)
    simp [Stmt.walk, Stmt.findings, Stmt.after, Stmt.walkAll_eq _ body, Walker.push, Walker.pop,
      Walker.proceed, Walker.context, htail]
  | .ifThen condition thenBranch => by
    simp [Stmt.walk, Stmt.findings, Stmt.after, condition.walk_eq, thenBranch.walk_eq]
  | .ifElse condition thenBranch elseBranch => by
    simp [Stmt.walk, Stmt.findings, Stmt.after, condition.walk_eq, thenBranch.walk_eq,
      elseBranch.walk_eq]
  | .while condition body => by
    simp [Stmt.walk, Stmt.findings, Stmt.after, condition.walk_eq, body.walk_eq]
  | .function decl => by
    simp [Stmt.walk, Stmt.findings, Stmt.after, decl.walk_eq, Scopes.introduce, Scopes.define,
      Walker.context]
  | .return line value => by
    simp only [Stmt.walk, Expr.walkOf_eq, Walker.ite_note, Walker.proceed_proceed]
    rfl
  | .class name none methods => by
    simp [Stmt.walk, Stmt.findings, Stmt.after, Stmt.walkMethods_eq _ methods, Walker.push,
      Walker.pop, Walker.proceed, Scopes.introduce, Scopes.define, Scopes.enter, Scope.enter]
  | .class name (some s) methods => by
    simp [Stmt.walk, Stmt.findings, Stmt.after, Stmt.walkMethods_eq _ methods, s.walk_eq,
      Walker.push, Walker.pop, Walker.proceed, Scopes.introduce, Scopes.define, Scopes.enter,
      Scope.enter]

theorem Stmt.walkAll_eq (w : Walker) : (ss : List Stmt) → Stmt.walkAll w ss =
    w.proceed (Stmt.afterAll ss w.scopes) (Stmt.findingsAll w.context w.scopes ss).1
  | [] => w.proceed_nil.symm
  | s :: ss => by
    simp [Stmt.walkAll, Stmt.findingsAll, Stmt.afterAll, s.walk_eq, Stmt.walkAll_eq _ ss]

/-- Walking over a function adds its findings and changes nothing else. -/
theorem FunctionDecl.walk_eq (w : Walker) (kind : Enclosing) : (decl : FunctionDecl) →
    decl.walk w kind = w.proceed w.scopes (decl.findings ⟨kind, w.cls⟩ w.scopes)
  | ⟨name, params, body⟩ => by
    have htail := (Stmt.tail_afterAll body (Scopes.introduceAll ([] :: w.scopes) params)).trans
      (Scopes.tail_introduceAll params _)
    simp [FunctionDecl.walk, FunctionDecl.findings, Stmt.walkAll_eq _ body, Walker.push, Walker.pop,
      Walker.proceed, Walker.context, htail]

theorem Stmt.walkMethods_eq (w : Walker) : (ms : List FunctionDecl) →
    Stmt.walkMethods w ms = w.proceed w.scopes (Stmt.methodFindings w.cls w.scopes ms)
  | [] => w.proceed_nil.symm
  | m :: ms => by
    simp [Stmt.walkMethods, Stmt.methodFindings, m.walk_eq, Stmt.walkMethods_eq _ ms]

end

/-- After statements outside of all scopes, whichever rules they break, the stack is empty, no
function and no class is marked, and the findings are those of the program. -/
theorem Stmt.walkAll_start (body : List Stmt) :
    Stmt.walkAll .start body = ⟨[], .nothing, .nothing, programFindings body⟩ := by
  rw [Stmt.walkAll_eq]
  exact congrArg (Walker.mk · .nothing .nothing (programFindings body)) (Stmt.afterAll_nil body)

end Treewalk
