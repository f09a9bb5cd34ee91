import Treewalk.Syntax

/-!
# Static scopes

A walk over a program that is never executed finds out, for every occurrence of a variable, of
`this` and of `super`, how many scopes outward the binding lies, and which rules about scopes the
program breaks. What it finds is a list of *findings* in the order of the walk.

Scopes are opened by blocks, by functions for their parameters together with their body, and by
classes for `this` and, with a superclass, for `super`. Outside of all of them names are global:
they may be declared again, and their occurrences get no distance.

A name counts as *declared* from its declaration on and as *ready* once the initializer has been
read.

## Main definitions

* `Scope`, `Scopes.distance?`: a scope, and the way outward to the one that declares a name.
* `Finding`: a distance or a broken rule.
* `Expr.findings`, `Stmt.findings`: the walk.
-/

namespace Treewalk

/-- A rule about scopes that a program breaks. -/
inductive ScopeFault
  | declaredTwice (name : String)
  | readInInitializer
  | returnOutside
  | returnFromInitializer
  | thisOutside
  | superOutside
  | superWithoutSuperclass
  | inheritsFromItself
  deriving DecidableEq

/-- The wording of a broken rule. -/
def ScopeFault.message : ScopeFault → String
  | declaredTwice name => "Variable '" ++ name ++ "' already declared in this scope."
  | readInInitializer => "Cannot read local variable in its own initializer."
  | returnOutside => "Cannot return from top-level code."
  | returnFromInitializer => "Cannot return a value from an initializer."
  | thisOutside => "Cannot use 'this' outside of a class."
  | superOutside => "Cannot use 'super' outside of a class."
  | superWithoutSuperclass => "Cannot use 'super' in a class with no superclass."
  | inheritsFromItself => "A class cannot inherit from itself."

/-- A broken rule with the word at which it is broken. -/
structure ScopeError where
  /-- The word and its line. -/
  found : Name
  /-- The rule. -/
  fault : ScopeFault
  deriving DecidableEq

/-- The names of a scope; the flag says whether the name is ready. -/
abbrev Scope := List (String × Bool)

namespace Scope

/-- Whether a scope declares a name. -/
def declares (scope : Scope) (name : String) : Bool :=
  scope.any (·.1 == name)

/-- Whether a scope declares a name that is not ready. -/
def isPending (scope : Scope) (name : String) : Bool :=
  scope.lookup name == some false

/-- Enters a name, or changes its flag. -/
def enter (scope : Scope) (name : String) (ready : Bool) : Scope :=
  (name, ready) :: scope.filter (·.1 != name)

end Scope

/-- The open scopes, the innermost one first. -/
abbrev Scopes := List Scope

namespace Scopes

/-- How many scopes outward a name is declared, if it is in any. -/
def distance? (scopes : Scopes) (name : String) : Option Nat :=
  scopes.findIdx? (·.declares name)

/-- Whether the innermost scope declares a name that is not ready. -/
def isPending (scopes : Scopes) (name : String) : Bool :=
  scopes.head?.any (·.isPending name)

/-- Enters a name into the innermost scope, if there is one. -/
def enter (scopes : Scopes) (name : String) (ready : Bool) : Scopes :=
  match scopes with
  | [] => []
  | scope :: outer => scope.enter name ready :: outer

/-- Whether the innermost scope declares a name. -/
def innermostDeclares (scopes : Scopes) (name : String) : Bool :=
  scopes.head?.any (·.declares name)

end Scopes

/-- What the walk finds out. -/
inductive Finding
  /-- The binding of an occurrence lies so many scopes outward. -/
  | distance (id : Nat) (hops : Nat)
  /-- A rule is broken. -/
  | broken (error : ScopeError)
  deriving DecidableEq

/-- A broken rule at a word. -/
def Finding.at (found : Name) (fault : ScopeFault) : Finding :=
  .broken ⟨found, fault⟩

/-- The findings of an occurrence: its distance, unless it is global. -/
def Scopes.occurrence (scopes : Scopes) (id : Nat) (name : String) : List Finding :=
  match scopes.distance? name with
  | some hops => [.distance id hops]
  | none => []

/-- The findings of a declaration: a name must not be declared twice in a local scope. -/
def Scopes.declaration (scopes : Scopes) (name : Name) : List Finding :=
  if scopes.innermostDeclares name.text then [.at name (.declaredTwice name.text)] else []

/-- The scopes after a name is declared, before it is ready. A name that is declared already stays
as it is. -/
def Scopes.declare (scopes : Scopes) (name : Name) : Scopes :=
  if scopes.innermostDeclares name.text then scopes else scopes.enter name.text false

/-- The scopes after a name has become ready. -/
def Scopes.define (scopes : Scopes) (name : Name) : Scopes :=
  scopes.enter name.text true

/-- The function that a statement stands in. -/
inductive Enclosing
  | nothing | function | method | initializer
  deriving DecidableEq

/-- The class that a statement stands in. -/
inductive EnclosingClass
  | nothing | base | derived
  deriving DecidableEq

/-- What a statement stands in. -/
structure Context where
  /-- The innermost function or method. -/
  routine : Enclosing
  /-- The innermost class. -/
  cls : EnclosingClass
  deriving DecidableEq

/-- What a top-level statement stands in. -/
def Context.outermost : Context := ⟨.nothing, .nothing⟩

/-- The name of the methods that initialize objects. -/
def initializerName : String := "init"

mutual

/-- The findings of an expression. The value of an assignment comes before its target, and so does
that of an assignment to a property. -/
def Expr.findings (cls : EnclosingClass) (scopes : Scopes) : Expr → List Finding
  | .literal _ => []
  | .grouping inner => inner.findings cls scopes
  | .unary _ _ operand => operand.findings cls scopes
  | .binary _ _ left right => left.findings cls scopes ++ right.findings cls scopes
  | .logical _ _ left right => left.findings cls scopes ++ right.findings cls scopes
  | .ternary condition whenTrue whenFalse =>
    condition.findings cls scopes ++ whenTrue.findings cls scopes ++
      whenFalse.findings cls scopes
  | .variable id name =>
    (if scopes.isPending name.text then [.at name .readInInitializer] else []) ++
      scopes.occurrence id name.text
  | .assign id name value => value.findings cls scopes ++ scopes.occurrence id name.text
  | .call callee _ arguments => callee.findings cls scopes ++ findingsAll cls scopes arguments
  | .get object _ => object.findings cls scopes
  | .set object _ value => value.findings cls scopes ++ object.findings cls scopes
  | .this id line =>
    match cls with
    | .nothing => [.at ⟨"this", line⟩ .thisOutside]
    | _ => scopes.occurrence id "this"
  | .super id line _ =>
    match cls with
    | .nothing => [.at ⟨"super", line⟩ .superOutside]
    | .base => [.at ⟨"super", line⟩ .superWithoutSuperclass]
    | .derived => scopes.occurrence id "super"

/-- The findings of expressions, from left to right. -/
def Expr.findingsAll (cls : EnclosingClass) (scopes : Scopes) : List Expr → List Finding
  | [] => []
  | e :: es => e.findings cls scopes ++ findingsAll cls scopes es

end

/-- The findings of an expression that may be absent. -/
def Expr.findingsOf (cls : EnclosingClass) (scopes : Scopes) (e : Option Expr) : List Finding :=
  e.elim [] (Expr.findings cls scopes)

/-- The findings of a return statement: one must stand in a function, and in an initializer it has
no value. -/
def returnFindings (context : Context) (scopes : Scopes) (line : Nat) (value : Option Expr) :
    List Finding :=
  (if context.routine = .nothing then [.at ⟨"return", line⟩ .returnOutside] else []) ++
    (if context.routine = .initializer ∧ value.isSome then
      [.at ⟨"return", line⟩ .returnFromInitializer] else []) ++
    Expr.findingsOf context.cls scopes value

/-- The findings of the superclass of a class declaration. -/
def superclassFindings (name : Name) (scopes : Scopes) (s : Superclass) : List Finding :=
  (if s.name.text = name.text then [.at s.name .inheritsFromItself] else []) ++
    s.expr.findings .derived scopes

/-- The findings of parameters, each declared and ready at once, with the scopes after them. -/
def parameterFindings (scopes : Scopes) : List Name → List Finding × Scopes
  | [] => ([], scopes)
  | p :: ps =>
    let (later, inner) := parameterFindings ((scopes.declare p).define p) ps
    (scopes.declaration p ++ later, inner)

/-- What the body of a method stands in. -/
def Enclosing.ofMethod (name : String) : Enclosing :=
  if name = initializerName then .initializer else .method

mutual

/-- The findings of a statement, with the scopes after it. -/
def Stmt.findings (context : Context) (scopes : Scopes) : Stmt → List Finding × Scopes
  | .expression e => (e.findings context.cls scopes, scopes)
  | .variable name initializer =>
    let declared := scopes.declare name
    (scopes.declaration name ++ Expr.findingsOf context.cls declared initializer,
      declared.define name)
  | .block body => ((Stmt.findingsAll context ([] :: scopes) body).1, scopes)
  | .ifThen condition thenBranch =>
    let (inner, scopes') := thenBranch.findings context scopes
    (condition.findings context.cls scopes ++ inner, scopes')
  | .ifElse condition thenBranch elseBranch =>
    let (first, scopes') := thenBranch.findings context scopes
    let (second, scopes'') := elseBranch.findings context scopes'
    (condition.findings context.cls scopes ++ first ++ second, scopes'')
  | .while condition body =>
    let (inner, scopes') := body.findings context scopes
    (condition.findings context.cls scopes ++ inner, scopes')
  | .function decl =>
    let inner := (scopes.declare decl.name).define decl.name
    (scopes.declaration decl.name ++ decl.findings { context with routine := .function } inner,
      inner)
  | .return line value => (returnFindings context scopes line value, scopes)
  | .class name superclass methods =>
    let outer := (scopes.declare name).define name
    match superclass with
    | none =>
      (scopes.declaration name ++
        Stmt.methodFindings .base ([("this", true)] :: outer) methods, outer)
    | some s =>
      (scopes.declaration name ++ superclassFindings name outer s ++
        Stmt.methodFindings .derived ([("this", true)] :: [("super", true)] :: outer) methods,
        outer)

/-- The findings of statements in order, with the scopes after them. -/
def Stmt.findingsAll (context : Context) (scopes : Scopes) : List Stmt → List Finding × Scopes
  | [] => ([], scopes)
  | s :: ss =>
    let (first, scopes') := s.findings context scopes
    let (others, scopes'') := Stmt.findingsAll context scopes' ss
    (first ++ others, scopes'')

/-- The findings of a function: a scope holds its parameters and its body. -/
def FunctionDecl.findings (context : Context) (scopes : Scopes) : FunctionDecl → List Finding
  | ⟨_, params, body⟩ =>
    let (first, inner) := parameterFindings ([] :: scopes) params
    first ++ (Stmt.findingsAll context inner body).1

/-- The findings of the methods of a class. -/
def Stmt.methodFindings (cls : EnclosingClass) (scopes : Scopes) :
    List FunctionDecl → List Finding
  | [] => []
  | m :: ms =>
    m.findings ⟨.ofMethod m.name.text, cls⟩ scopes ++ Stmt.methodFindings cls scopes ms

end

/-- The findings of a program. -/
def programFindings (body : List Stmt) : List Finding :=
  (Stmt.findingsAll .outermost [] body).1

/-- The broken rules among findings. -/
def Finding.errors (findings : List Finding) : List ScopeError :=
  findings.filterMap fun
    | .broken e => some e
    | .distance .. => none

end Treewalk
