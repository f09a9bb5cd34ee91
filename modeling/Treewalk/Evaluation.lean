import Treewalk.Run

/-!
# Evaluation

Expressions are evaluated to values, and statements are executed until they end normally or return
a value. A block, and the body of a function, is executed in a frame of its own.

Fuel bounds how deep calls of the three evaluators nest and how often a loop goes round; the loops
over the parts of a program take the evaluator of a part as an argument.

## Main definitions

* `Flow`: how a statement ends.
* `Evaluators`: ways of evaluating the parts of a program.
* `evaluate`, `execute`, `invoke`: expressions, statements, and calls of functions.
* `call`: the call of any value, with the number of arguments checked.
* `interpret`: the statements of a program.
-/

namespace Treewalk

open Run

/-- How a statement ends. -/
inductive Flow
  /-- The next statement follows. -/
  | normal
  /-- The call that the statement belongs to ends with a value. -/
  | returned (value : Value)

/-- The value of a call whose body ended in a given way. -/
def Flow.value : Flow → Value
  | normal => .nil
  | returned v => v

/-! ### Calls -/

/-- Calls a value without checking the number of arguments. A class makes an object, which its
initializer, if it has one, is then called with. -/
def callUnchecked (invoke : Closure → List Value → Run Value) (callee : Value)
    (arguments : List Value) (line : Nat) : Run Value := do
  match callee with
  | .native n => n.run arguments line
  | .function f => invoke f arguments
  | .cls c =>
    let i ← newObject c
    match (← get).findMethod? c initializerName with
    | none => return .object i
    | some f =>
      let _ ← invoke (← bindReceiver f (.object i)) arguments
      return .object i
  | _ => raise .notCallable line

/-- Calls a value. -/
def callWith (invoke : Closure → List Value → Run Value) (callee : Value)
    (arguments : List Value) (line : Nat) : Run Value := do
  match (← get).arity? callee with
  | none => raise .notCallable line
  | some arity =>
    if arity = arguments.length then callUnchecked invoke callee arguments line
    else raise (.arityMismatch arity arguments.length) line

/-- Gives parameters the values of the arguments in the same positions. -/
def bindParameters (i : Nat) : List Name → List Value → Run Unit
  | p :: ps, v :: vs => do
    writeSlot i p.text (some v)
    bindParameters i ps vs
  | _, _ => pure ()

/-- The receiver that an initializer hands back. -/
def receiverOf (f : Closure) : Run Value := do
  checked f.decl.name.line ((← get).frames.getAt f.frame 0 "this")

/-! ### Statements and expressions -/

/-- Evaluates expressions from left to right. -/
def evaluateAll (evaluate : Expr → Run Value) : List Expr → Run (List Value)
  | [] => return []
  | e :: es => do
    let v ← evaluate e
    let vs ← evaluateAll evaluate es
    return v :: vs

/-- Executes statements in order until one returns. -/
def executeAll (execute : Stmt → Run Flow) : List Stmt → Run Flow
  | [] => return .normal
  | s :: ss => do
    match ← execute s with
    | .normal => executeAll execute ss
    | .returned v => return .returned v

/-- Executes a loop that goes round at most `bound` times. -/
def loop (condition : Run Value) (body : Run Flow) : (bound : Nat) → Run Flow
  | 0 => throw .outOfFuel
  | bound + 1 => do
    if (← condition).isTruthy then
      match ← body with
      | .normal => loop condition body bound
      | .returned v => return .returned v
    else return .normal

/-- The class that a superclass expression gives. -/
def asSuperclass (v : Value) (line : Nat) : Run Nat :=
  match v with
  | .cls c => pure c
  | _ => raise .invalidSuperclass line

/-- The frame that the methods of a class close over: the current one or, with a superclass, a frame
inside it in which `super` is bound. -/
def methodFrame (superclass : Option Nat) : Run Nat := do
  let outer ← currentFrame
  match superclass with
  | none => return outer
  | some c =>
    let i ← newFrame outer
    writeSlot i "super" (some (.cls c))
    return i

/-- Makes the methods of a class; of several with one name the last one counts. -/
def makeMethods (frame : Nat) : List FunctionDecl → Bindings Closure → Run (Bindings Closure)
  | [], table => return table
  | d :: ds, table => do
    let f ← newClosure d frame (d.name.text == initializerName)
    makeMethods frame ds (table.insert d.name.text f)

/-- Declares a class whose superclass has been evaluated. The name is bound first, so that methods
can refer to the class. -/
def declareClass (name : Name) (superclass : Option Nat) (methods : List FunctionDecl) :
    Run Unit := do
  define name.text .nil
  let frame ← methodFrame superclass
  let table ← makeMethods frame methods []
  let c ← newClass ⟨name.text, superclass, table⟩
  let m ← get
  assignIn (m.frames.holder? m.current name.text) name (.cls c)

/-! ### One step inward

What an expression, a statement or a call does with its parts is said first, for any way of
evaluating the parts. -/

/-- The evaluators of expressions, of statements, and of calls of functions. -/
structure Evaluators where
  /-- Evaluates an expression. -/
  evaluate : Expr → Run Value
  /-- Executes a statement. -/
  execute : Stmt → Run Flow
  /-- Calls a function without checking the number of arguments. -/
  invoke : Closure → List Value → Run Value

/-- Evaluates an expression whose parts are evaluated in a given way. -/
def evaluateStep (lookup : Lookup) (parts : Evaluators) : Expr → Run Value
  | .literal l => return l.value
  | .grouping inner => parts.evaluate inner
  | .unary op line operand => do
    let v ← parts.evaluate operand
    checked line (op.apply v)
  | .binary op line left right => do
    let v ← parts.evaluate left
    let w ← parts.evaluate right
    checked line (op.apply (← get).text v w)
  | .logical op _ left right => do
    let v ← parts.evaluate left
    if op.decides v then return v else parts.evaluate right
  | .ternary condition whenTrue whenFalse => do
    if (← parts.evaluate condition).isTruthy then parts.evaluate whenTrue
    else parts.evaluate whenFalse
  | .variable id name => readVariable lookup id name
  | .assign id name value => do
    let v ← parts.evaluate value
    assignVariable lookup id name v
    return v
  | .call callee line arguments => do
    let f ← parts.evaluate callee
    let vs ← evaluateAll parts.evaluate arguments
    callWith parts.invoke f vs line
  | .get object name => do
    let i ← asObject (← parts.evaluate object) "properties" name.line
    property i name
  | .set object name value => do
    let i ← asObject (← parts.evaluate object) "fields" name.line
    let v ← parts.evaluate value
    setField i name.text v
    return v
  | .this id line => readVariable lookup id ⟨"this", line⟩
  | .super id line method => superMethod id line method

/-- Executes a statement whose parts are executed in a given way; `bound` bounds how often a loop
goes round. -/
def executeStep (parts : Evaluators) (bound : Nat) : Stmt → Run Flow
  | .expression e => do
    let _ ← parts.evaluate e
    return .normal
  | .variable name (some e) => do
    define name.text (← parts.evaluate e)
    return .normal
  | .variable name none => do
    declare name.text
    return .normal
  | .block body => do
    let i ← newFrame (← currentFrame)
    within i (executeAll parts.execute body)
  | .ifThen condition thenBranch => do
    if (← parts.evaluate condition).isTruthy then parts.execute thenBranch
    else return .normal
  | .ifElse condition thenBranch elseBranch => do
    if (← parts.evaluate condition).isTruthy then parts.execute thenBranch
    else parts.execute elseBranch
  | .while condition body => loop (parts.evaluate condition) (parts.execute body) bound
  | .function decl => do
    let f ← newClosure decl (← currentFrame) false
    define decl.name.text (.function f)
    return .normal
  | .return _ (some e) => return .returned (← parts.evaluate e)
  | .return _ none => return .returned .nil
  | .class name none methods => do
    declareClass name none methods
    return .normal
  | .class name (some s) methods => do
    let c ← asSuperclass (← parts.evaluate s.expr) s.name.line
    declareClass name (some c) methods
    return .normal

/-- Calls a function whose body is executed in a given way. -/
def invokeStep (parts : Evaluators) (f : Closure) (arguments : List Value) : Run Value := do
  let i ← newFrame f.frame
  bindParameters i f.decl.params arguments
  let flow ← within i (executeAll parts.execute f.decl.body)
  if f.isInitializer then receiverOf f else return flow.value

mutual

/-- Evaluates an expression. -/
def evaluate (lookup : Lookup) : (fuel : Nat) → Expr → Run Value
  | 0, _ => throw .outOfFuel
  | fuel + 1, e =>
    evaluateStep lookup ⟨evaluate lookup fuel, execute lookup fuel, invoke lookup fuel⟩ e

/-- Executes a statement. -/
def execute (lookup : Lookup) : (fuel : Nat) → Stmt → Run Flow
  | 0, _ => throw .outOfFuel
  | fuel + 1, s =>
    executeStep ⟨evaluate lookup fuel, execute lookup fuel, invoke lookup fuel⟩ fuel s

/-- Calls a function without checking the number of arguments. -/
def invoke (lookup : Lookup) : (fuel : Nat) → Closure → List Value → Run Value
  | 0, _, _ => throw .outOfFuel
  | fuel + 1, f, arguments =>
    invokeStep ⟨evaluate lookup fuel, execute lookup fuel, invoke lookup fuel⟩ f arguments

end

/-- The evaluators with a given fuel. -/
def evaluators (lookup : Lookup) (fuel : Nat) : Evaluators :=
  ⟨evaluate lookup fuel, execute lookup fuel, invoke lookup fuel⟩

theorem evaluate_succ (lookup : Lookup) (fuel : Nat) (e : Expr) :
    evaluate lookup (fuel + 1) e = evaluateStep lookup (evaluators lookup fuel) e :=
  rfl

theorem execute_succ (lookup : Lookup) (fuel : Nat) (s : Stmt) :
    execute lookup (fuel + 1) s = executeStep (evaluators lookup fuel) fuel s :=
  rfl

theorem invoke_succ (lookup : Lookup) (fuel : Nat) (f : Closure) (arguments : List Value) :
    invoke lookup (fuel + 1) f arguments = invokeStep (evaluators lookup fuel) f arguments :=
  rfl

/-- Calls a value, with the number of arguments checked. -/
def call (lookup : Lookup) (fuel : Nat) (callee : Value) (arguments : List Value) (line : Nat) :
    Run Value :=
  callWith (invoke lookup fuel) callee arguments line

/-- Executes the statements of a program. A return outside of any function ends it. -/
def interpret (lookup : Lookup) (fuel : Nat) (body : List Stmt) : Run Unit := do
  let _ ← executeAll (execute lookup fuel) body

end Treewalk
