import Treewalk.Syntax.Cursor

/-!
# Expressions from tokens

Expressions are read by levels. From the loosest to the tightest these are assignment, `or`, `and`,
the choice `? :`, equality, comparison, sums, products, prefix operators, and calls with their
primary expressions. The six levels of infix operators group to the left and share one reader;
assignments, choices and prefix operators group to the right.

The left side of an assignment is read as an expression and only then seen to be a variable or a
property; anything else is noted as a fault and stands for the whole assignment.

Every level is a function of the readers for what it contains. Only `assignment`, `ternary` and
`unary` call each other; their first argument bounds how deep, and `Reader.expression` takes the
bound from the number of tokens left, three levels for each token.

## Main definitions

* `Level`: the levels of infix operators, with the operators of each in `Level.combine?`.
* `Reader.chain`: the reader of a level.
* `Reader.expression`: the reader of an expression.
-/

namespace Treewalk

/-- The levels of infix operators. -/
inductive Level
  | or | and | equality | comparison | sum | product
  deriving DecidableEq

/-- The binary operator that a mark spells at a level. -/
def Level.binaryOp? : Level → Mark → Option BinaryOp
  | equality, .bangEqual => some .notEqual
  | equality, .equalEqual => some .equal
  | comparison, .greater => some .greater
  | comparison, .greaterEqual => some .greaterEqual
  | comparison, .less => some .less
  | comparison, .lessEqual => some .lessEqual
  | sum, .minus => some .subtract
  | sum, .plus => some .add
  | product, .star => some .multiply
  | product, .slash => some .divide
  | _, _ => none

/-- How a token joins two operands, if it is an operator of a level. -/
def Level.combine? (level : Level) (t : Token) : Option (Expr → Expr → Expr) :=
  match level, t.kind with
  | or, .keyword .orWord => some (.logical .or t.line)
  | and, .keyword .andWord => some (.logical .and t.line)
  | level, .mark m => (level.binaryOp? m).map fun op => .binary op t.line
  | _, _ => none

/-- The prefix operator that a token spells. -/
def Token.unaryOp? (t : Token) : Option UnaryOp :=
  match t.kind with
  | .mark .bang => some .not
  | .mark .minus => some .negate
  | _ => none

/-- The constant that a token spells. -/
def Token.literal? (t : Token) : Option Literal :=
  match t.kind with
  | .keyword .falseWord => some (.bool false)
  | .keyword .trueWord => some (.bool true)
  | .keyword .nilWord => some .nil
  | .number x => some (.number x)
  | .string text => some (.string text)
  | _ => none

namespace Reader

/-- Takes the next token if a function has a value there. -/
def acceptBy? {α : Type} (f : Token → Option α) : Reader (Option α) := do
  match (← peek?).bind f with
  | some a => skip; return some a
  | none => return none

/-- Reads operators of a level and their right operands after the left operand `left`. -/
def chainFrom (level : Level) (operand : Reader Expr) : (bound : Nat) → Expr → Reader Expr
  | 0, left => return left
  | bound + 1, left => do
    match ← acceptBy? level.combine? with
    | some combine =>
      let right ← operand
      chainFrom level operand bound (combine left right)
    | none => return left

/-- Reads operands joined by operators of a level, which group to the left. -/
def chain (level : Level) (operand : Reader Expr) : Reader Expr := do
  let left ← operand
  bounded fun bound => chainFrom level operand bound left

/-- Reads an operand of a choice: operators from equality down to products. -/
def equality (operand : Reader Expr) : Reader Expr :=
  chain .equality (chain .comparison (chain .sum (chain .product operand)))

/-- Reads arguments up to the closing parenthesis; `count` arguments stand before them. -/
def argumentsFrom (argument : Reader Expr) : (bound : Nat) → (count : Nat) → Reader (List Expr)
  | 0, _ => fail .expression
  | bound + 1, count => do
    noteBeyond count .tooManyArguments
    let first ← argument
    if ← accept (.mark .comma) then
      return first :: (← argumentsFrom argument bound (count + 1))
    else return [first]

/-- Reads the arguments of a call after the opening parenthesis. -/
def arguments (argument : Reader Expr) : Reader (List Expr) := do
  if ← check (.mark .rightParen) then return []
  else bounded fun bound => argumentsFrom argument (bound + 1) 0

/-- Reads the rest of a call after its opening parenthesis. -/
def callOf (argument : Reader Expr) (callee : Expr) : Reader Expr := do
  let arguments ← arguments argument
  let closing ← expect (.mark .rightParen) .argumentsClosing
  return .call callee closing.line arguments

/-- Reads calls and properties that follow an expression. -/
def suffixes (argument : Reader Expr) : (bound : Nat) → Expr → Reader Expr
  | 0, e => return e
  | bound + 1, e => do
    if ← accept (.mark .leftParen) then
      suffixes argument bound (← callOf argument e)
    else if ← accept (.mark .dot) then
      let name ← expect .identifier .propertyName
      suffixes argument bound (.get e name.toName)
    else return e

/-- Reads an expression in parentheses after the opening one. -/
def groupingOf (inner : Reader Expr) : Reader Expr := do
  let e ← inner
  let _ ← expect (.mark .rightParen) .groupingClosing
  return .grouping e

/-- Reads a method of the superclass after the word `super` on a line. -/
def superOf (line : Nat) : Reader Expr := do
  let _ ← expect (.mark .dot) .superDot
  let method ← expect .identifier .superMethod
  return .super (← freshId) line method.toName

/-- Reads an expression that is one token, or that its first token opens. -/
def primary (inner : Reader Expr) : Reader Expr := do
  match ← acceptBy? Token.literal? with
  | some l => return .literal l
  | none =>
    match ← accept? .identifier with
    | some name => return .variable (← freshId) name.toName
    | none =>
      match ← accept? (.keyword .thisWord) with
      | some t => return .this (← freshId) t.line
      | none =>
        match ← accept? (.keyword .superWord) with
        | some t => superOf t.line
        | none =>
          if ← accept (.mark .leftParen) then groupingOf inner else fail .expression

/-- Reads a primary expression with the calls and properties that follow it. -/
def call (inner : Reader Expr) : Reader Expr := do
  let e ← primary inner
  bounded fun bound => suffixes inner bound e

/-- The assignment of a value to what has been read as an expression. -/
def assignTo (target : Expr) (equals : Token) (value : Expr) : Reader Expr := do
  match target with
  | .variable _ name => return .assign (← freshId) name value
  | .get object name => return .set object name value
  | target =>
    note ⟨equals, .invalidTarget⟩
    return target

mutual

/-- Reads an assignment, or an expression without one. -/
def assignment : (bound : Nat) → Reader Expr
  | 0 => fail .expression
  | bound + 1 => do
    let target ← chain .or (chain .and (ternary bound))
    match ← accept? (.mark .equal) with
    | some equals =>
      let value ← assignment bound
      assignTo target equals value
    | none => return target

/-- Reads a choice, or an expression without one. -/
def ternary : (bound : Nat) → Reader Expr
  | 0 => fail .expression
  | bound + 1 => do
    let condition ← equality (unary bound)
    if ← accept (.mark .question) then
      let whenTrue ← equality (unary bound)
      let _ ← expect (.mark .colon) .ternaryColon
      let whenFalse ← ternary bound
      return .ternary condition whenTrue whenFalse
    else return condition

/-- Reads prefix operators and what they stand before. -/
def unary : (bound : Nat) → Reader Expr
  | 0 => fail .expression
  | bound + 1 => do
    match ← acceptBy? fun t => t.unaryOp?.map fun op => Expr.unary op t.line with
    | some apply => return apply (← unary bound)
    | none => call (assignment bound)

end

/-- Reads an expression. -/
def expression : Reader Expr :=
  bounded fun tokens => assignment (3 * tokens + 3)

end Reader

end Treewalk
