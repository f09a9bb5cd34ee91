import Treewalk.Proofs.Syntax.Surrounded

/-!
# Reading by positions

The readers take tokens off a list. Here the same texts are read from all their tokens, with the index
of the one that comes next: a token is looked at where the index is, the one before it can be looked
at again, and to take a token is to move the index on, unless the token is an end of the text.

Nothing bounds such a reading. To look at a token outside the tokens, or at the one before the first
one, leaves it without an answer, and so does a loop that goes round too often, or a reading that goes
too deep. All moves of the index and all rounds of loops are recorded.

## Main definitions

* `Position`, `Motion`: where a parser stands, and how it has come there.
* `Halt`, `Parser`: parsers, and why they give no answer.
* `Parser.repeated`: the loops of a parser.
* `Parser.expression`, `Parser.declaration`, `Parser.parse`: expressions, statements, programs.
* `Walk`: motions that never lead back and never past an end, in whose rounds the index moves on.
-/

namespace Treewalk

/-- The loops of a parser. -/
inductive ParserLoop
  | program | block | classBody | parameters | arguments | chain (level : Level) | suffixes | recovery
  deriving DecidableEq

/-- What a parser does about its index. -/
inductive Motion
  /-- The index moves on by one. -/
  | onward
  /-- A round of a loop is over and another one comes: the index at its beginning and at its end. -/
  | round (loop : ParserLoop) (before after : Nat)

/-- Where a parser stands. -/
structure Position where
  /-- All tokens. -/
  tokens : List Token
  /-- The index of the next token. -/
  current : Nat
  /-- The faults noted so far, in order. -/
  errors : List SyntaxError
  /-- The number that the next node will get. -/
  nextId : Nat
  /-- What has been done about the index, in order. -/
  motions : List Motion

/-- Why a parser gives no answer. -/
inductive Halt
  /-- What is read has a fault. -/
  | failed (error : SyntaxError)
  /-- A token outside of the tokens is looked at. -/
  | outside
  /-- The token before the first one is looked at. -/
  | beforeFirst
  /-- A loop goes round too often, or a reading too deep. -/
  | endless

/-- Parsers. -/
abbrev Parser := EStateM Halt Position

/-- A fault at a token. -/
def Token.faultAt (t : Token) (fault : SyntaxFault) : SyntaxError :=
  ⟨if t.kind.isEnd then none else some t, fault⟩

namespace Parser

/-! ### Tokens -/

/-- The next token. -/
def peek : Parser Token := fun p =>
  match p.tokens[p.current]? with
  | some t => .ok t p
  | none => .error .outside p

/-- The token before the next one. -/
def previous : Parser Token := fun p =>
  match p.current with
  | 0 => .error .beforeFirst p
  | i + 1 =>
    match p.tokens[i]? with
    | some t => .ok t p
    | none => .error .outside p

/-- Whether the next token is an end of the text. -/
def isAtEnd : Parser Bool := do
  return (← peek).kind.isEnd

/-- Moves the index on. -/
def moveOn : Parser Unit := fun p =>
  .ok () { p with current := p.current + 1, motions := p.motions ++ [.onward] }

/-- Takes the next token unless it is an end of the text, and gives the token before the index. -/
def advance : Parser Token := do
  if ← isAtEnd then previous
  else
    moveOn
    previous

/-- Whether the next token has a given kind and is no end of the text. -/
def check (kind : TokenKind) : Parser Bool := do
  if ← isAtEnd then return false
  else return (← peek).is kind

/-- Takes the next token if it has a given kind, and says whether it did. -/
def accept (kind : TokenKind) : Parser Bool := do
  if ← check kind then
    let _ ← advance
    return true
  else return false

/-- Takes the next token if a function has a value there and it is no end of the text. -/
def acceptBy? {α : Type} (f : Token → Option α) : Parser (Option α) := do
  if ← isAtEnd then return none
  else match f (← peek) with
    | some a =>
      let _ ← advance
      return some a
    | none => return none

/-- Fails at the next token. -/
def fail {α : Type} (fault : SyntaxFault) : Parser α := do
  throw (.failed ((← peek).faultAt fault))

/-- Takes the next token, which must have a given kind. -/
def consume (kind : TokenKind) (fault : SyntaxFault) : Parser Token := do
  if ← check kind then advance else fail fault

/-- Notes a fault without failing. -/
def note (error : SyntaxError) : Parser Unit := fun p =>
  .ok () { p with errors := p.errors ++ [error] }

/-- Notes a fault at the next token if as many parameters or arguments as are allowed stand before
it. -/
def noteBeyond (count : Nat) (fault : SyntaxFault) : Parser Unit := do
  if maxArguments ≤ count then note ((← peek).faultAt fault) else pure ()

/-- Draws a node number. -/
def freshId : Parser Nat := fun p =>
  .ok p.nextId { p with nextId := p.nextId + 1 }

/-! ### Loops -/

/-- The index. -/
def index : Parser Nat := fun p =>
  .ok p.current p

/-- Records a round of a loop that began at an index. -/
def wentRound (loop : ParserLoop) (before : Nat) : Parser Unit := fun p =>
  .ok () { p with motions := p.motions ++ [.round loop before p.current] }

/-- Goes round a loop, at most `limit` times, until a round gives its result. -/
def repeated {σ β : Type} (loop : ParserLoop) (round : σ → Parser (σ ⊕ β)) :
    (limit : Nat) → σ → Parser β
  | 0, _ => throw .endless
  | limit + 1, s => do
    let before ← index
    match ← round s with
    | .inl s =>
      wentRound loop before
      repeated loop round limit s
    | .inr b => return b

variable (limit : Nat)

/-! ### Expressions -/

/-- Parses an operator of a level and its right operand, if there is one, after the left operand. -/
def chainRound (level : Level) (operand : Parser Expr) (left : Expr) : Parser (Expr ⊕ Expr) := do
  match ← acceptBy? level.combine? with
  | some combine => return .inl (combine left (← operand))
  | none => return .inr left

/-- Parses operands joined by operators of a level, which group to the left. -/
def chain (level : Level) (operand : Parser Expr) : Parser Expr := do
  let left ← operand
  repeated (.chain level) (chainRound level operand) limit left

/-- Parses an operand of a choice: operators from equality down to products. -/
def equality (operand : Parser Expr) : Parser Expr :=
  chain limit .equality (chain limit .comparison (chain limit .sum (chain limit .product operand)))

/-- Parses an argument after others, and a comma if one follows. -/
def argumentsRound (argument : Parser Expr) (before : List Expr) :
    Parser (List Expr ⊕ List Expr) := do
  noteBeyond before.length .tooManyArguments
  let e ← argument
  if ← accept (.mark .comma) then return .inl (before ++ [e]) else return .inr (before ++ [e])

/-- Parses the arguments of a call after the opening parenthesis. -/
def arguments (argument : Parser Expr) : Parser (List Expr) := do
  if ← check (.mark .rightParen) then return []
  else repeated .arguments (argumentsRound argument) limit []

/-- Parses the rest of a call after its opening parenthesis. -/
def finishCall (argument : Parser Expr) (callee : Expr) : Parser Expr := do
  let arguments ← arguments limit argument
  let closing ← consume (.mark .rightParen) .argumentsClosing
  return .call callee closing.line arguments

/-- Parses a call or a property that follows an expression, if there is one. -/
def suffixesRound (argument : Parser Expr) (e : Expr) : Parser (Expr ⊕ Expr) := do
  if ← accept (.mark .leftParen) then return .inl (← finishCall limit argument e)
  else if ← accept (.mark .dot) then
    let name ← consume .identifier .propertyName
    return .inl (.get e name.toName)
  else return .inr e

/-- Parses an expression in parentheses after the opening one. -/
def groupingOf (inner : Parser Expr) : Parser Expr := do
  let e ← inner
  let _ ← consume (.mark .rightParen) .groupingClosing
  return .grouping e

/-- Parses a method of the superclass after the word `super` on a line. -/
def superOf (line : Nat) : Parser Expr := do
  let _ ← consume (.mark .dot) .superDot
  let method ← consume .identifier .superMethod
  return .super (← freshId) line method.toName

/-- Parses an expression that is one token, or that its first token opens. -/
def primary (inner : Parser Expr) : Parser Expr := do
  let t ← peek
  match t.literal? with
  | some l =>
    let _ ← advance
    return .literal l
  | none =>
    if t.is .identifier then
      let id ← freshId
      let _ ← advance
      return .variable id t.toName
    else if t.is (.keyword .thisWord) then
      let id ← freshId
      let _ ← advance
      return .this id t.line
    else if t.is (.keyword .superWord) then
      let keyword ← advance
      superOf keyword.line
    else if t.is (.mark .leftParen) then
      let _ ← advance
      groupingOf inner
    else fail .expression

/-- Parses a primary expression with the calls and properties that follow it. -/
def call (inner : Parser Expr) : Parser Expr := do
  let e ← primary inner
  repeated .suffixes (suffixesRound limit inner) limit e

/-- The assignment of a value to what has been parsed as an expression. -/
def assignTo (target : Expr) (equals : Token) (value : Expr) : Parser Expr := do
  match target with
  | .variable _ name => return .assign (← freshId) name value
  | .get object name => return .set object name value
  | target =>
    note (equals.faultAt .invalidTarget)
    return target

mutual

/-- Parses an assignment, or an expression without one. -/
def assignment : (depth : Nat) → Parser Expr
  | 0 => throw .endless
  | depth + 1 => do
    let target ← chain limit .or (chain limit .and (ternary depth))
    if ← accept (.mark .equal) then
      let equals ← previous
      let value ← assignment depth
      assignTo target equals value
    else return target

/-- Parses a choice, or an expression without one. -/
def ternary : (depth : Nat) → Parser Expr
  | 0 => throw .endless
  | depth + 1 => do
    let condition ← equality limit (unary depth)
    if ← accept (.mark .question) then
      let whenTrue ← equality limit (unary depth)
      let _ ← consume (.mark .colon) .ternaryColon
      let whenFalse ← ternary depth
      return .ternary condition whenTrue whenFalse
    else return condition

/-- Parses prefix operators and what they stand before. -/
def unary : (depth : Nat) → Parser Expr
  | 0 => throw .endless
  | depth + 1 => do
    match ← acceptBy? fun t => t.unaryOp?.map fun op => Expr.unary op t.line with
    | some apply => return apply (← unary depth)
    | none => call limit (assignment depth)

end

/-- Parses an expression. -/
def expression : Parser Expr :=
  assignment limit limit

/-! ### Parts of statements -/

/-- Parses an expression unless the next token has a given kind. -/
def expressionUnless (kind : TokenKind) : Parser (Option Expr) := do
  if ← check kind then return none
  else return some (← expression limit)

/-- Parses a parameter after others, and a comma if one follows. -/
def parametersRound (before : List Name) : Parser (List Name ⊕ List Name) := do
  noteBeyond before.length .tooManyParameters
  let name ← consume .identifier .parameterName
  if ← accept (.mark .comma) then return .inl (before ++ [name.toName])
  else return .inr (before ++ [name.toName])

/-- Parses the parameters of a declaration after the opening parenthesis. -/
def parameters : Parser (List Name) := do
  if ← check (.mark .rightParen) then return []
  else repeated .parameters parametersRound limit []

/-- Parses the initializer of a variable declaration, if there is one. -/
def initializer? : Parser (Option Expr) := do
  if ← accept (.mark .equal) then return some (← expression limit)
  else return none

/-- Parses a variable declaration after its first word. -/
def variableDecl : Parser Stmt := do
  let name ← consume .identifier .variableName
  let initializer ← initializer? limit
  let _ ← consume (.mark .semicolon) .variableEnd
  return .variable name.toName initializer

/-- Parses an expression and a semicolon. -/
def expressionStmt : Parser Stmt := do
  let e ← expression limit
  let _ ← consume (.mark .semicolon) .expressionEnd
  return .expression e

/-- Parses the rest of a return statement after its first word, which is looked at again. -/
def returnStmt : Parser Stmt := do
  let keyword ← previous
  let value ← expressionUnless limit (.mark .semicolon)
  let _ ← consume (.mark .semicolon) .returnEnd
  return .return keyword.line value

/-- Parses the first clause of a loop with its semicolon. -/
def loopInitializer : Parser (Option Stmt) := do
  if ← accept (.mark .semicolon) then return none
  else if ← accept (.keyword .varWord) then return some (← variableDecl limit)
  else return some (← expressionStmt limit)

/-- Parses the superclass of a class declaration, if there is one. -/
def superclass? : Parser (Option Superclass) := do
  if ← accept (.mark .less) then
    let name ← consume .identifier .superclassName
    return some ⟨← freshId, name.toName⟩
  else return none

/-! ### Statements -/

/-- Looks for the end of a statement or the beginning of another one, and passes over a token if there
is none. -/
def recoveryRound : Parser (Unit ⊕ Unit) := do
  if ← isAtEnd then return .inr ()
  else if (← previous).is (.mark .semicolon) then return .inr ()
  else if (← peek).opensStatement then return .inr ()
  else
    let _ ← advance
    return .inl ()

/-- Passes over the token that does not fit, and over further ones up to a place where a statement can
begin. -/
def synchronize : Parser Unit := do
  let _ ← advance
  repeated .recovery (fun _ => recoveryRound) limit ()

/-- Parses a statement; if that fails, notes the fault and goes on where a statement can begin. -/
def orSynchronize (parser : Parser Stmt) : Parser (Option Stmt) := fun p =>
  match parser p with
  | .ok s p => .ok (some s) p
  | .error (.failed e) p => (do
      note e
      synchronize limit
      return none : Parser (Option Stmt)) p
  | .error halt p => .error halt p

/-- Goes on unless items end: at an end of the text or, within a block, at a closing brace. -/
def untilEnd {α : Type} (inBlock : Bool) (a : α) (parser : Parser α) : Parser α := do
  if ← (if inBlock then check (.mark .rightBrace) else pure false) then return a
  else if ← isAtEnd then return a
  else parser

/-- Parses a declaration or a statement after others, unless they end. -/
def itemsRound (inBlock : Bool) (item : Parser (Option Stmt)) (before : List Stmt) :
    Parser (List Stmt ⊕ List Stmt) :=
  untilEnd inBlock (.inr before) do
    return .inl (before ++ (← item).toList)

/-- Parses declarations and statements up to a closing brace, with it. -/
def block (item : Parser (Option Stmt)) : Parser (List Stmt) := do
  let body ← repeated .block (itemsRound true item) limit []
  let _ ← consume (.mark .rightBrace) .blockClosing
  return body

/-- Parses a method after others, unless the body of a class ends. -/
def methodsRound (method : Parser FunctionDecl) (before : List FunctionDecl) :
    Parser (List FunctionDecl ⊕ List FunctionDecl) :=
  untilEnd true (.inr before) do
    return .inl (before ++ [← method])

mutual

/-- Parses a declaration or a statement. -/
def declaration : (depth : Nat) → Parser (Option Stmt)
  | 0 => throw .endless
  | depth + 1 => do
    let _ ← peek
    orSynchronize limit do
      if ← accept (.keyword .classWord) then
        let name ← consume .identifier .className
        let superclass ← superclass?
        let _ ← consume (.mark .leftBrace) .classOpening
        let methods ← repeated .classBody (methodsRound (routine depth .method)) limit []
        let _ ← consume (.mark .rightBrace) .classClosing
        return .class name.toName superclass methods
      else if ← accept (.keyword .funWord) then return .function (← routine depth .function)
      else if ← accept (.keyword .varWord) then variableDecl limit
      else statement depth

/-- Parses a statement. -/
def statement : (depth : Nat) → Parser Stmt
  | 0 => throw .endless
  | depth + 1 => do
    if ← accept (.keyword .forWord) then
      let _ ← consume (.mark .leftParen) .forOpening
      let initializer ← loopInitializer limit
      let condition ← expressionUnless limit (.mark .semicolon)
      let _ ← consume (.mark .semicolon) .forConditionEnd
      let increment ← expressionUnless limit (.mark .rightParen)
      let _ ← consume (.mark .rightParen) .forClosing
      return loopStmt initializer condition increment (← statement depth)
    else if ← accept (.keyword .ifWord) then
      let _ ← consume (.mark .leftParen) .ifOpening
      let condition ← expression limit
      let _ ← consume (.mark .rightParen) .ifClosing
      let thenBranch ← statement depth
      if ← accept (.keyword .elseWord) then
        return .ifElse condition thenBranch (← statement depth)
      else return .ifThen condition thenBranch
    else if ← accept (.keyword .whileWord) then
      let _ ← consume (.mark .leftParen) .whileOpening
      let condition ← expression limit
      let _ ← consume (.mark .rightParen) .whileClosing
      return .while condition (← statement depth)
    else if ← accept (.keyword .returnWord) then returnStmt limit
    else if ← accept (.mark .leftBrace) then return .block (← block limit (declaration depth))
    else expressionStmt limit

/-- Parses a function or method declaration from its name on. -/
def routine : (depth : Nat) → Routine → Parser FunctionDecl
  | 0, _ => throw .endless
  | depth + 1, kind => do
    let name ← consume .identifier (.routineName kind)
    let _ ← consume (.mark .leftParen) (.parametersOpening kind)
    let params ← parameters limit
    let _ ← consume (.mark .rightParen) .parametersClosing
    let _ ← consume (.mark .leftBrace) (.bodyOpening kind)
    let body ← block limit (declaration depth)
    return ⟨name.toName, params, body⟩

end

/-- Parses a program: declarations and statements up to an end of the text. -/
def parse : Parser (List Stmt) :=
  repeated .program (itemsRound false (declaration limit limit)) limit []

end Parser

/-- Where a parser stands that has not begun. -/
def Position.start (tokens : List Token) (nextId : Nat) : Position :=
  ⟨tokens, 0, [], nextId, []⟩

/-- Motions that lead from an index to another one: the index never moves back and never past `last`,
and each round that is followed by another one ends further on than it has begun. -/
inductive Walk (last : Nat) : Nat → List Motion → Nat → Prop
  /-- The end. -/
  | done {i : Nat} (hi : i ≤ last) : Walk last i [] i
  /-- The index moves on, which it can only before `last`. -/
  | onward {i j : Nat} {motions : List Motion} (hi : i < last) (h : Walk last (i + 1) motions j) :
    Walk last i (.onward :: motions) j
  /-- A round is over and another one comes. -/
  | round {i j before : Nat} {motions : List Motion} {loop : ParserLoop} (hbefore : before < i)
      (h : Walk last i motions j) : Walk last i (.round loop before i :: motions) j

end Treewalk
