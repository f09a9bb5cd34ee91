import Treewalk.Syntax.Expression

/-!
# Statements from tokens

A statement that fails to be read is noted as a fault and left out; reading goes on at the next
place where a statement can begin. So one reading of a text notes every fault in it that is not
hidden behind another one.

A loop with an initialiser, a condition and an increment is written as the initialiser followed by
a `while` loop in a block, whose body is the given body followed by the increment, in a block again.
A clause that is absent leaves its block out, and an absent condition is true.

Only `item`, `statement`, `items`, `routine` and `methods` call each other; their first argument
bounds how deep, and `Program.ofTokens` takes the bound from the number of tokens.

## Main definitions

* `recover`: the tokens at which reading goes on after a fault.
* `loopStmt`: a loop with its clauses as a statement.
* `Program`, `Program.ofTokens`: what is read from the tokens of a text.
-/

namespace Treewalk

/-- Whether a token is one of the words with which a statement can begin. -/
def Token.opensStatement (t : Token) : Bool :=
  match t.kind with
  | .keyword k => k.opensStatement
  | _ => false

/-- The tokens at which reading goes on when the first of the given tokens does not fit: those after
it and after every further token up to a semicolon or up to a statement word. -/
def recover : List Token → List Token
  | [] => []
  | t :: rest =>
    if t.is (.mark .semicolon) then rest
    else match rest with
      | [] => []
      | next :: _ => if next.opensStatement then rest else recover rest

/-- A loop with its clauses as a statement. -/
def loopStmt (initializer : Option Stmt) (condition increment : Option Expr) (body : Stmt) : Stmt :=
  let body := match increment with
    | some e => .block [body, .expression e]
    | none => body
  let loop := .while (condition.getD (.literal (.bool true))) body
  match initializer with
  | some s => .block [s, loop]
  | none => loop

namespace Reader

/-- Reads an expression unless the next token has a given kind. -/
def expressionUnless (kind : TokenKind) : Reader (Option Expr) := do
  if ← check kind then return none
  else return some (← expression)

/-- Reads parameters up to the closing parenthesis; `count` parameters stand before them. -/
def parametersFrom : (bound : Nat) → (count : Nat) → Reader (List Name)
  | 0, _ => fail .parameterName
  | bound + 1, count => do
    noteBeyond count .tooManyParameters
    let first ← expect .identifier .parameterName
    if ← accept (.mark .comma) then
      return first.toName :: (← parametersFrom bound (count + 1))
    else return [first.toName]

/-- Reads the parameters of a declaration after the opening parenthesis. -/
def parameters : Reader (List Name) := do
  if ← check (.mark .rightParen) then return []
  else bounded fun bound => parametersFrom (bound + 1) 0

/-- Reads the initializer of a variable declaration, if there is one. -/
def initializer? : Reader (Option Expr) := do
  if ← accept (.mark .equal) then return some (← expression)
  else return none

/-- Reads a variable declaration after its first word. -/
def variableDecl : Reader Stmt := do
  let name ← expect .identifier .variableName
  let initializer ← initializer?
  let _ ← expect (.mark .semicolon) .variableEnd
  return .variable name.toName initializer

/-- Reads an expression and a semicolon. -/
def expressionStmt : Reader Stmt := do
  let e ← expression
  let _ ← expect (.mark .semicolon) .expressionEnd
  return .expression e

/-- Reads the rest of a return statement after its first word on a line. -/
def returnStmt (line : Nat) : Reader Stmt := do
  let value ← expressionUnless (.mark .semicolon)
  let _ ← expect (.mark .semicolon) .returnEnd
  return .return line value

/-- Reads the first clause of a loop with its semicolon. -/
def loopInitializer : Reader (Option Stmt) := do
  if ← accept (.mark .semicolon) then return none
  else if ← accept (.keyword .varWord) then return some (← variableDecl)
  else return some (← expressionStmt)

/-- Reads the superclass of a class declaration, if there is one. -/
def superclass? : Reader (Option Superclass) := do
  if ← accept (.mark .less) then
    let name ← expect .identifier .superclassName
    return some ⟨← freshId, name.toName⟩
  else return none

/-- Reads a statement; if that fails, notes the fault and goes on where a statement can begin. -/
def orRecover (reader : Reader Stmt) : Reader (Option Stmt) := fun c =>
  match reader c with
  | .ok s c => .ok (some s) c
  | .error e c => .ok none { c with rest := recover c.rest, errors := c.errors ++ [e] }

mutual

/-- Reads a declaration or a statement. -/
def item : (bound : Nat) → Reader (Option Stmt)
  | 0 => return none
  | bound + 1 => orRecover do
    if ← accept (.keyword .classWord) then
      let name ← expect .identifier .className
      let superclass ← superclass?
      let _ ← expect (.mark .leftBrace) .classOpening
      let methods ← methods bound
      let _ ← expect (.mark .rightBrace) .classClosing
      return .class name.toName superclass methods
    else if ← accept (.keyword .funWord) then return .function (← routine bound .function)
    else if ← accept (.keyword .varWord) then variableDecl
    else statement bound

/-- Reads a statement. -/
def statement : (bound : Nat) → Reader Stmt
  | 0 => fail .expression
  | bound + 1 => do
    if ← accept (.keyword .forWord) then
      let _ ← expect (.mark .leftParen) .forOpening
      let initializer ← loopInitializer
      let condition ← expressionUnless (.mark .semicolon)
      let _ ← expect (.mark .semicolon) .forConditionEnd
      let increment ← expressionUnless (.mark .rightParen)
      let _ ← expect (.mark .rightParen) .forClosing
      return loopStmt initializer condition increment (← statement bound)
    else if ← accept (.keyword .ifWord) then
      let _ ← expect (.mark .leftParen) .ifOpening
      let condition ← expression
      let _ ← expect (.mark .rightParen) .ifClosing
      let thenBranch ← statement bound
      if ← accept (.keyword .elseWord) then
        return .ifElse condition thenBranch (← statement bound)
      else return .ifThen condition thenBranch
    else if ← accept (.keyword .whileWord) then
      let _ ← expect (.mark .leftParen) .whileOpening
      let condition ← expression
      let _ ← expect (.mark .rightParen) .whileClosing
      return .while condition (← statement bound)
    else match ← accept? (.keyword .returnWord) with
      | some t => returnStmt t.line
      | none =>
        if ← accept (.mark .leftBrace) then
          let body ← items bound true
          let _ ← expect (.mark .rightBrace) .blockClosing
          return .block body
        else expressionStmt

/-- Reads declarations and statements up to the end of the text or, within a block, up to a closing
brace. -/
def items : (bound : Nat) → (inBlock : Bool) → Reader (List Stmt)
  | 0, _ => return []
  | bound + 1, inBlock => do
    if (← peek?).isNone || (inBlock && (← check (.mark .rightBrace))) then return []
    else
      let first ← item bound
      let others ← items bound inBlock
      return first.toList ++ others

/-- Reads a function or method declaration from its name on. -/
def routine : (bound : Nat) → Routine → Reader FunctionDecl
  | 0, kind => fail (.routineName kind)
  | bound + 1, kind => do
    let name ← expect .identifier (.routineName kind)
    let _ ← expect (.mark .leftParen) (.parametersOpening kind)
    let params ← parameters
    let _ ← expect (.mark .rightParen) .parametersClosing
    let _ ← expect (.mark .leftBrace) (.bodyOpening kind)
    let body ← items bound true
    let _ ← expect (.mark .rightBrace) .blockClosing
    return ⟨name.toName, params, body⟩

/-- Reads methods up to a closing brace or the end of the text. -/
def methods : (bound : Nat) → Reader (List FunctionDecl)
  | 0 => return []
  | bound + 1 => do
    if (← peek?).isNone || (← check (.mark .rightBrace)) then return []
    else
      let first ← routine bound .method
      return first :: (← methods bound)

end

end Reader

/-- What is read from the tokens of a text. -/
structure Program where
  /-- The statements that were read. -/
  body : List Stmt
  /-- The faults that were noted, in order. -/
  errors : List SyntaxError
  /-- The first node number that is still free. -/
  nextId : Nat

/-- The tokens before the end of the text. -/
def tokensBeforeEnd (tokens : List Token) : List Token :=
  tokens.takeWhile fun t => !t.kind.isEnd

/-- Reads a program, giving its nodes numbers from `nextId` on. -/
def Program.ofTokens (nextId : Nat) (tokens : List Token) : Program :=
  let tokens := tokensBeforeEnd tokens
  match Reader.items (3 * tokens.length + 3) false ⟨tokens, [], nextId⟩ with
  | .ok body c => ⟨body, c.errors, c.nextId⟩
  | .error e c => ⟨[], c.errors ++ [e], c.nextId⟩

end Treewalk
