import Treewalk.Proofs.Syntax.Drafts.Trees

/-!
# Reading drafts

Here texts are read into drafts, so that nothing about the trees is settled by their type: a chain of
operators takes every token that is among the marks or words of its level, and the token becomes the
operator.

A drafter does with the tokens what readers do, and keeps a trail besides. On the trail every fault
that is noted has its place, the number of tokens that were left then. Every call and every declaration
of a function or method that has been read to its end is listed with the places at which its arguments
or parameters began, even if the statement around it is given up later.

## Main definitions

* `Trail`, `Drafter`: where a drafter stands, and drafters.
* `Drafter.lift`: what a reader does, as a drafter.
* `Drafter.members`: arguments and parameters.
* `Drafter.expression`, `Drafter.item`: expressions, declarations and statements.
* `DraftProgram.ofTokens`: what is read from the tokens of a text.
-/

namespace Treewalk

/-- A fault, and how many tokens were left when it was noted. -/
structure Noted where
  /-- The number of tokens that were left. -/
  place : Nat
  /-- The fault. -/
  error : SyntaxError

/-- A call or a declaration that has been read to its end. -/
structure Listing where
  /-- What was read. -/
  node : DraftNode
  /-- How many tokens were left at the beginning of each argument or parameter. -/
  starts : List Nat

/-- Where a drafter stands, and what it has met on its way. -/
structure Trail where
  /-- What readers know: the tokens left, the faults noted, the next node number. -/
  cursor : Cursor
  /-- The faults noted, in order, with their places. -/
  noted : List Noted
  /-- The calls and declarations read to their ends, in order. -/
  listings : List Listing

/-- How many tokens are left. -/
def Trail.place (s : Trail) : Nat :=
  s.cursor.rest.length

/-- The trail after what readers know has changed: new faults are noted where the cursor then is. -/
def Trail.moveTo (s : Trail) (c : Cursor) : Trail where
  cursor := c
  noted := s.noted ++ (c.errors.drop s.cursor.errors.length).map fun e => ⟨c.rest.length, e⟩
  listings := s.listings

/-- Readers of drafts. -/
abbrev Drafter := EStateM SyntaxError Trail

/-- The marks or words of a level. -/
def Level.kinds : Level → List TokenKind
  | or => [.keyword .orWord]
  | and => [.keyword .andWord]
  | equality => [.mark .bangEqual, .mark .equalEqual]
  | comparison => [.mark .greater, .mark .greaterEqual, .mark .less, .mark .lessEqual]
  | sum => [.mark .minus, .mark .plus]
  | product => [.mark .star, .mark .slash]

/-- An operation of a level. -/
def Level.join (level : Level) (left : ExprDraft) (operator : Token) (right : ExprDraft) : ExprDraft :=
  match level with
  | or | and => .logical left operator right
  | equality | comparison | sum | product => .binary left operator right

/-- Takes the next token if it has one of some kinds. -/
def Reader.acceptOf (kinds : List TokenKind) : Reader (Option Token) :=
  acceptBy? fun t => if kinds.any t.is then some t else none

namespace Drafter

open Reader (accept accept? acceptOf acceptBy? check peek? expect fail freshId note noteBeyond)

variable {α : Type}

/-- What a reader does, with the faults that it notes put on the trail. -/
def lift (r : Reader α) : Drafter α := fun s =>
  match r s.cursor with
  | .ok a c => .ok a (s.moveTo c)
  | .error e c => .error e (s.moveTo c)

instance : MonadLift Reader Drafter := ⟨lift⟩

/-- Runs a drafter that needs a bound on the number of tokens, with the number of those left. -/
def bounded (drafter : Nat → Drafter α) : Drafter α := fun s =>
  drafter s.place s

/-- The number of tokens left. -/
def place : Drafter Nat := fun s =>
  .ok s.place s

/-- Lists a call or a declaration. -/
def list (node : DraftNode) (starts : List Nat) : Drafter Unit := fun s =>
  .ok () { s with listings := s.listings ++ [⟨node, starts⟩] }

/-! ### Arguments and parameters -/

/-- Reads arguments or parameters and the places where they begin; `count` of them stand before. -/
def membersFrom (tooMany missing : SyntaxFault) (member : Drafter α) :
    (bound : Nat) → (count : Nat) → Drafter (List (Nat × α))
  | 0, _ => fail missing
  | bound + 1, count => do
    noteBeyond count tooMany
    let start ← place
    let first ← member
    if ← accept (.mark .comma) then
      return (start, first) :: (← membersFrom tooMany missing member bound (count + 1))
    else return [(start, first)]

/-- Reads arguments or parameters after the opening parenthesis. -/
def members (tooMany missing : SyntaxFault) (member : Drafter α) : Drafter (List (Nat × α)) := do
  if ← check (.mark .rightParen) then return []
  else bounded fun bound => membersFrom tooMany missing member (bound + 1) 0

/-! ### Expressions -/

/-- Reads operators of a level and their right operands after the left operand `left`. -/
def chainFrom (level : Level) (operand : Drafter ExprDraft) :
    (bound : Nat) → ExprDraft → Drafter ExprDraft
  | 0, left => return left
  | bound + 1, left => do
    match ← acceptOf level.kinds with
    | some operator =>
      let right ← operand
      chainFrom level operand bound (level.join left operator right)
    | none => return left

/-- Reads operands joined by operators of a level, which group to the left. -/
def chain (level : Level) (operand : Drafter ExprDraft) : Drafter ExprDraft := do
  let left ← operand
  bounded fun bound => chainFrom level operand bound left

/-- Reads an operand of a choice: operators from equality down to products. -/
def equality (operand : Drafter ExprDraft) : Drafter ExprDraft :=
  chain .equality (chain .comparison (chain .sum (chain .product operand)))

/-- Reads the rest of a call after its opening parenthesis. -/
def callOf (argument : Drafter ExprDraft) (callee : ExprDraft) : Drafter ExprDraft := do
  let arguments ← members .tooManyArguments .expression argument
  let closing ← expect (.mark .rightParen) .argumentsClosing
  let call := ExprDraft.call callee closing (arguments.map Prod.snd)
  list (.expr call) (arguments.map Prod.fst)
  return call

/-- Reads calls and properties that follow an expression. -/
def suffixes (argument : Drafter ExprDraft) : (bound : Nat) → ExprDraft → Drafter ExprDraft
  | 0, e => return e
  | bound + 1, e => do
    if ← accept (.mark .leftParen) then
      suffixes argument bound (← callOf argument e)
    else if ← accept (.mark .dot) then
      let name ← expect .identifier .propertyName
      suffixes argument bound (.get e name)
    else return e

/-- Reads an expression in parentheses after the opening one. -/
def groupingOf (inner : Drafter ExprDraft) : Drafter ExprDraft := do
  let e ← inner
  let _ ← expect (.mark .rightParen) .groupingClosing
  return .grouping e

/-- Reads a method of the superclass after the word `super`. -/
def superOf (keyword : Token) : Drafter ExprDraft := do
  let _ ← expect (.mark .dot) .superDot
  let method ← expect .identifier .superMethod
  return .super (← freshId) keyword method

/-- Reads an expression that is one token, or that its first token opens. -/
def primary (inner : Drafter ExprDraft) : Drafter ExprDraft := do
  match ← acceptBy? Token.literal? with
  | some l => return .literal l
  | none =>
    match ← accept? .identifier with
    | some name => return .variable (← freshId) name
    | none =>
      match ← accept? (.keyword .thisWord) with
      | some keyword => return .this (← freshId) keyword
      | none =>
        match ← accept? (.keyword .superWord) with
        | some keyword => superOf keyword
        | none =>
          if ← accept (.mark .leftParen) then groupingOf inner else fail .expression

/-- Reads a primary expression with the calls and properties that follow it. -/
def call (inner : Drafter ExprDraft) : Drafter ExprDraft := do
  let e ← primary inner
  bounded fun bound => suffixes inner bound e

/-- The assignment of a value to what has been read as an expression. -/
def assignTo (target : ExprDraft) (equals : Token) (value : ExprDraft) : Drafter ExprDraft := do
  match target with
  | .variable _ name => return .assign (← freshId) name value
  | .get object name => return .set object name value
  | target =>
    note ⟨equals, .invalidTarget⟩
    return target

mutual

/-- Reads an assignment, or an expression without one. -/
def assignment : (bound : Nat) → Drafter ExprDraft
  | 0 => fail .expression
  | bound + 1 => do
    let target ← chain .or (chain .and (ternary bound))
    match ← accept? (.mark .equal) with
    | some equals =>
      let value ← assignment bound
      assignTo target equals value
    | none => return target

/-- Reads a choice, or an expression without one. -/
def ternary : (bound : Nat) → Drafter ExprDraft
  | 0 => fail .expression
  | bound + 1 => do
    let condition ← equality (unary bound)
    if ← accept (.mark .question) then
      let whenTrue ← equality (unary bound)
      let _ ← expect (.mark .colon) .ternaryColon
      let whenFalse ← ternary bound
      return .ternary condition whenTrue whenFalse
    else return condition

/-- Reads prefix operators and what they stand before. -/
def unary : (bound : Nat) → Drafter ExprDraft
  | 0 => fail .expression
  | bound + 1 => do
    match ← acceptOf [.mark .bang, .mark .minus] with
    | some operator => return .unary operator (← unary bound)
    | none => call (assignment bound)

end

/-- Reads an expression. -/
def expression : Drafter ExprDraft :=
  bounded fun tokens => assignment (3 * tokens + 3)

/-! ### Statements -/

/-- A loop with its clauses as a statement. -/
def loop (initializer : Option StmtDraft) (condition increment : Option ExprDraft)
    (body : StmtDraft) : StmtDraft :=
  let body := match increment with
    | some e => .block [body, .expression e]
    | none => body
  let loop := .while (condition.getD (.literal (.bool true))) body
  match initializer with
  | some s => .block [s, loop]
  | none => loop

/-- Reads an expression unless the next token has a given kind. -/
def expressionUnless (kind : TokenKind) : Drafter (Option ExprDraft) := do
  if ← check kind then return none
  else return some (← expression)

/-- Reads the initializer of a variable declaration, if there is one. -/
def initializer? : Drafter (Option ExprDraft) := do
  if ← accept (.mark .equal) then return some (← expression)
  else return none

/-- Reads a variable declaration after its first word. -/
def variableDecl : Drafter StmtDraft := do
  let name ← expect .identifier .variableName
  let initializer ← initializer?
  let _ ← expect (.mark .semicolon) .variableEnd
  return .variable name initializer

/-- Reads an expression and a semicolon. -/
def expressionStmt : Drafter StmtDraft := do
  let e ← expression
  let _ ← expect (.mark .semicolon) .expressionEnd
  return .expression e

/-- Reads the rest of a return statement after its first word. -/
def returnStmt (keyword : Token) : Drafter StmtDraft := do
  let value ← expressionUnless (.mark .semicolon)
  let _ ← expect (.mark .semicolon) .returnEnd
  return .return keyword value

/-- Reads the first clause of a loop with its semicolon. -/
def loopInitializer : Drafter (Option StmtDraft) := do
  if ← accept (.mark .semicolon) then return none
  else if ← accept (.keyword .varWord) then return some (← variableDecl)
  else return some (← expressionStmt)

/-- Reads the superclass of a class declaration, if there is one. -/
def superclass? : Drafter (Option ExprDraft) := do
  if ← accept (.mark .less) then
    let name ← expect .identifier .superclassName
    return some (.variable (← freshId) name)
  else return none

/-- Reads a statement; if that fails, notes the fault and goes on where a statement can begin. -/
def orRecover (drafter : Drafter StmtDraft) : Drafter (Option StmtDraft) := fun s =>
  match drafter s with
  | .ok a s => .ok (some a) s
  | .error e s =>
    let c := { s.cursor with rest := recover s.cursor.rest, errors := s.cursor.errors ++ [e] }
    .ok none { s with cursor := c, noted := s.noted ++ [⟨s.place, e⟩] }

mutual

/-- Reads a declaration or a statement. -/
def item : (bound : Nat) → Drafter (Option StmtDraft)
  | 0 => return none
  | bound + 1 => orRecover do
    if ← accept (.keyword .classWord) then
      let name ← expect .identifier .className
      let superclass ← superclass?
      let _ ← expect (.mark .leftBrace) .classOpening
      let methods ← methods bound
      let _ ← expect (.mark .rightBrace) .classClosing
      return .class name superclass methods
    else if ← accept (.keyword .funWord) then return .function (← routine bound .function)
    else if ← accept (.keyword .varWord) then variableDecl
    else statement bound

/-- Reads a statement. -/
def statement : (bound : Nat) → Drafter StmtDraft
  | 0 => fail .expression
  | bound + 1 => do
    if ← accept (.keyword .forWord) then
      let _ ← expect (.mark .leftParen) .forOpening
      let initializer ← loopInitializer
      let condition ← expressionUnless (.mark .semicolon)
      let _ ← expect (.mark .semicolon) .forConditionEnd
      let increment ← expressionUnless (.mark .rightParen)
      let _ ← expect (.mark .rightParen) .forClosing
      return loop initializer condition increment (← statement bound)
    else if ← accept (.keyword .ifWord) then
      let _ ← expect (.mark .leftParen) .ifOpening
      let condition ← expression
      let _ ← expect (.mark .rightParen) .ifClosing
      let thenBranch ← statement bound
      if ← accept (.keyword .elseWord) then
        return .ifElse condition thenBranch (← statement bound)
      else return .ifThen condition thenBranch
    else if ← accept (.keyword .whileWord) then
      let _ ← expect (.mark .leftParen) .whileOpening
      let condition ← expression
      let _ ← expect (.mark .rightParen) .whileClosing
      return .while condition (← statement bound)
    else match ← accept? (.keyword .returnWord) with
      | some keyword => returnStmt keyword
      | none =>
        if ← accept (.mark .leftBrace) then
          let body ← items bound true
          let _ ← expect (.mark .rightBrace) .blockClosing
          return .block body
        else expressionStmt

/-- Reads declarations and statements up to the end of the text or, within a block, up to a closing
brace. -/
def items : (bound : Nat) → (inBlock : Bool) → Drafter (List StmtDraft)
  | 0, _ => return []
  | bound + 1, inBlock => do
    if (← peek?).isNone || (inBlock && (← check (.mark .rightBrace))) then return []
    else
      let first ← item bound
      let others ← items bound inBlock
      return first.toList ++ others

/-- Reads a function or method declaration from its name on. -/
def routine : (bound : Nat) → Routine → Drafter FunctionDraft
  | 0, kind => fail (.routineName kind)
  | bound + 1, kind => do
    let name ← expect .identifier (.routineName kind)
    let _ ← expect (.mark .leftParen) (.parametersOpening kind)
    let params ← members .tooManyParameters .parameterName (expect .identifier .parameterName)
    let _ ← expect (.mark .rightParen) .parametersClosing
    let _ ← expect (.mark .leftBrace) (.bodyOpening kind)
    let body ← items bound true
    let _ ← expect (.mark .rightBrace) .blockClosing
    let decl : FunctionDraft := ⟨name, params.map Prod.snd, body⟩
    list (.function decl) (params.map Prod.fst)
    return decl

/-- Reads methods up to a closing brace or the end of the text. -/
def methods : (bound : Nat) → Drafter (List FunctionDraft)
  | 0 => return []
  | bound + 1 => do
    if (← peek?).isNone || (← check (.mark .rightBrace)) then return []
    else
      let first ← routine bound .method
      return first :: (← methods bound)

end

end Drafter

/-- What is read from the tokens of a text, as drafts. -/
structure DraftProgram where
  /-- The statements that were read. -/
  body : List StmtDraft
  /-- The faults noted, in order, with their places. -/
  noted : List Noted
  /-- The calls and declarations read to their ends, in order. -/
  listings : List Listing
  /-- The first node number that is still free. -/
  nextId : Nat

/-- Reads a program as drafts, giving its nodes numbers from `nextId` on. -/
def DraftProgram.ofTokens (nextId : Nat) (tokens : List Token) : DraftProgram :=
  let tokens := tokensBeforeEnd tokens
  match Drafter.items (3 * tokens.length + 3) false ⟨⟨tokens, [], nextId⟩, [], []⟩ with
  | .ok body s => ⟨body, s.noted, s.listings, s.cursor.nextId⟩
  | .error e s => ⟨[], s.noted ++ [⟨s.place, e⟩], s.listings, s.cursor.nextId⟩

end Treewalk
