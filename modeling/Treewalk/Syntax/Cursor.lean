import Treewalk.Syntax

/-!
# Reading tokens

A reader of tokens either answers with a tree and goes on, or fails with a fault at the token that
does not fit; in both cases the tokens that it took are gone, the faults that it noted on the way
stay noted, and the node numbers that it drew stay drawn.

The end of the text is the empty list of tokens.

## Main definitions

* `SyntaxFault`, `SyntaxError`: what does not fit, and where.
* `Cursor`: the tokens not yet read, the faults noted, and the next node number.
* `Reader`: a reader of tokens.
-/

namespace Treewalk

/-- The two kinds of declarations that have parameters. -/
inductive Routine
  | function | method
  deriving DecidableEq

/-- The word for a kind of declaration. -/
def Routine.text : Routine → String
  | function => "function"
  | method => "method"

/-- The number of parameters and arguments beyond which each further one is a fault. -/
def maxArguments : Nat := 16

/-- What does not fit at a token. -/
inductive SyntaxFault
  | className | superclassName | classOpening | classClosing
  | routineName (kind : Routine) | parametersOpening (kind : Routine)
  | parameterName | parametersClosing | bodyOpening (kind : Routine)
  | variableName | variableEnd
  | forOpening | forConditionEnd | forClosing
  | ifOpening | ifClosing | whileOpening | whileClosing
  | returnEnd | expressionEnd | blockClosing
  | ternaryColon | propertyName | argumentsClosing | superDot | superMethod | groupingClosing
  | expression
  | tooManyParameters | tooManyArguments | invalidTarget
  deriving DecidableEq

namespace SyntaxFault

/-- The wording of a fault. -/
def message : SyntaxFault → String
  | className => "Expected class name."
  | superclassName => "Expected superclass name."
  | classOpening => "Expected '\x7b' before class body."
  | classClosing => "Expected '\x7d' after class body."
  | routineName kind => "Expected " ++ kind.text ++ " name."
  | parametersOpening kind => "Expected '(' after " ++ kind.text ++ " name."
  | parameterName => "Expected parameter name."
  | parametersClosing => "Expected ')' after parameters."
  | bodyOpening kind => "Expected '\x7b' before " ++ kind.text ++ " body."
  | variableName => "Expected variable name."
  | variableEnd => "Expected ';' after variable declaration."
  | forOpening => "Expected '(' after 'for'."
  | forConditionEnd => "Expected ';' after loop condition."
  | forClosing => "Expected ')' after for clauses."
  | ifOpening => "Expected '(' after 'if'."
  | ifClosing => "Expected ')' after if condition."
  | whileOpening => "Expected '(' after 'while'."
  | whileClosing => "Expected ')' after while condition."
  | returnEnd => "Expected ';' after return value."
  | expressionEnd => "Expected ';' after expression."
  | blockClosing => "Expected '\x7d' after block."
  | ternaryColon => "Expected ':' after then branch of ternary expression."
  | propertyName => "Expected property name after '.'."
  | argumentsClosing => "Expected ')' after arguments."
  | superDot => "Expected '.' after 'super'."
  | superMethod => "Expected superclass method name."
  | groupingClosing => "Expected ')' after expression."
  | expression => "Expected expression."
  | tooManyParameters => "Can't have more than " ++ toString maxArguments ++ " parameters."
  | tooManyArguments => "Can't have more than " ++ toString maxArguments ++ " arguments."
  | invalidTarget => "Invalid assignment target."

end SyntaxFault

/-- A fault at a token, or at the end of the text. -/
structure SyntaxError where
  /-- The token at fault; none at the end of the text. -/
  found : Option Token
  /-- What does not fit. -/
  fault : SyntaxFault

/-- Where a reader of tokens stands. -/
structure Cursor where
  /-- The tokens not yet read. -/
  rest : List Token
  /-- The faults noted so far, in order. -/
  errors : List SyntaxError
  /-- The number that the next node will get. -/
  nextId : Nat

/-- A reader of tokens. -/
abbrev Reader := EStateM SyntaxError Cursor

namespace Reader

/-- The next token, which stays unread. -/
def peek? : Reader (Option Token) := fun c =>
  .ok c.rest.head? c

/-- Takes the next token, if there is one. -/
def skip : Reader Unit := fun c =>
  .ok () { c with rest := c.rest.tail }

/-- Whether the next token has a given kind; the token stays unread. -/
def check (kind : TokenKind) : Reader Bool := fun c =>
  .ok (c.rest.head?.any (·.is kind)) c

/-- Takes the next token if it has a given kind. -/
def accept? (kind : TokenKind) : Reader (Option Token) := fun c =>
  match c.rest with
  | [] => .ok none c
  | t :: rest => if t.is kind then .ok (some t) { c with rest := rest } else .ok none c

/-- Takes the next token if it has a given kind, and says whether it did. -/
def accept (kind : TokenKind) : Reader Bool := do
  return (← accept? kind).isSome

/-- Fails at the next token. -/
def fail {α : Type} (fault : SyntaxFault) : Reader α := fun c =>
  .error ⟨c.rest.head?, fault⟩ c

/-- Takes the next token, which must have a given kind. -/
def expect (kind : TokenKind) (fault : SyntaxFault) : Reader Token := do
  match ← accept? kind with
  | some t => return t
  | none => fail fault

/-- Notes a fault without failing. -/
def note (error : SyntaxError) : Reader Unit := fun c =>
  .ok () { c with errors := c.errors ++ [error] }

/-- Notes a fault at the next token without failing. -/
def noteHere (fault : SyntaxFault) : Reader Unit := do
  note ⟨← peek?, fault⟩

/-- Notes a fault at the next token if as many parameters or arguments as are allowed stand before
it. -/
def noteBeyond (count : Nat) (fault : SyntaxFault) : Reader Unit :=
  if maxArguments ≤ count then noteHere fault else pure ()

/-- Draws a node number. -/
def freshId : Reader Nat := fun c =>
  .ok c.nextId { c with nextId := c.nextId + 1 }

/-- Runs a reader that needs a bound on the number of tokens, with the number of those left. -/
def bounded {α : Type} (reader : Nat → Reader α) : Reader α := fun c =>
  reader c.rest.length c

end Reader

end Treewalk
