import Treewalk.Token

/-!
# Programs as trees

Expressions, statements and function declarations. Every node keeps what later stages need of its
tokens: names with their lines, and the lines of operators and closing parentheses.

The nodes whose meaning depends on a binding, variables, assignments, `this` and `super`, carry a
number of their own, so that what is found out about one occurrence is never mistaken for another.

There is no tree for a `for` loop: it is written as blocks and a `while` loop.

## Main definitions

* `Name`: a name or a reserved word at a line.
* `Expr`, `Stmt`, `FunctionDecl`: the trees.
-/

namespace Treewalk

/-- A word at a place of the program text. -/
structure Name where
  /-- The word. -/
  text : String
  /-- Its line. -/
  line : Nat
  deriving DecidableEq

/-- The word of a token. -/
def Token.toName (t : Token) : Name :=
  ⟨t.lexeme, t.line⟩

/-- The operators with one operand. -/
inductive UnaryOp
  | negate | not
  deriving DecidableEq

/-- The spelling of an operator. -/
def UnaryOp.mark : UnaryOp → Mark
  | negate => .minus
  | not => .bang

/-- The operators whose two operands are always evaluated. -/
inductive BinaryOp
  | equal | notEqual | greater | greaterEqual | less | lessEqual
  | add | subtract | multiply | divide
  deriving DecidableEq

/-- The spelling of an operator. -/
def BinaryOp.mark : BinaryOp → Mark
  | equal => .equalEqual
  | notEqual => .bangEqual
  | greater => .greater
  | greaterEqual => .greaterEqual
  | less => .less
  | lessEqual => .lessEqual
  | add => .plus
  | subtract => .minus
  | multiply => .star
  | divide => .slash

/-- The operators whose right operand is evaluated only if the left one does not decide. -/
inductive LogicalOp
  | and | or
  deriving DecidableEq

/-- The spelling of an operator. -/
def LogicalOp.keyword : LogicalOp → Keyword
  | and => .andWord
  | or => .orWord

/-- A constant of the program text. -/
inductive Literal
  | nil
  | bool (value : Bool)
  | number (value : Float)
  | string (text : String)

/-- Expressions. -/
inductive Expr
  /-- A constant. -/
  | literal (value : Literal)
  /-- An expression in parentheses. -/
  | grouping (inner : Expr)
  /-- An operator before its operand. -/
  | unary (op : UnaryOp) (line : Nat) (operand : Expr)
  /-- An operator between its operands. -/
  | binary (op : BinaryOp) (line : Nat) (left right : Expr)
  /-- A conjunction or disjunction. -/
  | logical (op : LogicalOp) (line : Nat) (left right : Expr)
  /-- A choice between two expressions. -/
  | ternary (condition whenTrue whenFalse : Expr)
  /-- The value of a variable. -/
  | variable (id : Nat) (name : Name)
  /-- An assignment to a variable. -/
  | assign (id : Nat) (name : Name) (value : Expr)
  /-- A call; the line is that of the closing parenthesis. -/
  | call (callee : Expr) (line : Nat) (arguments : List Expr)
  /-- A property of an object. -/
  | get (object : Expr) (name : Name)
  /-- An assignment to a property of an object. -/
  | set (object : Expr) (name : Name) (value : Expr)
  /-- The receiver of the enclosing method. -/
  | this (id : Nat) (line : Nat)
  /-- A method of the superclass, bound to the receiver of the enclosing method. -/
  | super (id : Nat) (line : Nat) (method : Name)

/-- A class that a class declaration names as its superclass. -/
structure Superclass where
  /-- The number of the occurrence. -/
  id : Nat
  /-- The name of the variable that holds the superclass. -/
  name : Name
  deriving DecidableEq

/-- The variable that a superclass is read from. -/
def Superclass.expr (s : Superclass) : Expr :=
  .variable s.id s.name

mutual

/-- Statements. -/
inductive Stmt
  /-- An expression evaluated for its effects. -/
  | expression (e : Expr)
  /-- The declaration of a variable. -/
  | variable (name : Name) (initializer : Option Expr)
  /-- Statements with a scope of their own. -/
  | block (body : List Stmt)
  /-- A statement executed under a condition. -/
  | ifThen (condition : Expr) (thenBranch : Stmt)
  /-- A choice between two statements. -/
  | ifElse (condition : Expr) (thenBranch elseBranch : Stmt)
  /-- A loop. -/
  | while (condition : Expr) (body : Stmt)
  /-- The declaration of a function. -/
  | function (decl : FunctionDecl)
  /-- The end of a call; the line is that of the reserved word. -/
  | return (line : Nat) (value : Option Expr)
  /-- The declaration of a class. -/
  | class (name : Name) (superclass : Option Superclass) (methods : List FunctionDecl)

/-- The declaration of a function or method. -/
structure FunctionDecl where
  /-- The name of the function. -/
  name : Name
  /-- The names of its parameters. -/
  params : List Name
  /-- The statements of its body. -/
  body : List Stmt

end

/-- The number of parameters. -/
def FunctionDecl.arity (d : FunctionDecl) : Nat :=
  d.params.length

end Treewalk
