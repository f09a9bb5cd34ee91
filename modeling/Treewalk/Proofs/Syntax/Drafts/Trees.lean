import Mathlib
import Treewalk.Syntax.Program

/-!
# Drafts

A draft is a tree that still holds the tokens it was read from. Nothing about the tokens is known from
the type: any token can be the operator of any operation, any token can be a name, any expression can
be a superclass, and a list of arguments or parameters can have any length.

So a draft means a tree only if its tokens are the right ones. Which nodes a draft has at any depth is
said by the nodes directly inside of each.

## Main definitions

* `ExprDraft`, `StmtDraft`, `FunctionDraft`: drafts.
* `ExprDraft.expr?`, `StmtDraft.stmt?`, `FunctionDraft.decl?`: what a draft means.
* `DraftNode`, `DraftNode.Within`, `DraftNode.All`: the nodes of a draft at any depth.
* `DraftNode.HasShape`, `DraftNode.names`, `DraftNode.list?`: what is asked of a node.
-/

namespace Treewalk

/-! ### Drafts -/

/-- Expressions with their tokens. -/
inductive ExprDraft
  /-- A constant. -/
  | literal (value : Literal)
  /-- An expression in parentheses. -/
  | grouping (inner : ExprDraft)
  /-- An operator before its operand. -/
  | unary (operator : Token) (operand : ExprDraft)
  /-- An operator between operands that are both evaluated. -/
  | binary (left : ExprDraft) (operator : Token) (right : ExprDraft)
  /-- An operator between operands the second of which is evaluated only if it matters. -/
  | logical (left : ExprDraft) (operator : Token) (right : ExprDraft)
  /-- A choice between two expressions. -/
  | ternary (condition whenTrue whenFalse : ExprDraft)
  /-- The value of a variable. -/
  | variable (id : Nat) (name : Token)
  /-- An assignment to a variable. -/
  | assign (id : Nat) (name : Token) (value : ExprDraft)
  /-- A call with its closing parenthesis. -/
  | call (callee : ExprDraft) (closing : Token) (arguments : List ExprDraft)
  /-- A property of an object. -/
  | get (object : ExprDraft) (name : Token)
  /-- An assignment to a property of an object. -/
  | set (object : ExprDraft) (name : Token) (value : ExprDraft)
  /-- The receiver of the enclosing method. -/
  | this (id : Nat) (keyword : Token)
  /-- A method of the superclass. -/
  | super (id : Nat) (keyword method : Token)

mutual

/-- Statements with their tokens. -/
inductive StmtDraft
  /-- An expression evaluated for its effects. -/
  | expression (e : ExprDraft)
  /-- The declaration of a variable. -/
  | variable (name : Token) (initializer : Option ExprDraft)
  /-- Statements with a scope of their own. -/
  | block (body : List StmtDraft)
  /-- A statement executed under a condition. -/
  | ifThen (condition : ExprDraft) (thenBranch : StmtDraft)
  /-- A choice between two statements. -/
  | ifElse (condition : ExprDraft) (thenBranch elseBranch : StmtDraft)
  /-- A loop. -/
  | while (condition : ExprDraft) (body : StmtDraft)
  /-- The declaration of a function. -/
  | function (decl : FunctionDraft)
  /-- The end of a call. -/
  | return (keyword : Token) (value : Option ExprDraft)
  /-- The declaration of a class; any expression can stand for its superclass. -/
  | class (name : Token) (superclass : Option ExprDraft) (methods : List FunctionDraft)

/-- The declaration of a function or method with its tokens. -/
structure FunctionDraft where
  /-- The name of the function. -/
  name : Token
  /-- The names of its parameters. -/
  params : List Token
  /-- The statements of its body. -/
  body : List StmtDraft

end

/-! ### What a draft means -/

/-- The operator with two operands that a mark spells. -/
def Mark.binaryOp? : Mark → Option BinaryOp
  | .equalEqual => some .equal
  | .bangEqual => some .notEqual
  | .greater => some .greater
  | .greaterEqual => some .greaterEqual
  | .less => some .less
  | .lessEqual => some .lessEqual
  | .plus => some .add
  | .minus => some .subtract
  | .star => some .multiply
  | .slash => some .divide
  | _ => none

/-- The operator with two operands that a token spells. -/
def Token.binaryOp? (t : Token) : Option BinaryOp :=
  match t.kind with
  | .mark m => m.binaryOp?
  | _ => none

/-- The conjunction or disjunction that a token spells. -/
def Token.logicalOp? (t : Token) : Option LogicalOp :=
  match t.kind with
  | .keyword .andWord => some .and
  | .keyword .orWord => some .or
  | _ => none

mutual

/-- The expression that a draft means. -/
@[simp] def ExprDraft.expr? : ExprDraft → Option Expr
  | .literal l => some (.literal l)
  | .grouping inner => do return .grouping (← inner.expr?)
  | .unary operator operand => do
    return .unary (← operator.unaryOp?) operator.line (← operand.expr?)
  | .binary left operator right => do
    return .binary (← operator.binaryOp?) operator.line (← left.expr?) (← right.expr?)
  | .logical left operator right => do
    return .logical (← operator.logicalOp?) operator.line (← left.expr?) (← right.expr?)
  | .ternary condition whenTrue whenFalse => do
    return .ternary (← condition.expr?) (← whenTrue.expr?) (← whenFalse.expr?)
  | .variable id name => some (.variable id name.toName)
  | .assign id name value => do return .assign id name.toName (← value.expr?)
  | .call callee closing arguments => do
    return .call (← callee.expr?) closing.line (← ExprDraft.exprs? arguments)
  | .get object name => do return .get (← object.expr?) name.toName
  | .set object name value => do return .set (← object.expr?) name.toName (← value.expr?)
  | .this id keyword => some (.this id keyword.line)
  | .super id keyword method => some (.super id keyword.line method.toName)

/-- The expressions that drafts mean. -/
@[simp] def ExprDraft.exprs? : List ExprDraft → Option (List Expr)
  | [] => some []
  | e :: es => do return (← e.expr?) :: (← ExprDraft.exprs? es)

end

/-- The superclass that a draft means. -/
def ExprDraft.superclass? : ExprDraft → Option Superclass
  | .variable id name => some ⟨id, name.toName⟩
  | _ => none

mutual

/-- The statement that a draft means. -/
@[simp] def StmtDraft.stmt? : StmtDraft → Option Stmt
  | .expression e => do return .expression (← e.expr?)
  | .variable name initializer => do
    return .variable name.toName (← initializer.mapM ExprDraft.expr?)
  | .block body => do return .block (← StmtDraft.stmts? body)
  | .ifThen condition thenBranch => do return .ifThen (← condition.expr?) (← thenBranch.stmt?)
  | .ifElse condition thenBranch elseBranch => do
    return .ifElse (← condition.expr?) (← thenBranch.stmt?) (← elseBranch.stmt?)
  | .while condition body => do return .while (← condition.expr?) (← body.stmt?)
  | .function decl => do return .function (← decl.decl?)
  | .return keyword value => do return .return keyword.line (← value.mapM ExprDraft.expr?)
  | .class name superclass methods => do
    return .class name.toName (← superclass.mapM ExprDraft.superclass?) (← FunctionDraft.decls? methods)

/-- The statements that drafts mean. -/
@[simp] def StmtDraft.stmts? : List StmtDraft → Option (List Stmt)
  | [] => some []
  | s :: ss => do return (← s.stmt?) :: (← StmtDraft.stmts? ss)

/-- The declaration that a draft means. -/
@[simp] def FunctionDraft.decl? : FunctionDraft → Option FunctionDecl
  | ⟨name, params, body⟩ => do
    return ⟨name.toName, params.map Token.toName, ← StmtDraft.stmts? body⟩

/-- The declarations that drafts mean. -/
@[simp] def FunctionDraft.decls? : List FunctionDraft → Option (List FunctionDecl)
  | [] => some []
  | d :: ds => do return (← d.decl?) :: (← FunctionDraft.decls? ds)

end

/-! ### The nodes of a draft -/

/-- A node of a draft. -/
inductive DraftNode
  | expr (e : ExprDraft)
  | stmt (s : StmtDraft)
  | function (decl : FunctionDraft)

/-- The expressions directly inside of an expression. -/
@[simp] def ExprDraft.parts : ExprDraft → List ExprDraft
  | .literal _ | .variable _ _ | .this _ _ | .super _ _ _ => []
  | .grouping inner => [inner]
  | .unary _ operand => [operand]
  | .binary left _ right => [left, right]
  | .logical left _ right => [left, right]
  | .ternary condition whenTrue whenFalse => [condition, whenTrue, whenFalse]
  | .assign _ _ value => [value]
  | .call callee _ arguments => callee :: arguments
  | .get object _ => [object]
  | .set object _ value => [object, value]

/-- The nodes directly inside of a statement. -/
@[simp] def StmtDraft.children : StmtDraft → List DraftNode
  | .expression e => [.expr e]
  | .variable _ initializer => initializer.toList.map .expr
  | .block body => body.map .stmt
  | .ifThen condition thenBranch => [.expr condition, .stmt thenBranch]
  | .ifElse condition thenBranch elseBranch =>
    [.expr condition, .stmt thenBranch, .stmt elseBranch]
  | .while condition body => [.expr condition, .stmt body]
  | .function decl => [.function decl]
  | .return _ value => value.toList.map .expr
  | .class _ superclass methods => superclass.toList.map .expr ++ methods.map .function

namespace DraftNode

/-- The nodes directly inside of a node. -/
def children : DraftNode → List DraftNode
  | expr e => e.parts.map expr
  | stmt s => s.children
  | function decl => decl.body.map stmt

/-- The nodes within a node, at any depth. -/
inductive Within : DraftNode → DraftNode → Prop
  | self (n : DraftNode) : Within n n
  | part {n part inner : DraftNode} (hpart : part ∈ n.children) (h : Within part inner) :
    Within n inner

/-- A statement is true of every node within a node. -/
def All (P : DraftNode → Prop) (n : DraftNode) : Prop :=
  ∀ m, n.Within m → P m

section All

variable {P P' : DraftNode → Prop} {n : DraftNode}

theorem all_iff : n.All P ↔ P n ∧ ∀ part ∈ n.children, part.All P := by
  constructor
  · exact fun h => ⟨h n (.self n), fun part hpart m hm => h m (.part hpart hm)⟩
  · rintro ⟨hself, hparts⟩ m (_ | ⟨hpart, hm⟩)
    · exact hself
    · exact hparts _ hpart m hm

theorem All.mono (h : n.All P) (hP : ∀ m, P m → P' m) : n.All P' :=
  fun m hm => hP m (h m hm)

end All

/-! ### What is asked of a node -/

/-- The marks of the operators with two operands: of arithmetic, of comparison and of equality. -/
def binaryMarks : List Mark :=
  [.plus, .minus, .star, .slash, .greater, .greaterEqual, .less, .lessEqual, .equalEqual, .bangEqual]

/-- Every operator is one of those of its kind of operation, and a superclass is a variable. -/
def HasShape : DraftNode → Prop
  | expr (.unary operator _) => operator.is (.mark .bang) ∨ operator.is (.mark .minus)
  | expr (.binary _ operator _) => ∃ m ∈ binaryMarks, operator.is (.mark m)
  | expr (.logical _ operator _) =>
    operator.is (.keyword .andWord) ∨ operator.is (.keyword .orWord)
  | stmt (.class _ (some superclass) _) => ∃ id name, superclass = .variable id name
  | _ => True

/-- The names that a node reads, assigns to or declares, those of properties among them. -/
def names : DraftNode → List Token
  | expr (.variable _ name) | expr (.assign _ name _) => [name]
  | expr (.get _ name) | expr (.set _ name _) => [name]
  | expr (.super _ _ method) => [method]
  | stmt (.variable name _) | stmt (.class name _ _) => [name]
  | function decl => decl.name :: decl.params
  | _ => []

/-- The fault of a list that is too long, and the length of the list, if the node is a call or a
declaration with parameters. -/
def list? : DraftNode → Option (SyntaxFault × Nat)
  | expr (.call _ _ arguments) => some (.tooManyArguments, arguments.length)
  | function decl => some (.tooManyParameters, decl.params.length)
  | _ => none

end DraftNode

end Treewalk
