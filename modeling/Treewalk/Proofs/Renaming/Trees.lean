import Treewalk.Machine
import Treewalk.Proofs.Scope.Rules

/-!
# Programs with a local name renamed

A local scope is renamed if one name that it declares by `var` or as a parameter is replaced by another
one, in its declaration and in all occurrences that are bound to that scope. An occurrence is bound to
the scope that its recorded distance leads to, so an occurrence of the old name before the declaration,
or further in where the name is declared again, keeps its name.

While a program is traversed, a tree has the renamed scope around it, at a known number of scopes
outward, or in it, or it is apart from it. Programs are related by going down both of them at once.

## Main definitions

* `Renaming`: two programs, the distances of the first one, and two names.
* `Region`: where a tree stands to the renamed scope.
* `Expr.rename`: an expression with a renamed scope around it.
* `Stmt.Renamed`, `Stmt.RenamedAll`: statements after a renaming.
* `Renaming.IsLocal`: renamings of one local name to a new one.
* `RuntimeError.Renamed`: a fault of the program and that of the renamed program.
-/

namespace Treewalk

/-- A program before and after a name is replaced in it. -/
structure Renaming where
  /-- The program before. -/
  before : List Stmt
  /-- The program after. -/
  after : List Stmt
  /-- The distances that are recorded for the program. -/
  distances : Distances
  /-- The name that is replaced. -/
  old : String
  /-- The name that replaces it. -/
  new : String

/-- Where a tree stands to the renamed scope. -/
inductive Region
  /-- The renamed scope is neither around the tree nor in it. -/
  | apart
  /-- The renamed scope is in the tree. -/
  | around
  /-- The renamed scope is so many scopes outward. -/
  | within (depth : Nat)

namespace Region

/-- How many scopes outward the renamed scope is, if it is around the tree. -/
def depth : Region → Option Nat
  | within depth => some depth
  | _ => none

/-- What stands one scope further in. -/
def deepen : Region → Region
  | within depth => within (depth + 1)
  | g => g

@[simp] theorem depth_deepen (g : Region) : g.deepen.depth = g.depth.map (· + 1) := by
  cases g <;> rfl

/-- A scope is opened: it is either the renamed one, or it stands to that as what is around it. -/
inductive Opens (declares : Prop) : Region → Region → Prop
  | other (g : Region) : Opens declares g g.deepen
  | renamed (h : declares) : Opens declares .around (.within 0)

/-- The renamed scope is in one of two parts of what it is in. -/
inductive Splits : Region → Region → Region → Prop
  | left : Splits .around .around .apart
  | right : Splits .around .apart .around
  | both {g : Region} (h : g ≠ .around) : Splits g g g

theorem Splits.depth_left {g g₁ g₂ : Region} (h : g.Splits g₁ g₂) : g₁.depth = g.depth := by
  cases h <;> rfl

theorem Splits.depth_right {g g₁ g₂ : Region} (h : g.Splits g₁ g₂) : g₂.depth = g.depth := by
  cases h <;> rfl

end Region

/-! ### Names -/

namespace Renaming

variable (r : Renaming)

/-- The name of an occurrence: it is replaced if its distance leads to the renamed scope. -/
def occurrence (depth : Option Nat) (id : Nat) (name : Name) : Name :=
  if name.text = r.old ∧ depth.isSome ∧ r.distances.get? id = depth then { name with text := r.new }
  else name

/-- The name of a declaration: it is replaced in the renamed scope. -/
def declaration (depth : Option Nat) (name : Name) : Name :=
  if depth = some 0 ∧ name.text = r.old then { name with text := r.new } else name

@[simp] theorem line_occurrence (depth : Option Nat) (id : Nat) (name : Name) :
    (r.occurrence depth id name).line = name.line := by
  unfold occurrence
  split <;> rfl

end Renaming

/-! ### Expressions -/

mutual

/-- An expression with the renamed scope so many scopes outward, if it is around the expression. -/
def Expr.rename (r : Renaming) (depth : Option Nat) : Expr → Expr
  | .literal l => .literal l
  | .grouping inner => .grouping (inner.rename r depth)
  | .unary op line operand => .unary op line (operand.rename r depth)
  | .binary op line left right => .binary op line (left.rename r depth) (right.rename r depth)
  | .logical op line left right => .logical op line (left.rename r depth) (right.rename r depth)
  | .ternary condition whenTrue whenFalse =>
    .ternary (condition.rename r depth) (whenTrue.rename r depth) (whenFalse.rename r depth)
  | .variable id name => .variable id (r.occurrence depth id name)
  | .assign id name value => .assign id (r.occurrence depth id name) (value.rename r depth)
  | .call callee line arguments =>
    .call (callee.rename r depth) line (Expr.renameAll r depth arguments)
  | .get object name => .get (object.rename r depth) name
  | .set object name value => .set (object.rename r depth) name (value.rename r depth)
  | .this id line => .this id line
  | .super id line method => .super id line method

/-- Expressions with the renamed scope around them. -/
def Expr.renameAll (r : Renaming) (depth : Option Nat) : List Expr → List Expr
  | [] => []
  | e :: es => e.rename r depth :: Expr.renameAll r depth es

end

theorem Expr.renameAll_eq_map (r : Renaming) (depth : Option Nat) (es : List Expr) :
    Expr.renameAll r depth es = es.map (Expr.rename r depth) := by
  induction es with
  | nil => rfl
  | cons e es ih => rw [Expr.renameAll, ih, List.map_cons]

/-- A superclass with the renamed scope around it. -/
def Superclass.rename (r : Renaming) (depth : Option Nat) (s : Superclass) : Superclass :=
  { s with name := r.occurrence depth s.id s.name }

theorem Superclass.expr_rename (r : Renaming) (depth : Option Nat) (s : Superclass) :
    (s.rename r depth).expr = s.expr.rename r depth :=
  rfl

/-! ### Statements -/

/-- Where the methods of a class stand: inside of the scope of `this` and, with a superclass, of that of
`super`. -/
def Region.inClass (g : Region) (superclass : Option Superclass) : Region :=
  superclass.elim g.deepen fun _ => g.deepen.deepen

mutual

/-- A statement before and after the renaming. In the renamed scope the old name is neither that of a
function nor of a class. -/
inductive Stmt.Renamed (r : Renaming) : Region → Stmt → Stmt → Prop
  | expression {g : Region} (e : Expr) (hg : g ≠ .around) :
    Stmt.Renamed r g (.expression e) (.expression (e.rename r g.depth))
  | variable {g : Region} (name : Name) (initializer : Option Expr) (hg : g ≠ .around) :
    Stmt.Renamed r g (.variable name initializer)
      (.variable (r.declaration g.depth name) (initializer.map (Expr.rename r g.depth)))
  | block {g inner : Region} {body body' : List Stmt}
      (hopens : g.Opens (r.old ∈ (Node.stmt (.block body)).declared.map Name.text) inner)
      (hbody : Stmt.RenamedAll r inner body body') :
    Stmt.Renamed r g (.block body) (.block body')
  | ifThen {g : Region} (condition : Expr) {thenBranch thenBranch' : Stmt}
      (hthen : Stmt.Renamed r g thenBranch thenBranch') :
    Stmt.Renamed r g (.ifThen condition thenBranch)
      (.ifThen (condition.rename r g.depth) thenBranch')
  | ifElse {g g₁ g₂ : Region} (condition : Expr)
      {thenBranch thenBranch' elseBranch elseBranch' : Stmt} (hsplits : g.Splits g₁ g₂)
      (hthen : Stmt.Renamed r g₁ thenBranch thenBranch')
      (helse : Stmt.Renamed r g₂ elseBranch elseBranch') :
    Stmt.Renamed r g (.ifElse condition thenBranch elseBranch)
      (.ifElse (condition.rename r g.depth) thenBranch' elseBranch')
  | while {g : Region} (condition : Expr) {body body' : Stmt}
      (hbody : Stmt.Renamed r g body body') :
    Stmt.Renamed r g (.while condition body) (.while (condition.rename r g.depth) body')
  | function {g : Region} {decl decl' : FunctionDecl}
      (hkept : g.depth = some 0 → decl.name.text ≠ r.old)
      (hdecl : FunctionDecl.Renamed r g decl decl') :
    Stmt.Renamed r g (.function decl) (.function decl')
  | return {g : Region} (line : Nat) (value : Option Expr) (hg : g ≠ .around) :
    Stmt.Renamed r g (.return line value) (.return line (value.map (Expr.rename r g.depth)))
  | class {g : Region} (name : Name) (superclass : Option Superclass)
      {methods methods' : List FunctionDecl} (hkept : g.depth = some 0 → name.text ≠ r.old)
      (hmethods : Stmt.RenamedMethods r (g.inClass superclass) methods methods') :
    Stmt.Renamed r g (.class name superclass methods)
      (.class name (superclass.map (Superclass.rename r g.depth)) methods')

/-- Statements in order before and after the renaming. -/
inductive Stmt.RenamedAll (r : Renaming) : Region → List Stmt → List Stmt → Prop
  | nil {g : Region} (hg : g ≠ .around) : Stmt.RenamedAll r g [] []
  | cons {g g₁ g₂ : Region} {s s' : Stmt} {ss ss' : List Stmt} (hsplits : g.Splits g₁ g₂)
      (hs : Stmt.Renamed r g₁ s s') (hss : Stmt.RenamedAll r g₂ ss ss') :
    Stmt.RenamedAll r g (s :: ss) (s' :: ss')

/-- A function before and after the renaming. -/
inductive FunctionDecl.Renamed (r : Renaming) : Region → FunctionDecl → FunctionDecl → Prop
  | intro {g inner : Region} (name : Name) (params : List Name) {body body' : List Stmt}
      (hopens : g.Opens (r.old ∈ (Node.routine ⟨name, params, body⟩).declared.map Name.text) inner)
      (hbody : Stmt.RenamedAll r inner body body') :
    FunctionDecl.Renamed r g ⟨name, params, body⟩
      ⟨name, params.map (r.declaration inner.depth), body'⟩

/-- Methods before and after the renaming. -/
inductive Stmt.RenamedMethods (r : Renaming) :
    Region → List FunctionDecl → List FunctionDecl → Prop
  | nil {g : Region} (hg : g ≠ .around) : Stmt.RenamedMethods r g [] []
  | cons {g g₁ g₂ : Region} {m m' : FunctionDecl} {ms ms' : List FunctionDecl}
      (hsplits : g.Splits g₁ g₂) (hm : FunctionDecl.Renamed r g₁ m m')
      (hms : Stmt.RenamedMethods r g₂ ms ms') : Stmt.RenamedMethods r g (m :: ms) (m' :: ms')

end

theorem FunctionDecl.Renamed.name_eq {r : Renaming} {g : Region} {decl decl' : FunctionDecl}
    (h : decl.Renamed r g decl') : decl'.name = decl.name := by
  cases h
  rfl

theorem FunctionDecl.Renamed.arity_eq {r : Renaming} {g : Region} {decl decl' : FunctionDecl}
    (h : decl.Renamed r g decl') : decl'.arity = decl.arity := by
  cases h
  exact List.length_map _

/-- The names that a node declares or refers to. -/
def Node.words : Node → List String
  | .expr e => (e.occurrence?.map (·.2)).toList
  | .stmt s => s.declared.map Name.text
  | .routine decl => decl.params.map Name.text

/-- The only name of a declaration is not a word that is not declared. -/
theorem Name.text_ne_of_not_mem {name : Name} {word : String} (h : word ∉ [name].map Name.text) :
    name.text ≠ word :=
  fun heq => h (List.mem_singleton.mpr heq.symm)

/-- A word that a program neither declares nor refers to. -/
def Foreign (body : List Stmt) (word : String) : Prop :=
  ∀ {above node}, Occurs body above node → word ∉ node.words

/-- A list with the statements of a program that is closed under parts has every node of it. -/
theorem Occurs.mem_of_closed {body : List Stmt} {nodes : List Node}
    (hbody : ∀ s ∈ body, Node.stmt s ∈ nodes)
    (hclosed : ∀ node ∈ nodes, ∀ inner ∈ node.children, inner ∈ nodes) {above : List Node}
    {node : Node} (h : Occurs body above node) : node ∈ nodes := by
  induction h with
  | statement hs => exact hbody _ hs
  | child _ hinner ih => exact hclosed _ ih _ hinner

/-- The renaming of one local name, declared by `var` or as a parameter, to a name that the program
neither declares nor refers to. Both names are no reserved words. -/
structure Renaming.IsLocal (r : Renaming) : Prop where
  renamed : Stmt.RenamedAll r .around r.before r.after
  fresh : Foreign r.before r.new
  oldFree : Keyword.ofText? r.old = none
  newFree : Keyword.ofText? r.new = none

/-! ### Faults -/

/-- The number and the name of an expression that is an occurrence of a variable. -/
def Expr.named? : Expr → Option (Nat × Name)
  | .variable id name => some (id, name)
  | .assign id name _ => some (id, name)
  | _ => none

/-- The occurrence with a number has a name in a program. -/
def NamedAt (body : List Stmt) (id : Nat) (name : Name) : Prop :=
  ∃ above e, Occurs body above (.expr e) ∧ e.named? = some (id, name)

/-- The variable that a fault is about. -/
def RuntimeFault.variable? : RuntimeFault → Option String
  | .undefinedVariable name => some name
  | .unassignedVariable name => some name
  | _ => none

/-- A fault before and after the renaming. It is the same on the same line, but if it is about a variable
with the old name, it tells the name that the same occurrence has after the renaming. -/
inductive RuntimeError.Renamed (r : Renaming) : RuntimeError → RuntimeError → Prop
  | other {e : RuntimeError} (h : e.fault.variable? ≠ some r.old) : RuntimeError.Renamed r e e
  | undefined {id : Nat} {name name' : Name} (hbefore : NamedAt r.before id name)
      (hafter : NamedAt r.after id name') :
    RuntimeError.Renamed r ⟨.undefinedVariable name.text, name.line⟩
      ⟨.undefinedVariable name'.text, name.line⟩
  | unassigned {id : Nat} {name name' : Name} (hbefore : NamedAt r.before id name)
      (hafter : NamedAt r.after id name') :
    RuntimeError.Renamed r ⟨.unassignedVariable name.text, name.line⟩
      ⟨.unassignedVariable name'.text, name.line⟩

end Treewalk
