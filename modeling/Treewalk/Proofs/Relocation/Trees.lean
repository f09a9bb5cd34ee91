import Treewalk.Proofs.Syntax.Numbering

/-!
# Relocated trees

A *relocation* moves node numbers and lines and leaves everything else of a tree as it is. Two texts
that differ in blanks have the same trees up to lines, and one text read twice gives the same trees
up to node numbers; so what does not depend on numbers and lines is what relocations preserve.

## Main definitions

* `Relocation`: where node numbers and lines go.
* `Token.relocate`, `Expr.relocate`, `Stmt.relocate`: relocated tokens and trees.

## Main results

* `Expr.relocate_comp`, `Stmt.relocate_comp`: one relocation after another.
* `Expr.relocate_eq_self`, `Stmt.relocate_eq_self`: a tree whose numbers and lines stay.
-/

namespace Treewalk

/-- Where node numbers and lines go. -/
structure Relocation where
  /-- Where a node number goes. -/
  id : Nat → Nat
  /-- Where a line goes. -/
  line : Nat → Nat

namespace Relocation

/-- Lines move, and node numbers stay. -/
def ofLine (f : Nat → Nat) : Relocation :=
  ⟨fun id => id, f⟩

/-- Node numbers move, and lines stay. -/
def ofId (f : Nat → Nat) : Relocation :=
  ⟨f, fun line => line⟩

/-- One relocation after another. -/
def comp (r r' : Relocation) : Relocation :=
  ⟨fun id => r.id (r'.id id), fun line => r.line (r'.line line)⟩

end Relocation

variable (r r' : Relocation)

/-- A token on another line. -/
def Token.relocate (t : Token) : Token :=
  { t with line := r.line t.line }

/-- A name on another line. -/
def Name.relocate (n : Name) : Name :=
  ⟨n.text, r.line n.line⟩

/-- A superclass with another number, on another line. -/
def Superclass.relocate (s : Superclass) : Superclass :=
  ⟨r.id s.id, s.name.relocate r⟩

mutual

/-- An expression whose numbers and lines have moved. -/
def Expr.relocate : Expr → Expr
  | .literal l => .literal l
  | .grouping inner => .grouping inner.relocate
  | .unary op line operand => .unary op (r.line line) operand.relocate
  | .binary op line left right => .binary op (r.line line) left.relocate right.relocate
  | .logical op line left right => .logical op (r.line line) left.relocate right.relocate
  | .ternary condition whenTrue whenFalse =>
    .ternary condition.relocate whenTrue.relocate whenFalse.relocate
  | .variable id name => .variable (r.id id) (name.relocate r)
  | .assign id name value => .assign (r.id id) (name.relocate r) value.relocate
  | .call callee line arguments =>
    .call callee.relocate (r.line line) (Expr.relocateAll arguments)
  | .get object name => .get object.relocate (name.relocate r)
  | .set object name value => .set object.relocate (name.relocate r) value.relocate
  | .this id line => .this (r.id id) (r.line line)
  | .super id line method => .super (r.id id) (r.line line) (method.relocate r)

/-- Expressions whose numbers and lines have moved. -/
def Expr.relocateAll : List Expr → List Expr
  | [] => []
  | e :: es => e.relocate :: Expr.relocateAll es

end

mutual

/-- A statement whose numbers and lines have moved. -/
def Stmt.relocate : Stmt → Stmt
  | .expression e => .expression (e.relocate r)
  | .variable name initializer =>
    .variable (name.relocate r) (initializer.map (Expr.relocate r))
  | .block body => .block (Stmt.relocateAll body)
  | .ifThen condition thenBranch => .ifThen (condition.relocate r) thenBranch.relocate
  | .ifElse condition thenBranch elseBranch =>
    .ifElse (condition.relocate r) thenBranch.relocate elseBranch.relocate
  | .while condition body => .while (condition.relocate r) body.relocate
  | .function decl => .function decl.relocate
  | .return line value => .return (r.line line) (value.map (Expr.relocate r))
  | .class name superclass methods =>
    .class (name.relocate r) (superclass.map (Superclass.relocate r)) (Stmt.relocateMethods methods)

/-- Statements whose numbers and lines have moved. -/
def Stmt.relocateAll : List Stmt → List Stmt
  | [] => []
  | s :: ss => s.relocate :: Stmt.relocateAll ss

/-- A function declaration whose numbers and lines have moved. -/
def FunctionDecl.relocate : FunctionDecl → FunctionDecl
  | ⟨name, params, body⟩ =>
    ⟨name.relocate r, params.map (Name.relocate r), Stmt.relocateAll body⟩

/-- Methods whose numbers and lines have moved. -/
def Stmt.relocateMethods : List FunctionDecl → List FunctionDecl
  | [] => []
  | m :: ms => m.relocate :: Stmt.relocateMethods ms

end

/-! ### What stays -/

@[simp] theorem Token.kind_relocate (t : Token) : (t.relocate r).kind = t.kind :=
  rfl

@[simp] theorem Token.is_relocate (t : Token) (kind : TokenKind) :
    (t.relocate r).is kind = t.is kind :=
  rfl

@[simp] theorem Token.toName_relocate (t : Token) :
    (t.relocate r).toName = t.toName.relocate r :=
  rfl

@[simp] theorem Name.text_relocate (n : Name) : (n.relocate r).text = n.text :=
  rfl

@[simp] theorem Expr.relocateAll_eq_map (es : List Expr) :
    Expr.relocateAll r es = es.map (Expr.relocate r) := by
  induction es with
  | nil => rfl
  | cons e es ih => rw [Expr.relocateAll, ih, List.map_cons]

@[simp] theorem Stmt.relocateAll_eq_map (ss : List Stmt) :
    Stmt.relocateAll r ss = ss.map (Stmt.relocate r) := by
  induction ss with
  | nil => rfl
  | cons s ss ih => rw [Stmt.relocateAll, ih, List.map_cons]

@[simp] theorem Stmt.relocateMethods_eq_map (ms : List FunctionDecl) :
    Stmt.relocateMethods r ms = ms.map (FunctionDecl.relocate r) := by
  induction ms with
  | nil => rfl
  | cons m ms ih => rw [Stmt.relocateMethods, ih, List.map_cons]

theorem FunctionDecl.name_relocate (d : FunctionDecl) :
    (d.relocate r).name = d.name.relocate r := by
  cases d
  rfl

theorem FunctionDecl.params_relocate (d : FunctionDecl) :
    (d.relocate r).params = d.params.map (Name.relocate r) := by
  cases d
  rfl

theorem FunctionDecl.body_relocate (d : FunctionDecl) :
    (d.relocate r).body = d.body.map (Stmt.relocate r) := by
  cases d
  simp [FunctionDecl.relocate]

@[simp] theorem FunctionDecl.arity_relocate (d : FunctionDecl) :
    (d.relocate r).arity = d.arity := by
  simp [FunctionDecl.arity, FunctionDecl.params_relocate]

/-! ### One relocation after another -/

theorem Name.relocate_comp (n : Name) : (n.relocate r').relocate r = n.relocate (r.comp r') :=
  rfl

theorem Superclass.relocate_comp (s : Superclass) :
    (s.relocate r').relocate r = s.relocate (r.comp r') :=
  rfl

mutual

/-- One relocation of an expression after another. -/
theorem Expr.relocate_comp : (e : Expr) → (e.relocate r').relocate r = e.relocate (r.comp r')
  | .literal _ => rfl
  | .grouping inner => congrArg Expr.grouping inner.relocate_comp
  | .unary _ _ operand => congrArg (Expr.unary _ _) operand.relocate_comp
  | .binary _ _ left right => congrArg₂ (Expr.binary _ _) left.relocate_comp right.relocate_comp
  | .logical _ _ left right => congrArg₂ (Expr.logical _ _) left.relocate_comp right.relocate_comp
  | .ternary condition whenTrue whenFalse => by
    simp only [Expr.relocate, condition.relocate_comp, whenTrue.relocate_comp,
      whenFalse.relocate_comp]
  | .variable _ _ => rfl
  | .assign _ _ value => congrArg (Expr.assign _ _) value.relocate_comp
  | .call callee line arguments => by
    simp only [Expr.relocate, callee.relocate_comp, Expr.relocateAll_comp arguments,
      Relocation.comp]
  | .get object _ => congrArg (Expr.get · _) object.relocate_comp
  | .set object name value => by
    simp only [Expr.relocate, object.relocate_comp, value.relocate_comp, name.relocate_comp]
  | .this _ _ => rfl
  | .super _ _ _ => rfl

theorem Expr.relocateAll_comp : (es : List Expr) →
    Expr.relocateAll r (Expr.relocateAll r' es) = Expr.relocateAll (r.comp r') es
  | [] => rfl
  | e :: es => congrArg₂ List.cons e.relocate_comp (Expr.relocateAll_comp es)

end

mutual

/-- One relocation of a statement after another. -/
theorem Stmt.relocate_comp : (s : Stmt) → (s.relocate r').relocate r = s.relocate (r.comp r')
  | .expression e => congrArg Stmt.expression (e.relocate_comp r r')
  | .variable name none => rfl
  | .variable name (some e) => congrArg (fun e => Stmt.variable _ (some e)) (e.relocate_comp r r')
  | .block body => congrArg Stmt.block (Stmt.relocateAll_comp body)
  | .ifThen condition thenBranch =>
    congrArg₂ Stmt.ifThen (condition.relocate_comp r r') thenBranch.relocate_comp
  | .ifElse condition thenBranch elseBranch => by
    simp only [Stmt.relocate, condition.relocate_comp, thenBranch.relocate_comp,
      elseBranch.relocate_comp]
  | .while condition body =>
    congrArg₂ Stmt.while (condition.relocate_comp r r') body.relocate_comp
  | .function decl => congrArg Stmt.function decl.relocate_comp
  | .return line none => rfl
  | .return line (some e) => congrArg (fun e => Stmt.return _ (some e)) (e.relocate_comp r r')
  | .class _ none methods => congrArg (Stmt.class _ none) (Stmt.relocateMethods_comp methods)
  | .class _ (some _) methods =>
    congrArg (Stmt.class _ (some _)) (Stmt.relocateMethods_comp methods)

theorem Stmt.relocateAll_comp : (ss : List Stmt) →
    Stmt.relocateAll r (Stmt.relocateAll r' ss) = Stmt.relocateAll (r.comp r') ss
  | [] => rfl
  | s :: ss => congrArg₂ List.cons s.relocate_comp (Stmt.relocateAll_comp ss)

theorem FunctionDecl.relocate_comp : (d : FunctionDecl) →
    (d.relocate r').relocate r = d.relocate (r.comp r')
  | ⟨name, params, body⟩ => by
    simp only [FunctionDecl.relocate, Stmt.relocateAll_comp body, List.map_map]
    rfl

theorem Stmt.relocateMethods_comp : (ms : List FunctionDecl) →
    Stmt.relocateMethods r (Stmt.relocateMethods r' ms) = Stmt.relocateMethods (r.comp r') ms
  | [] => rfl
  | m :: ms => congrArg₂ List.cons m.relocate_comp (Stmt.relocateMethods_comp ms)

end

/-! ### Trees that stay -/

/-- Every line stays. -/
abbrev Relocation.KeepsLines : Prop :=
  ∀ line, r.line line = line

section

variable {r}

theorem Token.relocate_eq_id (hr : r.KeepsLines) : Token.relocate r = id := by
  funext t
  rw [Token.relocate, hr, id]

theorem Name.relocate_eq_self (hr : r.KeepsLines) (n : Name) : n.relocate r = n := by
  rw [Name.relocate, hr]

theorem Name.relocateAll_eq_self (hr : r.KeepsLines) (ns : List Name) :
    ns.map (Name.relocate r) = ns :=
  (List.map_congr_left fun n _ => n.relocate_eq_self hr).trans (List.map_id ns)

mutual

/-- An expression whose numbers and lines stay is itself. -/
theorem Expr.relocate_eq_self (hr : r.KeepsLines) :
    (e : Expr) → (∀ id ∈ e.ids, r.id id = id) → e.relocate r = e
  | .literal _, _ => rfl
  | .grouping inner, h => congrArg Expr.grouping (inner.relocate_eq_self hr h)
  | .unary op line operand, h => by
    rw [Expr.relocate, hr, operand.relocate_eq_self hr h]
  | .binary op line left right, h => by
    rw [Expr.ids, List.forall_mem_append] at h
    rw [Expr.relocate, hr, left.relocate_eq_self hr h.1, right.relocate_eq_self hr h.2]
  | .logical op line left right, h => by
    rw [Expr.ids, List.forall_mem_append] at h
    rw [Expr.relocate, hr, left.relocate_eq_self hr h.1, right.relocate_eq_self hr h.2]
  | .ternary condition whenTrue whenFalse, h => by
    rw [Expr.ids, List.forall_mem_append, List.forall_mem_append] at h
    rw [Expr.relocate, condition.relocate_eq_self hr h.1.1, whenTrue.relocate_eq_self hr h.1.2,
      whenFalse.relocate_eq_self hr h.2]
  | .variable id name, h => by
    rw [Expr.relocate, h id List.mem_cons_self, name.relocate_eq_self hr]
  | .assign id name value, h => by
    rw [Expr.ids, List.forall_mem_cons] at h
    rw [Expr.relocate, h.1, name.relocate_eq_self hr, value.relocate_eq_self hr h.2]
  | .call callee line arguments, h => by
    rw [Expr.ids, List.forall_mem_append] at h
    rw [Expr.relocate, hr, callee.relocate_eq_self hr h.1,
      Expr.relocateAll_eq_self hr arguments h.2]
  | .get object name, h => by
    rw [Expr.relocate, object.relocate_eq_self hr h, name.relocate_eq_self hr]
  | .set object name value, h => by
    rw [Expr.ids, List.forall_mem_append] at h
    rw [Expr.relocate, object.relocate_eq_self hr h.1, name.relocate_eq_self hr,
      value.relocate_eq_self hr h.2]
  | .this id line, h => by
    rw [Expr.relocate, h id List.mem_cons_self, hr]
  | .super id line method, h => by
    rw [Expr.relocate, h id List.mem_cons_self, hr, method.relocate_eq_self hr]

theorem Expr.relocateAll_eq_self (hr : r.KeepsLines) :
    (es : List Expr) → (∀ id ∈ Expr.idsAll es, r.id id = id) → Expr.relocateAll r es = es
  | [], _ => rfl
  | e :: es, h => by
    rw [Expr.idsAll, List.forall_mem_append] at h
    rw [Expr.relocateAll, e.relocate_eq_self hr h.1, Expr.relocateAll_eq_self hr es h.2]

end

theorem Expr.relocateOf_eq_self (hr : r.KeepsLines) (e : Option Expr)
    (h : ∀ id ∈ Expr.idsOf e, r.id id = id) :
    e.map (Expr.relocate r) = e := by
  cases e with
  | none => rfl
  | some e => exact congrArg some (e.relocate_eq_self hr h)

theorem Superclass.relocateOf_eq_self (hr : r.KeepsLines)
    (s : Option Superclass) (h : ∀ id ∈ Superclass.idsOf s, r.id id = id) :
    s.map (Superclass.relocate r) = s := by
  cases s with
  | none => rfl
  | some s =>
    rw [Option.map_some, Superclass.relocate, h s.id List.mem_cons_self,
      s.name.relocate_eq_self hr]

mutual

/-- A statement whose numbers and lines stay is itself. -/
theorem Stmt.relocate_eq_self (hr : r.KeepsLines) :
    (s : Stmt) → (∀ id ∈ s.ids, r.id id = id) → s.relocate r = s
  | .expression e, h => congrArg Stmt.expression (e.relocate_eq_self hr h)
  | .variable name initializer, h => by
    rw [Stmt.relocate, name.relocate_eq_self hr, Expr.relocateOf_eq_self hr initializer h]
  | .block body, h => congrArg Stmt.block (Stmt.relocateAll_eq_self hr body h)
  | .ifThen condition thenBranch, h => by
    rw [Stmt.ids, List.forall_mem_append] at h
    rw [Stmt.relocate, condition.relocate_eq_self hr h.1, thenBranch.relocate_eq_self hr h.2]
  | .ifElse condition thenBranch elseBranch, h => by
    rw [Stmt.ids, List.forall_mem_append, List.forall_mem_append] at h
    rw [Stmt.relocate, condition.relocate_eq_self hr h.1.1,
      thenBranch.relocate_eq_self hr h.1.2,
      elseBranch.relocate_eq_self hr h.2]
  | .while condition body, h => by
    rw [Stmt.ids, List.forall_mem_append] at h
    rw [Stmt.relocate, condition.relocate_eq_self hr h.1, body.relocate_eq_self hr h.2]
  | .function decl, h => congrArg Stmt.function (decl.relocate_eq_self hr h)
  | .return line value, h => by
    rw [Stmt.relocate, hr, Expr.relocateOf_eq_self hr value h]
  | .class name superclass methods, h => by
    rw [Stmt.ids, List.forall_mem_append] at h
    rw [Stmt.relocate, name.relocate_eq_self hr,
      Superclass.relocateOf_eq_self hr superclass h.1, Stmt.relocateMethods_eq_self hr methods h.2]

theorem Stmt.relocateAll_eq_self (hr : r.KeepsLines) :
    (ss : List Stmt) → (∀ id ∈ Stmt.idsAll ss, r.id id = id) → Stmt.relocateAll r ss = ss
  | [], _ => rfl
  | s :: ss, h => by
    rw [Stmt.idsAll, List.forall_mem_append] at h
    rw [Stmt.relocateAll, s.relocate_eq_self hr h.1, Stmt.relocateAll_eq_self hr ss h.2]

/-- A function declaration whose numbers and lines stay is itself. -/
theorem FunctionDecl.relocate_eq_self (hr : r.KeepsLines) :
    (d : FunctionDecl) → (∀ id ∈ d.ids, r.id id = id) → d.relocate r = d
  | ⟨name, params, body⟩, h => by
    rw [FunctionDecl.relocate, name.relocate_eq_self hr, Name.relocateAll_eq_self hr params,
      Stmt.relocateAll_eq_self hr body h]

theorem Stmt.relocateMethods_eq_self (hr : r.KeepsLines) : (ms : List FunctionDecl) →
    (∀ id ∈ Stmt.methodIds ms, r.id id = id) → Stmt.relocateMethods r ms = ms
  | [], _ => rfl
  | m :: ms, h => by
    rw [Stmt.methodIds, List.forall_mem_append] at h
    rw [Stmt.relocateMethods, m.relocate_eq_self hr h.1, Stmt.relocateMethods_eq_self hr ms h.2]

end

end

end Treewalk
