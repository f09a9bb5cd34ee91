import Treewalk.Machine
import Treewalk.Proofs.Relocation.Trees

/-!
# Scopes of relocated programs

The walk that finds the scopes of names sees neither lines nor node numbers. So what it finds out
about a relocated program is what it finds out about the program itself, at the places and numbers
that these have moved to.

## Main definitions

* `Finding.relocate`: what is found out, at another place.
* `Distances.Moved`: the distances of nodes whose numbers have moved.

## Main results

* `programFindings_relocate`: the findings of a relocated program.
* `Distances.Moved.recordAll`: the distances that are recorded for it.
-/

namespace Treewalk

variable (r : Relocation)

/-- A broken rule at a word on another line. -/
def ScopeError.relocate (e : ScopeError) : ScopeError :=
  ⟨e.found.relocate r, e.fault⟩

/-- What is found out, at another place. -/
def Finding.relocate : Finding → Finding
  | .distance id hops => .distance (r.id id) hops
  | .broken e => .broken (e.relocate r)

variable {r}

theorem ScopeError.relocate_eq_id (hr : r.KeepsLines) : ScopeError.relocate r = id := by
  funext e
  rw [ScopeError.relocate, e.found.relocate_eq_self hr, id]

/-! ### Declarations and occurrences -/

theorem Scopes.occurrence_relocate (scopes : Scopes) (id : Nat) (name : String) :
    scopes.occurrence (r.id id) name = (scopes.occurrence id name).map (Finding.relocate r) := by
  unfold Scopes.occurrence
  split <;> rfl

theorem Scopes.declaration_relocate (scopes : Scopes) (name : Name) :
    scopes.declaration (name.relocate r) = (scopes.declaration name).map (Finding.relocate r) := by
  unfold Scopes.declaration
  rw [Name.text_relocate]
  split <;> rfl

@[simp] theorem Scopes.declare_relocate (scopes : Scopes) (name : Name) :
    scopes.declare (name.relocate r) = scopes.declare name :=
  rfl

@[simp] theorem Scopes.define_relocate (scopes : Scopes) (name : Name) :
    scopes.define (name.relocate r) = scopes.define name :=
  rfl

/-! ### Expressions -/

mutual

theorem Expr.findings_relocate (cls : EnclosingClass) (scopes : Scopes) : (e : Expr) →
    (e.relocate r).findings cls scopes = (e.findings cls scopes).map (Finding.relocate r)
  | .literal _ => rfl
  | .grouping inner => inner.findings_relocate cls scopes
  | .unary _ _ operand => operand.findings_relocate cls scopes
  | .binary _ _ left right => by
    rw [Expr.relocate, Expr.findings, Expr.findings, List.map_append, left.findings_relocate,
      right.findings_relocate]
  | .logical _ _ left right => by
    rw [Expr.relocate, Expr.findings, Expr.findings, List.map_append, left.findings_relocate,
      right.findings_relocate]
  | .ternary condition whenTrue whenFalse => by
    rw [Expr.relocate, Expr.findings, Expr.findings, List.map_append, List.map_append,
      condition.findings_relocate, whenTrue.findings_relocate, whenFalse.findings_relocate]
  | .variable id name => by
    rw [Expr.relocate, Expr.findings, Expr.findings, List.map_append, Name.text_relocate,
      Scopes.occurrence_relocate]
    split <;> rfl
  | .assign id name value => by
    rw [Expr.relocate, Expr.findings, Expr.findings, List.map_append, Name.text_relocate,
      Scopes.occurrence_relocate, value.findings_relocate]
  | .call callee _ arguments => by
    rw [Expr.relocate, Expr.findings, Expr.findings, List.map_append, callee.findings_relocate,
      Expr.findingsAll_relocate cls scopes arguments]
  | .get object _ => object.findings_relocate cls scopes
  | .set object _ value => by
    rw [Expr.relocate, Expr.findings, Expr.findings, List.map_append, object.findings_relocate,
      value.findings_relocate]
  | .this id line => by
    cases cls with
    | nothing => rfl
    | base => exact Scopes.occurrence_relocate scopes id "this"
    | derived => exact Scopes.occurrence_relocate scopes id "this"
  | .super id line _ => by
    cases cls with
    | nothing => rfl
    | base => rfl
    | derived => exact Scopes.occurrence_relocate scopes id "super"

theorem Expr.findingsAll_relocate (cls : EnclosingClass) (scopes : Scopes) : (es : List Expr) →
    Expr.findingsAll cls scopes (Expr.relocateAll r es) =
      (Expr.findingsAll cls scopes es).map (Finding.relocate r)
  | [] => rfl
  | e :: es => by
    rw [Expr.relocateAll, Expr.findingsAll, Expr.findingsAll, List.map_append,
      e.findings_relocate, Expr.findingsAll_relocate cls scopes es]

end

theorem Expr.findingsOf_relocate (cls : EnclosingClass) (scopes : Scopes) (e : Option Expr) :
    Expr.findingsOf cls scopes (e.map (Expr.relocate r)) =
      (Expr.findingsOf cls scopes e).map (Finding.relocate r) := by
  cases e with
  | none => rfl
  | some e => exact e.findings_relocate cls scopes

/-! ### Statements -/

theorem returnFindings_relocate (context : Context) (scopes : Scopes) (line : Nat)
    (value : Option Expr) : returnFindings context scopes (r.line line)
        (value.map (Expr.relocate r)) =
      (returnFindings context scopes line value).map (Finding.relocate r) := by
  unfold returnFindings
  rw [List.map_append, List.map_append, Expr.findingsOf_relocate, Option.isSome_map]
  split <;> split <;> rfl

theorem superclassFindings_relocate (name : Name) (scopes : Scopes) (s : Superclass) :
    superclassFindings (name.relocate r) scopes (s.relocate r) =
      (superclassFindings name scopes s).map (Finding.relocate r) := by
  unfold superclassFindings
  rw [List.map_append, ← Expr.findings_relocate]
  congr 1
  rw [Superclass.relocate, Name.text_relocate, Name.text_relocate]
  split <;> rfl

theorem parameterFindings_relocate (scopes : Scopes) (params : List Name) :
    parameterFindings scopes (params.map (Name.relocate r)) =
      ((parameterFindings scopes params).1.map (Finding.relocate r),
        (parameterFindings scopes params).2) := by
  induction params generalizing scopes with
  | nil => rfl
  | cons p ps ih =>
    rw [List.map_cons, parameterFindings, parameterFindings, Scopes.declare_relocate,
      Scopes.define_relocate, ih, Scopes.declaration_relocate, List.map_append]

/-- Findings that have moved, with the scopes after them. -/
abbrev movedFindings (r : Relocation) (found : List Finding × Scopes) : List Finding × Scopes :=
  (found.1.map (Finding.relocate r), found.2)

mutual

theorem Stmt.findings_relocate (context : Context) (scopes : Scopes) : (s : Stmt) →
    (s.relocate r).findings context scopes = movedFindings r (s.findings context scopes)
  | .expression e => by
    rw [Stmt.relocate, Stmt.findings, Stmt.findings, e.findings_relocate]
  | .variable name initializer => by
    simp only [Stmt.relocate, Stmt.findings, Scopes.declare_relocate, Scopes.define_relocate,
      Scopes.declaration_relocate, Expr.findingsOf_relocate, movedFindings, List.map_append]
  | .block body => by
    rw [Stmt.relocate, Stmt.findings, Stmt.findings, Stmt.findingsAll_relocate context _ body]
  | .ifThen condition thenBranch => by
    simp only [Stmt.relocate, Stmt.findings, condition.findings_relocate,
      thenBranch.findings_relocate context scopes, movedFindings, List.map_append]
  | .ifElse condition thenBranch elseBranch => by
    simp only [Stmt.relocate, Stmt.findings, condition.findings_relocate,
      thenBranch.findings_relocate context scopes, elseBranch.findings_relocate context _,
      movedFindings, List.map_append]
  | .while condition body => by
    simp only [Stmt.relocate, Stmt.findings, condition.findings_relocate,
      body.findings_relocate context scopes, movedFindings, List.map_append]
  | .function decl => by
    simp only [Stmt.relocate, Stmt.findings, FunctionDecl.name_relocate, Scopes.declare_relocate,
      Scopes.define_relocate, Scopes.declaration_relocate, decl.findings_relocate, movedFindings,
      List.map_append]
  | .return line value => by
    rw [Stmt.relocate, Stmt.findings, Stmt.findings, returnFindings_relocate]
  | .class name none methods => by
    simp only [Stmt.relocate, Option.map_none, Stmt.findings, Scopes.declare_relocate,
      Scopes.define_relocate, Scopes.declaration_relocate,
      Stmt.methodFindings_relocate _ _ methods, movedFindings, List.map_append]
  | .class name (some s) methods => by
    simp only [Stmt.relocate, Option.map_some, Stmt.findings, Scopes.declare_relocate,
      Scopes.define_relocate, Scopes.declaration_relocate, superclassFindings_relocate,
      Stmt.methodFindings_relocate _ _ methods, movedFindings, List.map_append]

theorem Stmt.findingsAll_relocate (context : Context) (scopes : Scopes) : (ss : List Stmt) →
    Stmt.findingsAll context scopes (Stmt.relocateAll r ss) =
      movedFindings r (Stmt.findingsAll context scopes ss)
  | [] => rfl
  | s :: ss => by
    simp only [Stmt.relocateAll, Stmt.findingsAll, s.findings_relocate context scopes,
      Stmt.findingsAll_relocate context _ ss, movedFindings, List.map_append]

theorem FunctionDecl.findings_relocate (context : Context) (scopes : Scopes) :
    (d : FunctionDecl) →
    (d.relocate r).findings context scopes = (d.findings context scopes).map (Finding.relocate r)
  | ⟨_, params, body⟩ => by
    simp only [FunctionDecl.relocate, FunctionDecl.findings, parameterFindings_relocate,
      Stmt.findingsAll_relocate context _ body, List.map_append]

theorem Stmt.methodFindings_relocate (cls : EnclosingClass) (scopes : Scopes) :
    (ms : List FunctionDecl) → Stmt.methodFindings cls scopes (Stmt.relocateMethods r ms) =
      (Stmt.methodFindings cls scopes ms).map (Finding.relocate r)
  | [] => rfl
  | m :: ms => by
    rw [Stmt.relocateMethods, Stmt.methodFindings, Stmt.methodFindings, List.map_append,
      m.findings_relocate, Stmt.methodFindings_relocate cls scopes ms, FunctionDecl.name_relocate,
      Name.text_relocate]

end

/-- The findings of a relocated program are those of the program, relocated. -/
theorem programFindings_relocate (body : List Stmt) :
    programFindings (body.map (Stmt.relocate r)) =
      (programFindings body).map (Finding.relocate r) := by
  unfold programFindings
  rw [← Stmt.relocateAll_eq_map, Stmt.findingsAll_relocate]

theorem Finding.errors_relocate (findings : List Finding) :
    Finding.errors (findings.map (Finding.relocate r)) =
      (Finding.errors findings).map (ScopeError.relocate r) := by
  induction findings with
  | nil => rfl
  | cons finding findings ih =>
    cases finding with
    | distance id hops => exact ih
    | broken e => exact congrArg (e.relocate r :: ·) ih

/-! ### Recorded distances -/

/-- The distances of nodes are those of the nodes whose numbers they have moved to. -/
def Distances.Moved (r : Relocation) (ds ds' : Distances) : Prop :=
  ∀ id, ds'.get? (r.id id) = ds.get? id

theorem Distances.Moved.recordAll {ds ds' : Distances} (h : Distances.Moved r ds ds')
    (hr : Function.Injective r.id) (findings : List Finding) :
    Distances.Moved r (ds.recordAll findings)
      (ds'.recordAll (findings.map (Finding.relocate r))) := by
  induction findings generalizing ds ds' with
  | nil => exact h
  | cons finding findings ih =>
    cases finding with
    | broken e => exact ih h
    | distance id hops =>
      have hnext : Distances.Moved r (ds.record id hops) (ds'.record (r.id id) hops) := by
        intro other
        rw [get?_record, get?_record, h other]
        simp only [hr.eq_iff]
      exact ih hnext

end Treewalk
