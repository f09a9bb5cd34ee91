import Treewalk.Proofs.Relocation.Scoping
import Treewalk.Proofs.Scope.Initializers
import Treewalk.Proofs.Trimming.Loops
import Treewalk.Proofs.Trimming.Scoping

/-!
# The scope of a loop

The condition, the increment and the body of a loop stand in one scope, in which the initializer declares
its variable, if there is one. In the statement that the loop is read as, the increment and the body
stand one scope further in, in which nothing is declared. So all of them are bound as if that scope were
not there.

## Main definitions

* `Loop.scopes`, `Loop.findings`: the scope of a loop, and what the walk finds out about its parts there.

## Main results

* `Loop.scopes_variable`, `Loop.distance?_condition`, `Loop.distance?_increment`: what is declared in the
  scope of a loop, and what the clauses are bound to.
* `Loop.trimmed`: the statement that a loop is read as, and a copy of the loop.
-/

namespace Treewalk

/-- What is no declaration declares nothing. -/
theorem Stmt.declared_eq_nil {s : Stmt} (hproper : s.Proper) (h : s.isDeclaration = false) :
    s.declared = [] := by
  match s with
  | .variable .. | .function _ | .class .. => cases h
  | .ifThen _ thenBranch =>
    exact Stmt.declared_eq_nil (s := thenBranch) hproper.2.2 hproper.2.1
  | .ifElse _ thenBranch elseBranch =>
    obtain ⟨-, ⟨hthen, hthen'⟩, helse, helse'⟩ := hproper
    rw [Stmt.declared, Stmt.declared_eq_nil hthen' hthen, Stmt.declared_eq_nil helse' helse]
    rfl
  | .while _ body => exact Stmt.declared_eq_nil (s := body) hproper.2.2 hproper.2.1
  | .expression _ | .block _ | .return _ _ => rfl

/-- The walk visits all expressions within an expression at its site. -/
theorem Expr.Within.within {e inner : Expr} (h : e.Within inner) (σ : Site) :
    Visit.Within ⟨.expr e, σ⟩ ⟨.expr inner, σ⟩ := by
  induction h with
  | self => exact .self _
  | part _ hpart ih => exact ih.snoc (List.mem_map_of_mem hpart)

namespace Loop

variable (l : Loop)

/-- The scopes around the rounds of a loop: one is opened for the initializer, if there is one. -/
def scopes (outer : Scopes) : Scopes :=
  l.initializer.elim outer fun s => s.after ([] :: outer)

/-- What the walk finds out about the parts of a loop if its condition, its increment and its body stand
in one scope. -/
def findings (context : Context) (outer : Scopes) : List Finding :=
  (l.initializer.elim [] fun s => (s.findings context ([] :: outer)).1) ++
    Expr.findingsOf context.cls (l.scopes outer) l.condition ++
    Expr.findingsOf context.cls (l.scopes outer) l.increment ++
    (l.body.findings context (l.scopes outer)).1

theorem scopes_relocate (r : Relocation) (outer : Scopes) :
    (l.relocate r).scopes outer = l.scopes outer := by
  obtain ⟨initializer, condition, increment, body⟩ := l
  cases initializer with
  | none => rfl
  | some s =>
    have hfindings := congrArg Prod.snd (s.findings_relocate (r := r) .outermost ([] :: outer))
    rw [Stmt.findings_snd] at hfindings
    exact hfindings.trans (Stmt.findings_snd ..)

/-- What is found out about a copy is what is found out about the loop. -/
theorem findings_relocate (r : Relocation) (context : Context) (outer : Scopes) :
    (l.relocate r).findings context outer =
      (l.findings context outer).map (Finding.relocate r) := by
  rw [findings, scopes_relocate]
  obtain ⟨initializer, condition, increment, body⟩ := l
  cases initializer with
  | none => simp [findings, relocate, Expr.findingsOf_relocate, Stmt.findings_relocate]
  | some s => simp [findings, relocate, Expr.findingsOf_relocate, Stmt.findings_relocate]

/-! ### Where the walk would come -/

/-- The visits of the parts of a loop if its condition, its increment and its body stand in one
scope. -/
def visits (σ : Site) : List Visit :=
  (l.initializer.toList.map fun s => ⟨.stmt s, { σ with scopes := [] :: σ.scopes }⟩) ++
    (l.condition.toList.map fun e => ⟨.expr e, { σ with scopes := l.scopes σ.scopes }⟩) ++
    (l.increment.toList.map fun e => ⟨.expr e, { σ with scopes := l.scopes σ.scopes }⟩) ++
    [⟨.stmt l.body, { σ with scopes := l.scopes σ.scopes }⟩]

theorem mem_findings {σ : Site} {f : Finding} :
    f ∈ l.findings σ.context σ.scopes ↔ ∃ v ∈ l.visits σ, f ∈ v.findings := by
  obtain ⟨initializer, condition, increment, body⟩ := l
  cases initializer <;> cases condition <;> cases increment <;>
    simp [findings, visits, Expr.findingsOf, Visit.findings]

theorem ids_visits (σ : Site) : l.tree.ids.Perm ((l.visits σ).flatMap Visit.ids) := by
  refine (Reader.ids_loopStmt l.initializer l.condition l.increment l.body).trans (.of_eq ?_)
  obtain ⟨initializer, condition, increment, body⟩ := l
  cases initializer <;> cases condition <;> cases increment <;>
    simp [visits, Expr.idsOf, Visit.ids]

/-- The findings are all that is recorded about the parts. -/
theorem recorded_visits (hnodup : l.tree.ids.Nodup) {σ : Site} {v : Visit} (hv : v ∈ l.visits σ) :
    Recorded (Distances.recordAll #[] (l.findings σ.context σ.scopes)) v.ids v.findings := by
  have hnone : ∀ id ∈ (l.visits σ).flatMap Visit.ids, Distances.get? #[] id = none :=
    fun _ _ => rfl
  have hrecorded := Distances.recorded_recordAll ((l.ids_visits σ).nodup hnodup) hnone
    (l.findings σ.context σ.scopes)
  have hfindings (f : Finding) : f ∈ l.findings σ.context σ.scopes ↔
      f ∈ ([] : List Finding) ∨ ∃ v ∈ l.visits σ, f ∈ v.findings := by
    rw [l.mem_findings]
    exact (or_iff_right List.not_mem_nil).symm
  have hown : ∀ id hops, .distance id hops ∈ ([] : List Finding) → id ∈ ([] : List Nat) :=
    fun _ _ h => absurd h List.not_mem_nil
  exact Recorded.of_mem hrecorded hfindings hown hv

/-! ### Where the walk comes -/

section Within

variable (σ : Site)

theorem within_roundsTree : ∃ closed, Visit.Within ⟨.stmt l.tree, σ⟩
    ⟨.stmt l.roundsTree, ⟨σ.context, l.scopes σ.scopes, closed⟩⟩ := by
  cases hinitializer : l.initializer with
  | none =>
    rw [tree_of_none hinitializer, scopes, hinitializer]
    exact ⟨σ.closed, .self _⟩
  | some s =>
    rw [tree_of_some hinitializer, scopes, hinitializer]
    exact ⟨_, .part (List.mem_cons_of_mem _ List.mem_cons_self) (.self _)⟩

theorem within_initializer {s : Stmt} (hs : s ∈ l.initializer) : ∃ closed,
    Visit.Within ⟨.stmt l.tree, σ⟩ ⟨.stmt s, ⟨σ.context, [] :: σ.scopes, closed⟩⟩ := by
  rw [tree_of_some hs]
  exact ⟨_, .part List.mem_cons_self (.self _)⟩

theorem within_condition {e : Expr} (he : e ∈ l.condition) : ∃ closed,
    Visit.Within ⟨.stmt l.tree, σ⟩ ⟨.expr e, ⟨σ.context, l.scopes σ.scopes, closed⟩⟩ := by
  obtain ⟨closed, hwithin⟩ := l.within_roundsTree σ
  refine ⟨closed, hwithin.snoc ?_⟩
  have hcondition : l.condition.getD (.literal (.bool true)) = e := by rw [he]; rfl
  rw [← hcondition]
  exact List.mem_cons_self

theorem within_roundTree : ∃ closed, Visit.Within ⟨.stmt l.tree, σ⟩
    ⟨.stmt l.roundTree, ⟨σ.context, l.scopes σ.scopes, closed⟩⟩ := by
  obtain ⟨closed, hwithin⟩ := l.within_roundsTree σ
  exact ⟨closed, hwithin.snoc (List.mem_cons_of_mem _ List.mem_cons_self)⟩

/-- The body stands one scope further in if there is an increment. -/
theorem within_body : ∃ closed, Visit.Within ⟨.stmt l.tree, σ⟩ ⟨.stmt l.body,
    ⟨σ.context, (l.increment.elim [] fun _ => [[]]) ++ l.scopes σ.scopes, closed⟩⟩ := by
  obtain ⟨closed, hwithin⟩ := l.within_roundTree σ
  rw [roundTree] at hwithin
  cases hincrement : l.increment with
  | none =>
    rw [hincrement] at hwithin
    exact ⟨closed, hwithin⟩
  | some e =>
    rw [hincrement] at hwithin
    exact ⟨_, hwithin.snoc List.mem_cons_self⟩

theorem within_increment {e : Expr} (he : e ∈ l.increment) : ∃ closed, Visit.Within
    ⟨.stmt l.tree, σ⟩ ⟨.expr e, ⟨σ.context, l.body.after ([] :: l.scopes σ.scopes), closed⟩⟩ := by
  obtain ⟨closed, hwithin⟩ := l.within_roundTree σ
  rw [roundTree, he] at hwithin
  exact ⟨_, (hwithin.snoc (List.mem_cons_of_mem _ List.mem_cons_self)).snoc List.mem_cons_self⟩

end Within

/-! ### What the clauses are bound to -/

section Resolved

variable {l} {σ : Site} {ds : Distances} (htree : Visit.Resolved ds ⟨.stmt l.tree, σ⟩)

include htree

/-- The condition is bound to the scope of the loop and those around it. -/
theorem distance?_condition {e x : Expr} (he : e ∈ l.condition) (hx : e.Within x) {id : Nat}
    {name : String} (hname : x.occurrence? = some (id, name)) :
    ds.get? id = (l.scopes σ.scopes).distance? name := by
  obtain ⟨closed, hwithin⟩ := l.within_condition σ he
  exact ((htree.within hwithin).within (hx.within _)).get?_occurrence hname

variable (hbody : l.body.isDeclaration = false)

include hbody

theorem declared_body : l.body.declared = [] := by
  obtain ⟨closed, hwithin⟩ := l.within_body σ
  exact Stmt.declared_eq_nil (htree.within hwithin).fits.of_stmt.1 hbody

/-- The increment stands one scope further in, to which it is never bound. -/
theorem distance?_increment {e x : Expr} (he : e ∈ l.increment) (hx : e.Within x) {id : Nat}
    {name : String} (hname : x.occurrence? = some (id, name)) :
    ds.get? id = ((l.scopes σ.scopes).distance? name).map (· + 1) := by
  obtain ⟨closed, hwithin⟩ := l.within_increment σ he
  rw [Stmt.after_of_declared (declared_body htree hbody)] at hwithin
  have hnot : ¬ Scope.declares [] name := Bool.false_ne_true
  rw [((htree.within hwithin).within (hx.within _)).get?_occurrence hname, Scopes.distance?_cons,
    if_neg hnot]

/-- After the loop the scopes are those before it. -/
theorem after_tree (outer : Scopes) : l.tree.after outer = outer := by
  cases hinitializer : l.initializer with
  | some s =>
    rw [tree_of_some hinitializer]
    rfl
  | none =>
    rw [tree_of_none hinitializer, roundsTree, Stmt.after, roundTree]
    cases l.increment with
    | some e => rfl
    | none => exact Stmt.after_of_declared (declared_body htree hbody) outer

end Resolved

/-- The variable of the initializer is all that is declared in the scope of the loop. -/
theorem scopes_variable {l : Loop} {name : Name} {e : Option Expr}
    (h : l.initializer = some (.variable name e)) (outer : Scopes) :
    ∃ scope : Scope, l.scopes outer = scope :: outer ∧
      ∀ other, scope.declares other ↔ other = name.text := by
  obtain ⟨scope, hscope, hdeclares, -⟩ := Scopes.introduce_cons [] outer name
  refine ⟨scope, ?_, fun other => (hdeclares other).trans (or_iff_left Bool.false_ne_true)⟩
  rw [scopes, h]
  exact hscope

/-! ### A copy of a loop -/

/-- The parts of the statement that a loop is read as, and those of a copy of the loop that is resolved
in one scope: without the spare scope they are bound to the same scopes. -/
theorem trimmed {l : Loop} {t : Trimming} {r : Relocation} {σ : Site}
    (htree : Visit.Resolved t.before ⟨.stmt l.tree, σ⟩) (hbody : l.body.isDeclaration = false)
    (hmoved : ∀ id ∈ l.tree.ids, t.after.get? (r.id id) =
      (Distances.recordAll #[] (l.findings σ.context σ.scopes)).get? id) : l.Trimmed t r := by
  have hpart {spare : Option Nat} {w w' : Visit} (hw : Visit.Within ⟨.stmt l.tree, σ⟩ w)
      (hw' : w' ∈ l.visits σ) (h : Visit.Spares spare w w') : w.node.Trimmed t r spare :=
    h.trimmed (htree.within hw) (l.recorded_visits htree.recorded.nodup hw') fun id hid =>
      hmoved id (hw.ids_subset hid)
  have hdeclared := declared_body htree hbody
  refine ⟨fun s hs => ⟨?_, fun h => nomatch h⟩, fun e he => ?_, ⟨?_, fun _ => hdeclared⟩,
    fun e he => ?_⟩
  · obtain ⟨closed, hwithin⟩ := l.within_initializer σ hs
    have hmem : ⟨.stmt s, { σ with scopes := [] :: σ.scopes }⟩ ∈ l.visits σ := by
      simp [visits, Option.mem_def.mp hs]
    exact hpart hwithin hmem ⟨rfl, rfl, .none _, fun h => nomatch h⟩
  · obtain ⟨closed, hwithin⟩ := l.within_condition σ he
    have hmem : ⟨.expr e, { σ with scopes := l.scopes σ.scopes }⟩ ∈ l.visits σ := by
      simp [visits, Option.mem_def.mp he]
    exact hpart hwithin hmem ⟨rfl, rfl, .none _, fun h => nomatch h⟩
  · obtain ⟨closed, hwithin⟩ := l.within_body σ
    have hmem : ⟨.stmt l.body, { σ with scopes := l.scopes σ.scopes }⟩ ∈ l.visits σ := by
      simp [visits]
    refine hpart hwithin hmem ⟨rfl, rfl, ?_, fun _ s hs => ?_⟩
    · cases l.increment with
      | none => exact .none _
      | some e => exact .here _
    · cases hs
      exact hdeclared
  · obtain ⟨closed, hwithin⟩ := l.within_increment σ he
    rw [Stmt.after_of_declared hdeclared] at hwithin
    have hmem : ⟨.expr e, { σ with scopes := l.scopes σ.scopes }⟩ ∈ l.visits σ := by
      simp [visits, Option.mem_def.mp he]
    exact hpart hwithin hmem ⟨rfl, rfl, .here _, fun _ _ h => nomatch h⟩

end Loop

end Treewalk
