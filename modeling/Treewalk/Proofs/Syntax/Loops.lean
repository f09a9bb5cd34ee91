import Treewalk.Proofs.Scope.Shape
import Treewalk.Proofs.Syntax.Completeness.Expression

/-!
# Loops with clauses

A loop with clauses is read as a statement that is made of blocks and a loop without clauses: there is a
block around the initializer and the loop, if there is an initializer, and a block around the body and
the increment, if there is an increment.

## Main definitions

* `Loop`: loops with clauses.
* `Loop.tree`: the statement that a loop is read as.
* `Loop.Reads`: signs read as a loop.

## Main results

* `Stmt.Reads.exists_loop`: what is read from the word `for` on.
-/

namespace Treewalk

/-- A loop with its clauses. -/
structure Loop where
  /-- What is done before the first round. -/
  initializer : Option Stmt
  /-- What has to be truthy before each round. -/
  condition : Option Expr
  /-- What is evaluated after the body. -/
  increment : Option Expr
  /-- What is executed in each round. -/
  body : Stmt

namespace Loop

/-- The statement that a loop is read as. -/
def tree (l : Loop) : Stmt :=
  loopStmt l.initializer l.condition l.increment l.body

/-- The part of the statement that is executed in each round. -/
def roundTree (l : Loop) : Stmt :=
  match l.increment with
  | some e => .block [l.body, .expression e]
  | none => l.body

/-- The part of the statement after the initializer. -/
def roundsTree (l : Loop) : Stmt :=
  .while (l.condition.getD (.literal (.bool true))) l.roundTree

theorem tree_of_none {l : Loop} (h : l.initializer = none) : l.tree = l.roundsTree := by
  rw [tree, h]
  rfl

theorem tree_of_some {l : Loop} {s : Stmt} (h : l.initializer = some s) :
    l.tree = .block [s, l.roundsTree] := by
  rw [tree, h]
  rfl

/-- Signs read as a loop, after the word `for`. -/
inductive Reads (dangles : Bool) : List Sign → Loop → Prop
  | intro {ts us vs ws : List Sign} {l : Loop} (hinitializer : Stmt.ReadsClause ts l.initializer)
      (hcondition : Expr.ReadsOptional us l.condition)
      (hincrement : Expr.ReadsOptional vs l.increment)
      (hbody : l.body.Reads (.statement dangles) ws) :
    Reads dangles
      (.mark .leftParen :: ts ++ us ++ .mark .semicolon :: vs ++ .mark .rightParen :: ws) l

theorem Reads.isDeclaration_eq_false {dangles : Bool} {ts : List Sign} {l : Loop}
    (h : Reads dangles ts l) : l.body.isDeclaration = false := by
  cases h with
  | intro _ _ _ hbody => exact hbody.isDeclaration_eq_false

end Loop

/-- What is read as a statement from the word `for` on is a loop. -/
theorem Stmt.Reads.exists_loop {dangles : Bool} {ts : List Sign} {s : Stmt}
    (h : s.Reads (.statement dangles) (.keyword .forWord :: ts)) :
    ∃ l : Loop, l.Reads dangles ts ∧ s = l.tree := by
  generalize hsigns : Sign.keyword .forWord :: ts = signs at h
  cases h with
  | expression he =>
    obtain ⟨sign, us, rfl, hopens, -⟩ := he.opens
    cases hsigns
    cases hopens
  | loop hi hc hs hb =>
    cases hsigns
    exact ⟨⟨_, _, _, _⟩, .intro hi hc hs hb, rfl⟩
  | _ => cases hsigns

end Treewalk
