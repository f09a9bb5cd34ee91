import Treewalk.Evaluation
import Treewalk.Proofs.Scope.Walk

/-!
# Returns outside of functions

A program that breaks no rule has no return statement outside of its functions. So its statements
end normally if they end, and programs one after the other are executed one after the other.

## Main definitions

* `Stmt.ReturnFree`: statements in which no return stands, functions apart.

## Main results

* `returnFreeAll_of_clean`: a program that breaks no rule.
* `execute_normal`: statements in which no return stands end normally.
* `executeAll_append`: statements one after the other.
-/

namespace Treewalk

mutual

/-- No return stands in a statement, functions apart. -/
def Stmt.ReturnFree : Stmt → Prop
  | .block body => Stmt.ReturnFreeAll body
  | .ifThen _ thenBranch => thenBranch.ReturnFree
  | .ifElse _ thenBranch elseBranch => thenBranch.ReturnFree ∧ elseBranch.ReturnFree
  | .while _ body => body.ReturnFree
  | .return _ _ => False
  | .expression _ | .variable _ _ | .function _ | .class _ _ _ => True

/-- No return stands in statements, functions apart. -/
def Stmt.ReturnFreeAll : List Stmt → Prop
  | [] => True
  | s :: ss => s.ReturnFree ∧ Stmt.ReturnFreeAll ss

end

/-! ### Programs that break no rule -/

/-- Findings among which no rule is broken. -/
def Finding.Clean (findings : List Finding) : Prop :=
  ∀ error, .broken error ∉ findings

theorem Finding.clean_append {xs ys : List Finding} :
    Clean (xs ++ ys) ↔ Clean xs ∧ Clean ys := by
  simp only [Clean, List.mem_append, not_or, forall_and]

mutual

/-- Outside of functions a statement that breaks no rule has no return. -/
theorem Stmt.returnFree_of_clean {context : Context} (hc : context.routine = .nothing) :
    (s : Stmt) → (scopes : Scopes) → Finding.Clean (s.findings context scopes).1 → s.ReturnFree
  | .expression _, _, _ => trivial
  | .variable _ _, _, _ => trivial
  | .function _, _, _ => trivial
  | .class _ _ _, _, _ => trivial
  | .block body, scopes, h => Stmt.returnFreeAll_of_clean hc body ([] :: scopes) h
  | .ifThen _ thenBranch, scopes, h =>
    thenBranch.returnFree_of_clean hc scopes (Finding.clean_append.mp h).2
  | .ifElse _ thenBranch elseBranch, scopes, h => by
    obtain ⟨hthen, helse⟩ := Finding.clean_append.mp h
    exact ⟨thenBranch.returnFree_of_clean hc scopes (Finding.clean_append.mp hthen).2,
      elseBranch.returnFree_of_clean hc _ helse⟩
  | .while _ body, scopes, h => body.returnFree_of_clean hc scopes (Finding.clean_append.mp h).2
  | .return line value, scopes, h => by
    refine h ⟨⟨"return", line⟩, .returnOutside⟩ ?_
    simp [Stmt.findings, returnFindings, hc, Finding.at]

theorem Stmt.returnFreeAll_of_clean {context : Context} (hc : context.routine = .nothing) :
    (ss : List Stmt) → (scopes : Scopes) →
      Finding.Clean (Stmt.findingsAll context scopes ss).1 → Stmt.ReturnFreeAll ss
  | [], _, _ => trivial
  | s :: ss, scopes, h => by
    obtain ⟨hs, hss⟩ := Finding.clean_append.mp h
    exact ⟨s.returnFree_of_clean hc scopes hs, Stmt.returnFreeAll_of_clean hc ss _ hss⟩

end

/-- A program that breaks no rule has no return outside of its functions. -/
theorem returnFreeAll_of_clean {body : List Stmt} (h : ∀ error, .broken error ∉ programFindings body) :
    Stmt.ReturnFreeAll body :=
  Stmt.returnFreeAll_of_clean rfl body [] h

/-! ### Statements that end normally -/

/-- Two computations of which the second one answers. -/
theorem Run.exists_of_bind {α β : Type} {x : Run α} {f : α → Run β} {m m' : Machine} {b : β}
    (h : (x >>= f) m = .ok b m') : ∃ a m'', x m = .ok a m'' ∧ f a m'' = .ok b m' := by
  change EStateM.bind x f m = _ at h
  unfold EStateM.bind at h
  split at h
  · next a m'' hx => exact ⟨a, m'', hx, h⟩
  · cases h

/-- A computation that ends normally if it ends. -/
def Run.EndsNormally (x : Run Flow) : Prop :=
  ∀ m flow m', x m = .ok flow m' → flow = .normal

namespace Run.EndsNormally

variable {α : Type}

theorem pure : EndsNormally (Pure.pure .normal) := by
  intro m flow m' h
  cases h
  rfl

theorem bind {x : Run α} {f : α → Run Flow} (h : ∀ a, EndsNormally (f a)) :
    EndsNormally (x >>= f) := by
  intro m flow m' heq
  obtain ⟨a, m'', -, hf⟩ := Run.exists_of_bind heq
  exact h a _ _ _ hf

/-- What comes after a computation that ends normally. -/
theorem bindNormal {x : Run Flow} {f : Flow → Run Flow} (hx : EndsNormally x)
    (h : EndsNormally (f .normal)) : EndsNormally (x >>= f) := by
  intro m flow m' heq
  obtain ⟨flow', m'', hx', hf⟩ := Run.exists_of_bind heq
  obtain rfl := hx _ _ _ hx'
  exact h _ _ _ hf

theorem within {x : Run Flow} (h : EndsNormally x) (i : Nat) : EndsNormally (Run.within i x) := by
  intro m flow m' heq
  unfold Run.within at heq
  split at heq
  · next hx =>
    cases heq
    exact h _ _ _ hx
  · cases heq

end Run.EndsNormally

open Run

section Statements

variable {execute : Stmt → Run Flow} (h : ∀ s : Stmt, s.ReturnFree → EndsNormally (execute s))

include h

theorem executeAll_normal {ss : List Stmt} (hss : Stmt.ReturnFreeAll ss) :
    EndsNormally (executeAll execute ss) := by
  induction ss with
  | nil => exact .pure
  | cons s ss ih => exact (h s hss.1).bindNormal (ih hss.2)

/-- Statements one after the other, of which the first ones end normally. -/
theorem executeAll_append {ss : List Stmt} (hss : Stmt.ReturnFreeAll ss) (ts : List Stmt) :
    executeAll execute (ss ++ ts) =
      (executeAll execute ss >>= fun _ => executeAll execute ts) := by
  induction ss with
  | nil => rfl
  | cons s ss ih =>
    funext m
    rw [List.cons_append, executeAll, executeAll, bind_assoc]
    change EStateM.bind (execute s) _ m = EStateM.bind (execute s) _ m
    unfold EStateM.bind
    cases hs : execute s m with
    | error e m' => rfl
    | ok flow m' =>
      obtain rfl := h s hss.1 _ _ _ hs
      exact congrFun (ih hss.2) m'

end Statements

theorem loop_normal {condition : Run Value} {body : Run Flow} (h : EndsNormally body)
    (bound : Nat) : EndsNormally (loop condition body bound) := by
  induction bound with
  | zero => exact fun _ _ _ heq => nomatch heq
  | succ bound ih =>
    refine .bind fun v => ?_
    split
    · exact h.bindNormal ih
    · exact .pure

/-- Statements in which no return stands end normally. -/
theorem execute_normal (lookup : Lookup) (fuel : Nat) (s : Stmt) (hs : s.ReturnFree) :
    EndsNormally (execute lookup fuel s) := by
  induction fuel generalizing s with
  | zero => exact fun _ _ _ heq => nomatch heq
  | succ fuel ih =>
    rw [execute_succ]
    match s with
    | .expression e => exact .bind fun _ => .pure
    | .variable name (some e) => exact .bind fun _ => .bind fun _ => .pure
    | .variable name none => exact .bind fun _ => .pure
    | .block body => exact .bind fun _ => .bind fun i => .within (executeAll_normal ih hs) i
    | .ifThen condition thenBranch =>
      refine .bind fun v => ?_
      split
      · exact ih thenBranch hs
      · exact .pure
    | .ifElse condition thenBranch elseBranch =>
      refine .bind fun v => ?_
      split
      · exact ih thenBranch hs.1
      · exact ih elseBranch hs.2
    | .while condition body => exact loop_normal (ih body hs) fuel
    | .function decl => exact .bind fun _ => .bind fun _ => .bind fun _ => .pure
    | .class name none methods => exact .bind fun _ => .pure
    | .class name (some s) methods => exact .bind fun _ => .bind fun _ => .bind fun _ => .pure

/-- Programs one after the other, of which the first one breaks no rule. -/
theorem interpret_append {as : List Stmt} (has : ∀ error, .broken error ∉ programFindings as)
    (lookup : Lookup) (fuel : Nat) (bs : List Stmt) : interpret lookup fuel (as ++ bs) =
      (interpret lookup fuel as >>= fun _ => interpret lookup fuel bs) := by
  have happend := executeAll_append (execute_normal lookup fuel) (returnFreeAll_of_clean has) bs
  simp only [interpret, happend, bind_assoc, pure_bind]

end Treewalk
