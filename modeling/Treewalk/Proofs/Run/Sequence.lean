import Treewalk.Proofs.Run.Returning

/-!
# Statements one after the other

Statements are executed in order until one returns or fails. Those before it have then ended normally,
and those after it have not been touched.

## Main definitions

* `Executes`: statements that end normally, one after the other.

## Main results

* `executeAll_ok_iff`, `executeAll_eq_iff`: how statements in order end.
-/

namespace Treewalk

/-- Statements that end normally one after the other, from a machine to the machine they leave. -/
inductive Executes (execute : Stmt → Run Flow) : List Stmt → Machine → Machine → Prop
  /-- No statement is left. -/
  | nil (m : Machine) : Executes execute [] m m
  /-- A statement ends normally, and the others follow. -/
  | cons {s : Stmt} {ss : List Stmt} {m m₁ m₂ : Machine} (hs : execute s m = .ok .normal m₁)
      (hss : Executes execute ss m₁ m₂) : Executes execute (s :: ss) m m₂

variable {execute : Stmt → Run Flow}

theorem executeAll_cons_apply (s : Stmt) (ss : List Stmt) (m : Machine) :
    executeAll execute (s :: ss) m = match execute s m with
      | .ok .normal m₁ => executeAll execute ss m₁
      | .ok (.returned v) m₁ => .ok (.returned v) m₁
      | .error e m₁ => .error e m₁ := by
  rw [executeAll, Run.bind_apply]
  rcases execute s m with ⟨_ | v, m₁⟩ | ⟨e, m₁⟩ <;> rfl

/-- Statements in order end normally if each of them does. -/
theorem executeAll_ok_iff {ss : List Stmt} {m m' : Machine} :
    executeAll execute ss m = .ok .normal m' ↔ Executes execute ss m m' := by
  constructor
  · intro h
    induction ss generalizing m with
    | nil =>
      cases h
      exact .nil _
    | cons s ss ih =>
      rw [executeAll_cons_apply] at h
      split at h
      · next hs => exact .cons hs (ih h)
      · cases h
      · cases h
  · intro h
    induction h with
    | nil m => rfl
    | cons hs _ ih =>
      rw [executeAll_cons_apply, hs]
      exact ih

/-- Statements in order end in another way if one of them does so, after those before it have ended
normally. -/
theorem executeAll_eq_iff {ss : List Stmt} {m : Machine}
    {outcome : EStateM.Result Interrupt Machine Flow} (hne : ∀ m', outcome ≠ .ok .normal m') :
    executeAll execute ss m = outcome ↔ ∃ before s after m₁, ss = before ++ s :: after ∧
      Executes execute before m m₁ ∧ execute s m₁ = outcome := by
  constructor
  · intro h
    induction ss generalizing m with
    | nil => exact absurd h.symm (hne m)
    | cons s ss ih =>
      rw [executeAll_cons_apply] at h
      split at h
      · next hs =>
        obtain ⟨before, t, after, m₁, rfl, hbefore, ht⟩ := ih h
        exact ⟨s :: before, t, after, m₁, rfl, .cons hs hbefore, ht⟩
      · next hs => exact ⟨[], s, ss, m, rfl, .nil m, hs.trans h⟩
      · next hs => exact ⟨[], s, ss, m, rfl, .nil m, hs.trans h⟩
  · rintro ⟨before, s, after, m₁, rfl, hbefore, hs⟩
    induction hbefore with
    | nil m =>
      rw [List.nil_append, executeAll_cons_apply]
      split
      · next m' hm' => exact absurd (hs.symm.trans hm') (hne m')
      · next hm' => exact hm'.symm.trans hs
      · next hm' => exact hm'.symm.trans hs
    | cons ht _ ih =>
      rw [List.cons_append, executeAll_cons_apply, ht]
      exact ih hs

end Treewalk
