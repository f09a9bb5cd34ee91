import Treewalk.Proofs.Syntax.Loops
import Treewalk.Proofs.Trimming.Running

/-!
# What loops mean

A loop with clauses means what one would say about its clauses: the initializer, if there is one, is
executed once, in a frame of its own. In this frame rounds are made as long as the condition, if there is
one, is truthy. A round is the body and after it, unless the body returns or fails, the increment, if
there is one.

The statement that a loop is read as has a block around the body and the increment, which makes a frame
in every round. This frame is spare, since the body is no declaration. So the statement trims to what the
loop means.

## Main definitions

* `Loop.round`, `Loop.rounds`, `Loop.run`: what a loop means.
* `Loop.Trimmed`: a loop whose parts are bound to the same scopes without the scope of the block.

## Main results

* `Loop.trims_run`: the statement does what the loop means.
-/

namespace Treewalk

open Run

namespace Loop

/-- A loop whose numbers and lines have moved. -/
def relocate (r : Relocation) (l : Loop) : Loop :=
  ⟨l.initializer.map (Stmt.relocate r), l.condition.map (Expr.relocate r),
    l.increment.map (Expr.relocate r), l.body.relocate r⟩

/-! ### Rounds -/

section

variable (parts : Evaluators) (l : Loop)

/-- Whether another round is made: without a condition always. -/
def goesOn : Run Bool :=
  match l.condition with
  | some e => do return (← parts.evaluate e).isTruthy
  | none => return true

/-- The increment, if there is one. -/
def step : Run Unit :=
  match l.increment with
  | some e => do let _ ← parts.evaluate e
  | none => return ()

/-- A round: the body and, unless it returns, the increment. -/
def round : Run Flow := do
  match ← parts.execute l.body with
  | .normal =>
    l.step parts
    return .normal
  | .returned v => return .returned v

/-- Rounds, at most `bound` of them, until the condition is falsey or the body returns. -/
def rounds : (bound : Nat) → Run Flow
  | 0 => throw .outOfFuel
  | bound + 1 => do
    if ← l.goesOn parts then
      match ← l.round parts with
      | .normal => rounds bound
      | .returned v => return .returned v
    else return .normal

/-- A loop: the initializer, if there is one, once in a new frame, and then the rounds in this frame. -/
def run (bound : Nat) : Run Flow :=
  match l.initializer with
  | some s => do
    let i ← newFrame (← currentFrame)
    within i do
      match ← parts.execute s with
      | .normal => l.rounds parts bound
      | .returned v => return .returned v
  | none => l.rounds parts bound

end

end Loop

/-! ### Fuel -/

/-- With such amounts of fuel two computations may run out of it as they are allowed to, although the
first one is so many calls deeper. -/
def Slack.AllowsDeeper (S : Slack) (layers fuel fuel' : Nat) : Prop :=
  fuel ≤ fuel' ∧ S.whole ∨ fuel' + layers ≤ fuel ∧ S.trimmed

namespace Slack.AllowsDeeper

variable {S : Slack} {layers layers' fuel fuel' : Nat}

theorem fewer (h : S.AllowsDeeper layers fuel fuel') (hle : layers' ≤ layers) :
    S.AllowsDeeper layers' fuel fuel' :=
  h.imp_right fun ⟨hfuel, htrimmed⟩ => ⟨by omega, htrimmed⟩

theorem allows (h : S.AllowsDeeper layers fuel fuel') : S.Allows fuel fuel' :=
  h.fewer (Nat.zero_le layers)

/-- The first one is out of fuel and may be, or it goes one call deeper. -/
theorem exhausted_or_pred (h : S.AllowsDeeper (layers + 1) fuel fuel') :
    (fuel = 0 ∧ S.whole) ∨ ∃ n, fuel = n + 1 ∧ S.AllowsDeeper layers n fuel' := by
  rcases fuel with _ | n
  · rcases h with ⟨-, hwhole⟩ | ⟨hle, -⟩
    · exact .inl ⟨rfl, hwhole⟩
    · cases hle
  · refine .inr ⟨n, rfl, h.imp (fun ⟨hle, hwhole⟩ => ⟨by omega, hwhole⟩) fun ⟨hle, htrimmed⟩ => ?_⟩
    exact ⟨Nat.le_of_succ_le_succ hle, htrimmed⟩

end Slack.AllowsDeeper

namespace Loop

/-! ### The statement does what the loop means -/

/-- A loop whose parts are bound to the same scopes without the spare scope, in which the body and the
increment stand if there is an increment. -/
structure Trimmed (t : Trimming) (r : Relocation) (l : Loop) : Prop where
  initializer : ∀ s ∈ l.initializer, s.Trimmed t r none
  condition : ∀ e ∈ l.condition, (Node.expr e).Trimmed t r none
  body : l.body.Trimmed t r (l.increment.map fun _ => 0)
  increment : ∀ e ∈ l.increment, (Node.expr e).Trimmed t r (some 0)

variable {S : Slack} {t : Trimming} {r : Relocation} (hr : Relocation.KeepsLines r) {l : Loop}
  (hl : l.Trimmed t r) {W : Seating} {i : Nat} (hat : W.At i none) {fuel fuel' : Nat}

include hr hl hat

theorem trims_goesOn (hfuel : S.AllowsDeeper 1 fuel fuel') :
    Trims S t W i (fun _ v b => v.isTruthy = b)
      ((evaluators .resolved fuel).evaluate (l.condition.getD (.literal (.bool true))))
      ((l.relocate r).goesOn (evaluators .resolved fuel')) := by
  obtain ⟨initializer, condition, increment, body⟩ := l
  cases condition with
  | none =>
    rcases hfuel.exhausted_or_pred with ⟨rfl, hwhole⟩ | ⟨n, rfl, -⟩
    · exact .outOfFuel hwhole
    · exact .pure rfl
  | some e =>
    have hevaluate := (evaluators_trim t hfuel.allows).evaluate hr (hl.condition e rfl) hat
    rw [← bind_pure (Evaluators.evaluate _ _)]
    exact hevaluate.bind fun _ _ _ _ hv => .pure hv.alike.isTruthy.symm

/-- The block around the body and the increment makes a spare frame. -/
theorem trims_round (hfuel : S.AllowsDeeper 2 fuel fuel') :
    Trims S t W i (Flow.Trimmed t) ((evaluators .resolved fuel).execute l.roundTree)
      ((l.relocate r).round (evaluators .resolved fuel')) := by
  obtain ⟨initializer, condition, increment, body⟩ := l
  cases increment with
  | none =>
    have hexecute := (evaluators_trim t hfuel.allows).execute hr hl.body hat
    rw [← bind_pure (Evaluators.execute _ _)]
    refine hexecute.bind fun W₁ flow flow' hW₁ hflow => ?_
    cases hflow with
    | normal => exact .pure .normal
    | returned hv => exact .pure (.returned hv)
  | some e =>
    rcases hfuel.exhausted_or_pred with ⟨rfl, hwhole⟩ | ⟨n, rfl, hinner⟩
    · exact .outOfFuel hwhole
    refine .inSpare hat fun W₁ k hW₁ hspare => ?_
    refine ((evaluators_trim t hinner.allows).execute hr hl.body hspare).bind
      fun W₂ flow flow' hW₂ hflow => ?_
    cases hflow with
    | returned hv => exact .pure (.returned hv)
    | normal =>
      rcases hinner.exhausted_or_pred with ⟨rfl, hwhole⟩ | ⟨n, rfl, hinnermost⟩
      · exact .outOfFuel hwhole
      have hincrement := (evaluators_trim t hinnermost.allows).evaluate hr (hl.increment e rfl)
        (hspare.mono hW₂)
      refine Trims.bind (R := fun _ flow _ => flow = .normal) ?_ fun W₃ flow _ _ hflow => ?_
      · exact hincrement.bind fun _ _ _ _ _ => .pure rfl
      · subst hflow
        exact .pure .normal

theorem trims_rounds (hfuel : S.AllowsDeeper 2 fuel fuel') {bound bound' : Nat}
    (hbound : S.Allows bound bound') : Trims S t W i (Flow.Trimmed t)
      (loop ((evaluators .resolved fuel).evaluate (l.condition.getD (.literal (.bool true))))
        ((evaluators .resolved fuel).execute l.roundTree) bound)
      ((l.relocate r).rounds (evaluators .resolved fuel') bound') := by
  induction bound generalizing bound' W with
  | zero =>
    rcases hbound.exhausted_or_pred with ⟨-, hwhole⟩ | ⟨rfl, htrimmed⟩ | ⟨n, n', heq, -⟩
    · exact .outOfFuel hwhole
    · exact .outOfFuel_trimmed htrimmed
    · cases heq
  | succ bound ih =>
    rcases hbound.exhausted_or_pred with ⟨heq, -⟩ | ⟨rfl, htrimmed⟩ | ⟨n, n', heq, rfl, hbound⟩
    · cases heq
    · exact .outOfFuel_trimmed htrimmed
    · cases heq
      refine (trims_goesOn hr hl hat (hfuel.fewer (by decide))).bind fun W₁ v b hW₁ hb => ?_
      subst hb
      have hat₁ := hat.mono hW₁
      refine .ite ((trims_round hr hl hat₁ hfuel).bind fun W₂ flow flow' hW₂ hflow => ?_)
        (.pure .normal)
      cases hflow with
      | normal => exact ih (hat₁.mono hW₂) hbound
      | returned hv => exact .pure (.returned hv)

theorem trims_roundsTree (hfuel : S.AllowsDeeper 3 fuel fuel') : Trims S t W i (Flow.Trimmed t)
    ((evaluators .resolved fuel).execute l.roundsTree)
    ((l.relocate r).rounds (evaluators .resolved fuel') fuel') := by
  rcases hfuel.exhausted_or_pred with ⟨rfl, hwhole⟩ | ⟨n, rfl, hinner⟩
  · exact .outOfFuel hwhole
  · exact trims_rounds hr hl hat hinner hinner.allows

/-- The statement that a loop is read as does what the loop means. -/
theorem trims_run (hfuel : S.AllowsDeeper 4 fuel fuel') : Trims S t W i (Flow.Trimmed t)
    ((evaluators .resolved fuel).execute l.tree)
    ((l.relocate r).run (evaluators .resolved fuel') fuel') := by
  cases hinitializer : l.initializer with
  | none =>
    rw [tree_of_none hinitializer]
    have hrun : (l.relocate r).run (evaluators .resolved fuel') fuel' =
        (l.relocate r).rounds (evaluators .resolved fuel') fuel' := by
      rw [run, relocate, hinitializer]
      rfl
    rw [hrun]
    exact trims_roundsTree hr hl hat (hfuel.fewer (by decide))
  | some s =>
    rw [tree_of_some hinitializer]
    have hrun : (l.relocate r).run (evaluators .resolved fuel') fuel' = (do
        let i ← newFrame (← currentFrame)
        within i do
          match ← (evaluators .resolved fuel').execute (s.relocate r) with
          | .normal => (l.relocate r).rounds (evaluators .resolved fuel') fuel'
          | .returned v => return .returned v) := by
      rw [run, relocate, hinitializer]
      rfl
    rw [hrun]
    rcases hfuel.exhausted_or_pred with ⟨rfl, hwhole⟩ | ⟨n, rfl, hdeeper⟩
    · exact .outOfFuel hwhole
    refine trims_currentFrame.bind fun W₁ j j' hW₁ hj => ?_
    obtain ⟨rfl, rfl⟩ := hj
    have hat₁ := hat.mono hW₁
    refine (trims_newFrame hat₁.lt_length rfl).bind fun W₂ k k' hW₂ hk => ?_
    obtain ⟨hlt, hseat⟩ := hk
    have hinside := Seating.At.inside hlt hseat (hat₁.mono hW₂)
    refine Trims.within hinside.lt_length (Seating.Seats.place_eq ⟨_, hseat⟩) ?_
    have hexecute := (evaluators_trim t hdeeper.allows).execute hr
      (hl.initializer s hinitializer) hinside
    refine hexecute.bind fun W₃ flow flow' hW₃ hflow => ?_
    cases hflow with
    | returned hv => exact .pure (.returned hv)
    | normal =>
      rw [← bind_pure (rounds _ _ _)]
      refine (trims_roundsTree hr hl (hinside.mono hW₃) hdeeper).bind
        fun W₄ flow flow' hW₄ hflow => ?_
      cases hflow with
      | normal => exact .pure .normal
      | returned hv => exact .pure (.returned hv)

end Loop

end Treewalk
