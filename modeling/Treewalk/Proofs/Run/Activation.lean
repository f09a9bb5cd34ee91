import Treewalk.Proofs.Run.Sequence

/-!
# Calls and their returns

A `return` ends the call in whose body it stands. What happens between the beginning of a call and its
return is said step by step, along the statements of the body alone: expressions, and with them all
other calls, are evaluated in one go.

## Main definitions

* `Closure.entered`: the machine on which the body of a function begins.
* `Returns`: a statement in which a `return` of the same call is reached.

## Main results

* `execute_returned_iff`: a statement ends with a value just if a `return` is reached.
* `invoke_succ_apply`: a call by the way in which the body ends.
-/

namespace Treewalk

/-! ### New frames -/

/-- The machine on which the body of a block begins: in a new frame inside the current one. -/
def Machine.inside (m : Machine) : Machine :=
  { m with frames := m.frames.add (some m.current), current := m.frames.size }

/-- The frames after parameters have got their values in one of them. -/
def Frames.bindAll (fs : Frames) (i : Nat) : List Name → List Value → Frames
  | p :: ps, v :: vs => bindAll (fs.write i p.text (some v)) i ps vs
  | _, _ => fs

theorem bindParameters_apply (i : Nat) (params : List Name) (arguments : List Value) (m : Machine) :
    bindParameters i params arguments m =
      .ok () { m with frames := m.frames.bindAll i params arguments } := by
  induction params generalizing arguments m with
  | nil => rfl
  | cons p params ih =>
    cases arguments with
    | nil => rfl
    | cons v arguments => exact ih arguments { m with frames := m.frames.write i p.text (some v) }

/-- The machine on which the body of a function begins: in a new frame inside the one that the
function closes over, where the parameters have their values. -/
def Closure.entered (f : Closure) (arguments : List Value) (m : Machine) : Machine :=
  { m with
    frames := (m.frames.add (some f.frame)).bindAll m.frames.size f.decl.params arguments
    current := m.frames.size }

/-- A call by the way in which the body ends. -/
theorem invoke_succ_apply (lookup : Lookup) (fuel : Nat) (f : Closure) (arguments : List Value)
    (m : Machine) : invoke lookup (fuel + 1) f arguments m =
      match executeAll (execute lookup fuel) f.decl.body (f.entered arguments m) with
      | .ok flow m₁ => (if f.isInitializer then receiverOf f else pure flow.value : Run Value)
          { m₁ with current := m.current }
      | .error e m₁ => .error e { m₁ with current := m.current } := by
  rw [invoke_succ, invokeStep, Run.bind_apply]
  simp only [Run.newFrame, Run.bind_apply, bindParameters_apply, Run.within, Closure.entered,
    evaluators]
  rcases executeAll (execute lookup fuel) f.decl.body _ with ⟨flow, m₁⟩ | ⟨e, m₁⟩ <;> rfl

/-! ### Reaching a return -/

/-- Rounds of a loop, in each of which the condition holds and the body ends normally. -/
inductive Rounds (condition : Run Value) (body : Run Flow) : Nat → Machine → Machine → Prop
  /-- No round is left. -/
  | none (m : Machine) : Rounds condition body 0 m m
  /-- One round, and the others after it. -/
  | next {n : Nat} {m m₁ m₂ m₃ : Machine} {w : Value} (hcondition : condition m = .ok w m₁)
      (hw : w.isTruthy) (hbody : body m₁ = .ok .normal m₂) (h : Rounds condition body n m₂ m₃) :
    Rounds condition body (n + 1) m m₃

/-- In a statement a `return` of the same call is reached and gives a value; whatever was executed
before it ended normally. -/
inductive Returns (lookup : Lookup) : (fuel : Nat) → Stmt → Machine → Value → Machine → Prop
  /-- A `return` gives the value of its expression. -/
  | value {fuel line : Nat} {e : Expr} {m m' : Machine} {v : Value}
      (h : evaluate lookup fuel e m = .ok v m') :
    Returns lookup (fuel + 1) (.return line (some e)) m v m'
  /-- A `return` without an expression gives nil. -/
  | bare {fuel line : Nat} {m : Machine} : Returns lookup (fuel + 1) (.return line none) m .nil m
  /-- A statement of a block is the first one that does not end normally. -/
  | block {fuel : Nat} {before after : List Stmt} {s : Stmt} {m m₁ m₂ : Machine} {v : Value}
      (hbefore : Executes (execute lookup fuel) before m.inside m₁)
      (h : Returns lookup fuel s m₁ v m₂) :
    Returns lookup (fuel + 1) (.block (before ++ s :: after)) m v { m₂ with current := m.current }
  /-- The condition holds. -/
  | ifThen {fuel : Nat} {condition : Expr} {s : Stmt} {m m₁ m₂ : Machine} {w v : Value}
      (hcondition : evaluate lookup fuel condition m = .ok w m₁) (hw : w.isTruthy)
      (h : Returns lookup fuel s m₁ v m₂) : Returns lookup (fuel + 1) (.ifThen condition s) m v m₂
  /-- The condition of a choice holds. -/
  | ifTrue {fuel : Nat} {condition : Expr} {s t : Stmt} {m m₁ m₂ : Machine} {w v : Value}
      (hcondition : evaluate lookup fuel condition m = .ok w m₁) (hw : w.isTruthy)
      (h : Returns lookup fuel s m₁ v m₂) :
    Returns lookup (fuel + 1) (.ifElse condition s t) m v m₂
  /-- The condition of a choice does not hold. -/
  | ifFalse {fuel : Nat} {condition : Expr} {s t : Stmt} {m m₁ m₂ : Machine} {w v : Value}
      (hcondition : evaluate lookup fuel condition m = .ok w m₁) (hw : ¬ w.isTruthy)
      (h : Returns lookup fuel t m₁ v m₂) :
    Returns lookup (fuel + 1) (.ifElse condition s t) m v m₂
  /-- After some rounds of a loop the condition holds once more, and the body returns. -/
  | while {fuel n : Nat} {condition : Expr} {body : Stmt} {m m₁ m₂ m₃ : Machine} {w v : Value}
      (hn : n < fuel)
      (hrounds : Rounds (evaluate lookup fuel condition) (execute lookup fuel body) n m m₁)
      (hcondition : evaluate lookup fuel condition m₁ = .ok w m₂) (hw : w.isTruthy)
      (h : Returns lookup fuel body m₂ v m₃) :
    Returns lookup (fuel + 1) (.while condition body) m v m₃

/-- In statements in order a `return` of the same call is reached. -/
def ReturnsAmong (lookup : Lookup) (fuel : Nat) (ss : List Stmt) (m : Machine) (v : Value)
    (m' : Machine) : Prop :=
  ∃ before s after m₁, ss = before ++ s :: after ∧ Executes (execute lookup fuel) before m m₁ ∧
    Returns lookup fuel s m₁ v m'

theorem loop_succ_apply (condition : Run Value) (body : Run Flow) (bound : Nat) (m : Machine) :
    loop condition body (bound + 1) m = match condition m with
      | .ok w m₁ =>
        if w.isTruthy then
          match body m₁ with
          | .ok .normal m₂ => loop condition body bound m₂
          | .ok (.returned v) m₂ => .ok (.returned v) m₂
          | .error e m₂ => .error e m₂
        else .ok .normal m₁
      | .error e m₁ => .error e m₁ := by
  rw [loop, Run.bind_apply]
  rcases condition m with ⟨w, m₁⟩ | ⟨e, m₁⟩
  · dsimp only
    split
    · rw [Run.bind_apply]
      rcases body m₁ with ⟨_ | v, m₂⟩ | ⟨e, m₂⟩ <;> rfl
    · rfl
  · rfl

/-- A loop returns in the first round in which its body does. -/
theorem loop_returned_iff {condition : Run Value} {body : Run Flow} {bound : Nat} {m m' : Machine}
    {v : Value} : loop condition body bound m = .ok (.returned v) m' ↔
      ∃ n < bound, ∃ m₁ w m₂, Rounds condition body n m m₁ ∧ condition m₁ = .ok w m₂ ∧
        w.isTruthy ∧ body m₂ = .ok (.returned v) m' := by
  constructor
  · intro h
    induction bound generalizing m with
    | zero => cases h
    | succ bound ih =>
      rw [loop_succ_apply] at h
      split at h
      · next w m₁ hcondition =>
        split at h
        · next hw =>
          split at h
          · next m₂ hbody =>
            obtain ⟨n, hn, m₃, u, m₄, hrounds, hlast⟩ := ih h
            exact ⟨n + 1, Nat.succ_lt_succ hn, m₃, u, m₄, .next hcondition hw hbody hrounds, hlast⟩
          · next m₂ hbody =>
            exact ⟨0, Nat.succ_pos bound, m, w, m₁, .none m, hcondition, hw, hbody.trans h⟩
          · cases h
        · cases h
      · cases h
  · rintro ⟨n, hn, m₁, w, m₂, hrounds, hcondition, hw, hbody⟩
    induction hrounds generalizing bound with
    | none m =>
      obtain ⟨bound, rfl⟩ := Nat.exists_eq_succ_of_ne_zero (Nat.ne_of_gt hn)
      rw [loop_succ_apply, hcondition]
      dsimp only
      rw [if_pos hw, hbody]
    | next hcondition' hw' hbody' _ ih =>
      obtain ⟨bound, rfl⟩ := Nat.exists_eq_succ_of_ne_zero (Nat.ne_zero_of_lt hn)
      rw [loop_succ_apply, hcondition']
      dsimp only
      rw [if_pos hw', hbody']
      exact ih (Nat.lt_of_succ_lt_succ hn) hcondition

/-- A block by the way in which its statements end. -/
theorem execute_block_apply (lookup : Lookup) (fuel : Nat) (body : List Stmt) (m : Machine) :
    execute lookup (fuel + 1) (.block body) m =
      match executeAll (execute lookup fuel) body m.inside with
      | .ok flow m₁ => .ok flow { m₁ with current := m.current }
      | .error e m₁ => .error e { m₁ with current := m.current } := by
  change Run.within m.frames.size (executeAll (execute lookup fuel) body)
    { m with frames := m.frames.add (some m.current) } = _
  unfold Run.within Machine.inside
  dsimp only
  rcases executeAll (execute lookup fuel) body _ with ⟨flow, m₁⟩ | ⟨e, m₁⟩ <;> rfl

theorem Run.bind_of_ok {α β : Type} {x : Run α} {f : α → Run β} {a : α} {m m' : Machine}
    (h : x m = .ok a m') : (x >>= f) m = f a m' := by
  rw [Run.bind_apply, h]

/-- A statement in which a `return` of the same call is reached ends with its value. -/
theorem Returns.execute_eq {lookup : Lookup} {fuel : Nat} {s : Stmt} {m m' : Machine} {v : Value}
    (h : Returns lookup fuel s m v m') : execute lookup fuel s m = .ok (.returned v) m' := by
  induction h with
  | value h => exact Run.bind_of_ok h
  | bare => rfl
  | block hbefore _ ih =>
    rw [execute_block_apply, (executeAll_eq_iff (by rintro _ ⟨⟩)).mpr ⟨_, _, _, _, rfl, hbefore, ih⟩]
  | ifThen hcondition hw _ ih =>
    exact (Run.bind_of_ok hcondition).trans ((congrFun (if_pos hw) _).trans ih)
  | ifTrue hcondition hw _ ih =>
    exact (Run.bind_of_ok hcondition).trans ((congrFun (if_pos hw) _).trans ih)
  | ifFalse hcondition hw _ ih =>
    exact (Run.bind_of_ok hcondition).trans ((congrFun (if_neg hw) _).trans ih)
  | «while» hn hrounds hcondition hw _ ih =>
    exact loop_returned_iff.mpr ⟨_, hn, _, _, _, hrounds, hcondition, hw, ih⟩

/-- A statement ends with a value just if a `return` of the same call is reached in it. -/
theorem execute_returned_iff {lookup : Lookup} {fuel : Nat} {s : Stmt} {m m' : Machine}
    {v : Value} :
    execute lookup fuel s m = .ok (.returned v) m' ↔ Returns lookup fuel s m v m' := by
  refine ⟨fun h => ?_, Returns.execute_eq⟩
  induction fuel generalizing s m m' with
  | zero => cases h
  | succ fuel ih =>
    rw [execute_succ] at h
    match s with
    | .expression e =>
      obtain ⟨_, _, -, h⟩ := Run.exists_of_bind h
      cases h
    | .variable name (some e) =>
      obtain ⟨_, _, -, h⟩ := Run.exists_of_bind h
      obtain ⟨_, _, -, h⟩ := Run.exists_of_bind h
      cases h
    | .variable name none =>
      obtain ⟨_, _, -, h⟩ := Run.exists_of_bind h
      cases h
    | .block body =>
      rw [← execute_succ, execute_block_apply] at h
      split at h
      · next flow m₁ hbody =>
        cases h
        obtain ⟨before, t, after, m₂, rfl, hbefore, ht⟩ :=
          (executeAll_eq_iff (by rintro _ ⟨⟩)).mp hbody
        exact .block hbefore (ih ht)
      · cases h
    | .ifThen condition thenBranch =>
      obtain ⟨w, m₁, hcondition, h⟩ := Run.exists_of_bind h
      split at h
      · next hw => exact .ifThen hcondition hw (ih h)
      · cases h
    | .ifElse condition thenBranch elseBranch =>
      obtain ⟨w, m₁, hcondition, h⟩ := Run.exists_of_bind h
      split at h
      · next hw => exact .ifTrue hcondition hw (ih h)
      · next hw => exact .ifFalse hcondition hw (ih h)
    | .while condition body =>
      obtain ⟨n, hn, m₁, w, m₂, hrounds, hcondition, hw, hbody⟩ := loop_returned_iff.mp h
      exact .while hn hrounds hcondition hw (ih hbody)
    | .function decl =>
      obtain ⟨_, _, -, h⟩ := Run.exists_of_bind h
      obtain ⟨_, _, -, h⟩ := Run.exists_of_bind h
      obtain ⟨_, _, -, h⟩ := Run.exists_of_bind h
      cases h
    | .return line (some e) =>
      obtain ⟨w, m₁, he, h⟩ := Run.exists_of_bind h
      cases h
      exact .value he
    | .return line none =>
      cases h
      exact .bare
    | .class name none methods =>
      obtain ⟨_, _, -, h⟩ := Run.exists_of_bind h
      cases h
    | .class name (some superclass) methods =>
      obtain ⟨_, _, -, h⟩ := Run.exists_of_bind h
      obtain ⟨_, _, -, h⟩ := Run.exists_of_bind h
      obtain ⟨_, _, -, h⟩ := Run.exists_of_bind h
      cases h

end Treewalk
