import Treewalk.Proofs.Relocation.Running

/-!
# Where faults are raised

A program can call functions that were made before it. So the fault that ends it is raised at a token
of the program itself, or at a token of another one. To tell which, lines are given marks: the lines of
the program become odd numbers, and those of everything that is stored on the machine become even
numbers. The fault is raised within the program if the line on which it comes is odd.

Once the marks are there, the lines of the program can be moved while all others stay.

## Main definitions

* `Relocation.earlier`, `Relocation.later`, `Relocation.unmark`: marks on lines.
* `raisedWithin`: whether the fault that ends a program is raised at one of its own tokens.
* `Machine.MovedInPart`: machines that differ in some of the lines that are stored there.

## Main results

* `interpret_later`: a program on later lines ends in the same way, and the fault that ends it moves
  if it is raised within the program.
-/

namespace Treewalk

namespace Relocation

/-- Lines with the mark of what was there before. -/
def earlier : Relocation :=
  ofLine fun line => 2 * line

/-- Lines with the mark of what comes later. -/
def later : Relocation :=
  ofLine fun line => 2 * line + 1

/-- Lines without marks, of which those that had the mark of what comes later have moved. -/
def unmark (f : Nat → Nat) : Relocation :=
  ofLine fun line => if line % 2 = 0 then line / 2 else f (line / 2)

theorem unmark_undoes (f : Nat → Nat) : (unmark f).Undoes earlier where
  id _ := rfl
  line line := by
    have hmod : 2 * line % 2 = 0 := Nat.mul_mod_right 2 line
    have hdiv : 2 * line / 2 = line := Nat.mul_div_cancel_left line Nat.zero_lt_two
    simp only [unmark, earlier, ofLine, hmod, hdiv, if_true]

theorem unmark_comp_later (f : Nat → Nat) : (unmark f).comp later = ofLine f := by
  refine congrArg (Relocation.mk _) (funext fun line => ?_)
  have hmod : (2 * line + 1) % 2 ≠ 0 := by omega
  have hdiv : (2 * line + 1) / 2 = line := by omega
  simp only [unmark, later, ofLine, hmod, hdiv, if_false]

end Relocation

/-- A program on a machine, with marks on the lines of both. -/
def interpretMarked (fuel : Nat) (body : List Stmt) (m : Machine) :
    EStateM.Result Interrupt Machine Unit :=
  interpret .resolved fuel (body.map (Stmt.relocate .later)) (m.relocate .earlier)

/-- Whether a program ends with a fault that is raised at a token of the program itself. -/
def raisedWithin (fuel : Nat) (body : List Stmt) (m : Machine) : Bool :=
  match interpretMarked fuel body m with
  | .error (.raised e) _ => e.line % 2 = 1
  | _ => false

/-- The machine `m'` is `m`, except that some of the lines that are stored there have moved. -/
def Machine.MovedInPart (f : Nat → Nat) (m m' : Machine) : Prop :=
  ∃ marked, Machine.Moved (.unmark id) marked m ∧ Machine.Moved (.unmark f) marked m'

/-- Machines that differ in some lines, and faults of which all have moved or none. -/
def Run.tieInPart (f : Nat → Nat) (all : Bool) : Tie Interrupt Machine where
  state := Machine.MovedInPart f
  error := Maps (Interrupt.relocate (.ofLine (if all then f else id)))
  free _ := False

section

variable {f : Nat → Nat} {fuel : Nat} {body : List Stmt} {m m' : Machine}

/-- Marks can be taken off a machine. -/
theorem Machine.moved_unmark (f : Nat → Nat) (m : Machine) :
    Machine.Moved (.unmark f) (m.relocate .earlier) m :=
  (m.moved_relocate fun _ => rfl).undo (Relocation.unmark_undoes f) fun _ => rfl

namespace Machine.MovedInPart

variable (h : Machine.MovedInPart f m m')

include h

theorem output : m'.output = m.output := by
  obtain ⟨_, h, h'⟩ := h
  exact h'.output.trans h.output.symm

theorem input : m'.input = m.input := by
  obtain ⟨_, h, h'⟩ := h
  exact h'.input.trans h.input.symm

theorem readings : m'.readings = m.readings := by
  obtain ⟨_, h, h'⟩ := h
  exact h'.readings.trans h.readings.symm

end Machine.MovedInPart

/-- A program without marks does what it does with them. -/
theorem interpretMarked_moves (hm : Machine.Moved (.unmark f) (m.relocate .earlier) m') :
    (Run.tie (.unmark f) True).Outcome Eq (interpretMarked fuel body m)
      (interpret .resolved fuel (body.map (Stmt.relocate (.ofLine f))) m') := by
  have hlockstep : Lockstep (Run.tie (.unmark f) True) Eq _ _ := interpret_moves .resolved
    (Nat.le_refl fuel) (fun _ => rfl) (body.map (Stmt.relocate .later))
  have hbody : (body.map (Stmt.relocate .later)).map (Stmt.relocate (.unmark f)) =
      body.map (Stmt.relocate (.ofLine f)) := by
    rw [List.map_map, ← Relocation.unmark_comp_later f]
    exact List.map_congr_left fun s _ => s.relocate_comp _ _
  rw [hbody] at hlockstep
  exact hlockstep _ _ hm

/-- A program on later lines ends in the same way. The fault that ends it, if one does, is on a later
line if it is raised within the program, and on the same line otherwise. -/
theorem interpret_later (hm : Machine.Moved (.unmark f) (m.relocate .earlier) m') :
    (Run.tieInPart f (raisedWithin fuel body m)).Outcome Eq (interpret .resolved fuel body m)
      (interpret .resolved fuel (body.map (Stmt.relocate (.ofLine f))) m') := by
  have hbody : body.map (Stmt.relocate (.ofLine id)) = body := by
    rw [← Stmt.relocateAll_eq_map]
    exact Stmt.relocateAll_eq_self (fun _ => rfl) body fun _ _ => rfl
  have hplain := @interpretMarked_moves _ fuel body _ _ (Machine.moved_unmark id m)
  have hmoved := @interpretMarked_moves _ fuel body _ _ hm
  rw [hbody] at hplain
  unfold raisedWithin
  generalize interpretMarked fuel body m = o, interpret .resolved fuel body m = o₁,
    interpret .resolved fuel (body.map (Stmt.relocate (.ofLine f))) m' = o₂ at hplain hmoved
  cases hplain with
  | ok h₁ hs₁ =>
    cases hmoved with
    | ok h₂ hs₂ => exact .ok rfl ⟨_, hs₁, hs₂⟩
  | @error e e₁ marked m₁ h₁ hs₁ =>
    cases hmoved with
    | @error _ e₂ _ m₂ h₂ hs₂ =>
      refine .error ?_ ⟨_, hs₁, hs₂⟩
      subst h₁ h₂
      cases e with
      | outOfFuel => rfl
      | raised e =>
        -- the mark on the line of the fault says whether it moves
        change Interrupt.relocate _ (.raised e) = _
        rcases Nat.mod_two_eq_zero_or_one e.line with h | h <;>
          simp [Interrupt.relocate, Relocation.unmark, Relocation.ofLine, h]
    | free he => exact absurd trivial he.1
  | free he => exact absurd trivial he.1

end

end Treewalk
