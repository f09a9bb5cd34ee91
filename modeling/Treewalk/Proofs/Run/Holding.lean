import Treewalk.Evaluation
import Treewalk.Proofs.Run.Sealing

/-!
# Names that the current frame holds

Where a frame holds a name itself, the search along its chain ends at once. So the name of a class, which
is bound before the methods of the class are made, is found in the frame in which the class is declared.

## Main definitions

* `declareClassHere`: the declaration of a class, with its name bound in the current frame.

## Main results

* `Frames.holder?_of_outermost`, `Frames.holder?_self`: chains that are not followed.
* `declareClass_eq`: the declaration of a class.
-/

namespace Treewalk

open Run

/-! ### Frames -/

/-- From a frame around which there is no other one, only that frame is looked at. -/
theorem Frames.holder?_of_outermost {fs : Frames} {i : Nat} (hnone : fs.enclosing? i = none)
    (hi : i < fs.size) (name : String) :
    fs.holder? i name = if fs.holds i name then some i else none := by
  obtain ⟨size, hsize⟩ := Nat.exists_eq_add_of_lt hi
  have hchain : fs.chain i = [i] := by
    rw [chain, hsize, chainFrom, hnone]
    rfl
  rw [holder?, hchain, List.find?_singleton]

theorem Frames.holder?_self {fs : Frames} {i : Nat} {name : String} (h : fs.holds i name) :
    fs.holder? i name = some i := by
  obtain ⟨size, hsize⟩ := Nat.exists_eq_add_of_lt (Frames.lt_size_of_holds h)
  rw [holder?, chain, hsize, chainFrom]
  exact List.find?_cons_of_pos h

/-! ### Declarations of classes -/

section Classes

variable {m : Machine}

/-- Methods are made without a look at frames. -/
theorem makeMethods_ok (frame : Nat) (methods : List FunctionDecl) (table : Bindings Closure)
    (m : Machine) : ∃ table' closures,
      makeMethods frame methods table m = .ok table' { m with closures := closures } := by
  induction methods generalizing table m with
  | nil => exact ⟨table, m.closures, rfl⟩
  | cons d methods ih => exact ih _ _

/-- The frame of methods is made without a change to what the current frame holds. -/
theorem methodFrame_ok {name : String} (h : m.frames.holds m.current name)
    (superclass : Option Nat) : ∃ frame fs,
      methodFrame superclass m = .ok frame { m with frames := fs } ∧ fs.holds m.current name := by
  cases superclass with
  | none => exact ⟨m.current, m.frames, rfl, h⟩
  | some c =>
    refine ⟨m.frames.size, _, rfl, ?_⟩
    have hsize : m.frames.size < (m.frames.add (some m.current)).size := by
      rw [Frames.size_add]
      exact Nat.lt_succ_self _
    have hne : m.current ≠ m.frames.size := Nat.ne_of_lt (Frames.lt_size_of_holds h)
    rw [Frames.holds, Frames.slot?_write _ hsize, if_neg fun heq => hne heq.1.symm,
      Frames.slot?_add, if_neg hne]
    exact h

/-- The declaration of a class, where the name is bound in the current frame in the end. -/
def declareClassHere (name : Name) (superclass : Option Nat) (methods : List FunctionDecl) :
    Run Unit := do
  define name.text .nil
  let frame ← methodFrame superclass
  let table ← makeMethods frame methods []
  let c ← newClass ⟨name.text, superclass, table⟩
  define name.text (.cls c)

/-- The name of a class is bound in the frame in which it is declared, since that holds it already. -/
theorem declareClass_eq (hm : m.current < m.frames.size) (name : Name) (superclass : Option Nat)
    (methods : List FunctionDecl) :
    declareClass name superclass methods m = declareClassHere name superclass methods m := by
  let m₁ := { m with frames := m.frames.define m.current name.text .nil }
  have hdefine : define name.text .nil m = .ok ⟨⟩ m₁ := rfl
  have hholds : m₁.frames.holds m₁.current name.text := by
    change (m.frames.write m.current name.text _).holds m.current name.text
    rw [Frames.holds, Frames.slot?_write _ hm, if_pos ⟨rfl, rfl⟩]
    rfl
  obtain ⟨frame, fs, hframe, hholds⟩ := methodFrame_ok hholds superclass
  obtain ⟨table, closures, htable⟩ := makeMethods_ok frame methods [] { m₁ with frames := fs }
  simp only [declareClass, declareClassHere, bind_apply, hdefine, hframe, htable, newClass]
  change assignIn (fs.holder? m₁.current name.text) name (.cls m₁.classes.size) _ = _
  rw [Frames.holder?_self hholds]
  rfl

end Classes

end Treewalk
