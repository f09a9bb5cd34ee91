import Treewalk.Evaluation
import Treewalk.Proofs.Run.Tracking

/-!
# Names that nothing binds

A computation *ends unbound* on a machine if it is cut short by the fault that nothing binds a name.
Reading a variable, assigning to it and looking up a method of a superclass end unbound only if the
frame at the recorded distance does not hold the name.

## Main definitions

* `Run.EndsUnbound`: computations that end with that fault.

## Main results

* `Run.endsUnbound_bind`: computations one after the other.
* `Run.not_endsUnbound_readVariable`, `Run.endsUnbound_assignVariable`,
  `Run.not_endsUnbound_superMethod`: the operations on variables.
-/

namespace Treewalk

namespace Run

/-- A computation on a machine ends with the fault that nothing binds a name. -/
def EndsUnbound {α : Type} (x : Run α) (m : Machine) : Prop :=
  ∃ name line m', x m = .error (.raised ⟨.undefinedVariable name, line⟩) m'

variable {α β : Type} {m : Machine}

@[simp] theorem not_endsUnbound_pure (a : α) : ¬ EndsUnbound (pure a : Run α) m :=
  fun ⟨_, _, _, h⟩ => nomatch h

@[simp] theorem endsUnbound_raise {fault : RuntimeFault} {line : Nat} :
    EndsUnbound (raise fault line : Run α) m ↔ ∃ name, fault = .undefinedVariable name := by
  constructor
  · rintro ⟨name, line', m', h⟩
    cases h
    exact ⟨name, rfl⟩
  · rintro ⟨name, rfl⟩
    exact ⟨name, line, m, rfl⟩

@[simp] theorem endsUnbound_checked {line : Nat} {outcome : Except RuntimeFault α} :
    EndsUnbound (checked line outcome) m ↔ ∃ name, outcome = .error (.undefinedVariable name) := by
  cases outcome with
  | ok a => simp [checked]
  | error fault => simp [checked]

/-- Computations one after the other end unbound if the first one does, or if it answers and the
second one does. -/
theorem endsUnbound_bind {x : Run α} {f : α → Run β} :
    EndsUnbound (x >>= f) m ↔
      EndsUnbound x m ∨ ∃ a m', x m = .ok a m' ∧ EndsUnbound (f a) m' := by
  unfold EndsUnbound
  rw [bind_apply]
  cases x m with
  | ok a m' => simp
  | error e m' => simp

theorem endsUnbound_get_bind {f : Machine → Run α} :
    EndsUnbound (get >>= f) m ↔ EndsUnbound (f m) m :=
  Iff.rfl

end Run

/-! ### Variables -/

namespace Frames

variable {fs : Frames} {i distance : Nat} {name : String}

theorem holderAt?_of_holds (h : fs.holds (fs.ancestor i distance) name) :
    fs.holderAt? i distance name = some (fs.ancestor i distance) :=
  if_pos h

theorem holderAt?_of_not_holds (h : ¬ fs.holds (fs.ancestor i distance) name) :
    fs.holderAt? i distance name = none :=
  if_neg h

/-- A name that the frame at a distance holds is found there, assigned or not. -/
theorem getAt_ne_undefinedVariable (h : fs.holds (fs.ancestor i distance) name) (other : String) :
    fs.getAt i distance name ≠ .error (.undefinedVariable other) := by
  rw [getAt, holderAt?_of_holds h, readIn, read]
  rw [holds, Option.isSome_iff_exists] at h
  obtain ⟨slot, hslot⟩ := h
  rw [hslot]
  cases slot with
  | none => exact fun h => by cases h
  | some v => exact fun h => by cases h

end Frames

namespace Run

variable {m : Machine} {id distance : Nat} {name : Name}

theorem holderOf_resolved {name : String} (hdistance : m.distances.get? id = some distance) :
    m.holderOf .resolved id name = m.frames.holderAt? m.current distance name := by
  rw [Machine.holderOf, hdistance]

theorem not_endsUnbound_readVariable (hdistance : m.distances.get? id = some distance)
    (hholds : m.frames.holds (m.frames.ancestor m.current distance) name.text) :
    ¬ EndsUnbound (readVariable .resolved id name) m := by
  rw [readVariable, endsUnbound_get_bind, endsUnbound_checked, holderOf_resolved hdistance]
  rintro ⟨other, h⟩
  exact m.frames.getAt_ne_undefinedVariable hholds other h

theorem endsUnbound_assignVariable (hdistance : m.distances.get? id = some distance) {v : Value} :
    EndsUnbound (assignVariable .resolved id name v) m ↔
      ¬ m.frames.holds (m.frames.ancestor m.current distance) name.text := by
  rw [assignVariable, endsUnbound_get_bind, holderOf_resolved hdistance]
  by_cases hholds : m.frames.holds (m.frames.ancestor m.current distance) name.text
  · rw [Frames.holderAt?_of_holds hholds]
    exact iff_of_false (fun ⟨_, _, _, h⟩ => nomatch h) (not_not_intro hholds)
  · rw [Frames.holderAt?_of_not_holds hholds]
    exact iff_of_true ⟨_, _, _, rfl⟩ hholds

/-- An assignment to a name that the frame at the recorded distance does not hold. -/
theorem assignVariable_of_not_holds (hdistance : m.distances.get? id = some distance)
    (hholds : ¬ m.frames.holds (m.frames.ancestor m.current distance) name.text) (v : Value) :
    assignVariable .resolved id name v m =
      .error (.raised ⟨.undefinedVariable name.text, name.line⟩) m := by
  rw [assignVariable, get_bind_apply, holderOf_resolved hdistance,
    Frames.holderAt?_of_not_holds hholds]
  rfl

theorem not_endsUnbound_bindReceiver (f : Closure) (v : Value) : ¬ EndsUnbound (bindReceiver f v) m :=
  fun ⟨_, _, _, h⟩ => nomatch h

/-- A method of a superclass is looked up in frames that hold the superclass and the receiver. -/
theorem not_endsUnbound_superMethod {line inward : Nat} {method : Name}
    (hdistance : m.distances.get? id = some (inward + 1))
    (hsuper : m.frames.holds (m.frames.ancestor m.current (inward + 1)) "super")
    (hthis : m.frames.holds (m.frames.ancestor m.current inward) "this") :
    ¬ EndsUnbound (superMethod id line method) m := by
  rw [superMethod, endsUnbound_get_bind]
  simp only [hdistance, Nat.add_sub_cancel]
  intro h
  rcases endsUnbound_bind.mp h with h | ⟨parent, m', -, h⟩
  · obtain ⟨other, hother⟩ := endsUnbound_checked.mp h
    exact Frames.getAt_ne_undefinedVariable hsuper other hother
  rcases endsUnbound_bind.mp h with h | ⟨receiver, m'', -, h⟩
  · obtain ⟨other, hother⟩ := endsUnbound_checked.mp h
    exact Frames.getAt_ne_undefinedVariable hthis other hother
  split at h
  · split at h
    · rcases endsUnbound_bind.mp h with h | ⟨f, m₁, -, h⟩
      · exact not_endsUnbound_bindReceiver _ _ h
      · exact not_endsUnbound_pure _ h
    · simp at h
  · simp at h

end Run

end Treewalk
