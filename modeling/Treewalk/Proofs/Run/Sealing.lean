import Mathlib
import Treewalk.Frame

/-!
# Sealed frames

A frame that binds `this` is made for one receiver, and a frame that binds `super` for one class with
a superclass. Such frames are *sealed*: they bind nothing else, and they are never written again.

## Main definitions

* `Frames.BindsOnly`: frames with a single binding.
* `Frames.Sealed`, `Frames.KeptIn`: sealed frames, and later frames that leave them as they are.
* `Frames.addBinding`: a new frame with a single binding.

## Main results

* `Frames.KeptIn.write`, `Frames.KeptIn.addBinding`: what may be written.
* `Frames.KeptIn.trans`, `Frames.KeptIn.slot?_eq`: sealed frames over time.
-/

namespace Treewalk

namespace Frames

/-! ### Names that frames hold -/

theorem holds_write (fs : Frames) {i : Nat} (hi : i < fs.size) (j : Nat)
    (name other : String) (slot : Option Value) :
    (fs.write i name slot).holds j other ↔ (i = j ∧ name = other) ∨ fs.holds j other := by
  rw [holds, fs.slot?_write hi]
  split
  · next h => simp [h]
  · next h => simp [h, holds]

theorem not_holds_of_le (fs : Frames) {i : Nat} (hi : fs.size ≤ i) (name : String) :
    ¬ fs.holds i name := by
  simp [holds, slot?, Array.getElem?_eq_none hi]

theorem lt_size_of_holds {fs : Frames} {i : Nat} {name : String} (h : fs.holds i name) :
    i < fs.size :=
  Nat.lt_of_not_le fun hi => fs.not_holds_of_le hi name h

theorem holds_of_slot? {fs : Frames} {i : Nat} {name : String} {slot : Option Value}
    (h : fs.slot? i name = some slot) : fs.holds i name := by
  rw [holds, h]
  rfl

/-- What is found at a distance is in the frame that lies so far outward. -/
theorem slot?_of_getAt {fs : Frames} {i distance : Nat} {name : String} {v : Value}
    (h : fs.getAt i distance name = .ok v) :
    fs.slot? (fs.ancestor i distance) name = some (some v) := by
  unfold getAt holderAt? at h
  by_cases hholds : fs.holds (fs.ancestor i distance) name
  · rw [if_pos hholds, readIn, read] at h
    rcases hslot : fs.slot? (fs.ancestor i distance) name with _ | _ | w
    · rw [hslot] at h
      cases h
    · rw [hslot] at h
      cases h
    · rw [hslot] at h
      cases h
      rfl
  · rw [if_neg hholds] at h
    cases h

/-- One step further outward. -/
theorem ancestor_succ (fs : Frames) (i distance : Nat) : fs.ancestor i (distance + 1) =
    (fs.enclosing? (fs.ancestor i distance)).getD (fs.ancestor i distance) := by
  induction distance generalizing i with
  | zero => cases h : fs.enclosing? i <;> simp [ancestor, h]
  | succ distance ih =>
    rw [ancestor, ancestor]
    cases h : fs.enclosing? i with
    | none => simp [h]
    | some j => exact ih j

/-! ### Frames with a single binding -/

/-- A frame binds a name to a value, and nothing else. -/
def BindsOnly (fs : Frames) (i : Nat) (name : String) (v : Value) : Prop :=
  ∀ other, fs.slot? i other = if other = name then some (some v) else none

/-- Adds a frame with a single binding. Its number is the size of the table before. -/
def addBinding (fs : Frames) (enclosing : Nat) (name : String) (v : Value) : Frames :=
  (fs.add (some enclosing)).write fs.size name (some v)

namespace BindsOnly

variable {fs fs' : Frames} {i : Nat} {name : String} {v w : Value}

theorem of_slots (h : fs.BindsOnly i name v)
    (heq : ∀ other, fs'.slot? i other = fs.slot? i other) : fs'.BindsOnly i name v :=
  fun other => (heq other).trans (h other)

theorem slot?_eq (h : fs.BindsOnly i name v) : fs.slot? i name = some (some v) := by
  rw [h name, if_pos rfl]

theorem holds_iff (h : fs.BindsOnly i name v) {other : String} :
    fs.holds i other ↔ other = name := by
  rw [holds, h other]
  split <;> simp_all

theorem read_eq (h : fs.BindsOnly i name v) : fs.read i name = .ok v := by
  rw [read, h.slot?_eq]

end BindsOnly

section AddBinding

variable (fs : Frames) (enclosing : Nat) (name : String) (v : Value)

@[simp] theorem size_addBinding : (fs.addBinding enclosing name v).size = fs.size + 1 := by
  rw [addBinding, size_write, size_add]

theorem enclosing?_addBinding (i : Nat) : (fs.addBinding enclosing name v).enclosing? i =
    if i = fs.size then some enclosing else fs.enclosing? i := by
  rw [addBinding, enclosing?_write, enclosing?_add]

theorem slot?_addBinding (i : Nat) (other : String) :
    (fs.addBinding enclosing name v).slot? i other =
      if i = fs.size then if other = name then some (some v) else none else fs.slot? i other := by
  have hsize : fs.size < (fs.add (some enclosing)).size := by
    rw [size_add]
    exact Nat.lt_succ_self _
  rw [addBinding, slot?_write _ hsize, slot?_add]
  by_cases hi : i = fs.size
  · subst hi
    simp [eq_comm]
  · simp [hi, Ne.symm hi]

theorem bindsOnly_addBinding : (fs.addBinding enclosing name v).BindsOnly fs.size name v := by
  intro other
  rw [slot?_addBinding, if_pos rfl]

end AddBinding

/-! ### Sealed frames -/

/-- A frame binds `this` or `super`. -/
def Sealed (fs : Frames) (i : Nat) : Prop :=
  fs.holds i "this" ∨ fs.holds i "super"

/-- The frames of before are among later ones. The sealed ones are as they were, and no others have
become sealed. -/
structure KeptIn (fs fs' : Frames) : Prop where
  size : fs.size ≤ fs'.size
  slots : ∀ i < fs.size, fs.Sealed i ∨ fs'.Sealed i → ∀ name, fs'.slot? i name = fs.slot? i name

variable {fs fs' fs'' : Frames} {i : Nat}

namespace Sealed

theorem lt_size (h : fs.Sealed i) : i < fs.size :=
  h.elim lt_size_of_holds lt_size_of_holds

theorem of_slots (h : fs.Sealed i) (heq : ∀ name, fs'.slot? i name = fs.slot? i name) :
    fs'.Sealed i := by
  unfold Sealed holds at h ⊢
  rwa [heq, heq]

/-- Names that are not reserved do not seal a frame. -/
theorem of_holds (h : fs'.Sealed i) (hnames : ∀ name, fs'.holds i name → fs.holds i name ∨
    name ≠ "this" ∧ name ≠ "super") : fs.Sealed i := by
  rcases h with h | h
  · exact .inl ((hnames _ h).resolve_right fun hne => hne.1 rfl)
  · exact .inr ((hnames _ h).resolve_right fun hne => hne.2 rfl)

end Sealed

namespace KeptIn

theorem refl (fs : Frames) : KeptIn fs fs :=
  ⟨Nat.le_refl _, fun _ _ _ _ => rfl⟩

theorem trans (h : KeptIn fs fs') (h' : KeptIn fs' fs'') : KeptIn fs fs'' where
  size := Nat.le_trans h.size h'.size
  slots i hi hsealed name := by
    have hi' := Nat.lt_of_lt_of_le hi h.size
    rcases hsealed with hsealed | hsealed
    · have heq := h.slots i hi (.inl hsealed)
      exact (h'.slots i hi' (.inl (hsealed.of_slots heq)) name).trans (heq name)
    · have heq := h'.slots i hi' (.inr hsealed)
      have hsealed' := hsealed.of_slots fun name => (heq name).symm
      exact (heq name).trans (h.slots i hi (.inr hsealed') name)

/-- Frames that are both kept in later ones agree about the sealed ones that they share. -/
theorem slot?_eq (h : KeptIn fs fs'') (h' : KeptIn fs' fs'') (hsealed : fs.Sealed i)
    (hi : i < fs'.size) (name : String) : fs'.slot? i name = fs.slot? i name := by
  have heq := h.slots i hsealed.lt_size (.inl hsealed)
  have heq' := h'.slots i hi (.inr (hsealed.of_slots heq))
  exact (heq' name).symm.trans (heq name)

/-- A frame that is not sealed may be written, except at reserved names. -/
theorem write (fs : Frames) {i : Nat} (hi : i < fs.size) (hunsealed : ¬ fs.Sealed i) {name : String}
    (hname : name ≠ "this" ∧ name ≠ "super") (slot : Option Value) :
    KeptIn fs (fs.write i name slot) where
  size := Nat.le_of_eq (fs.size_write i name slot).symm
  slots j _ hsealed other := by
    rw [fs.slot?_write hi, if_neg]
    rintro ⟨rfl, rfl⟩
    rcases hsealed with hsealed | hsealed
    · exact hunsealed hsealed
    · refine hunsealed (hsealed.of_holds fun other hother => ?_)
      rcases (fs.holds_write hi _ _ other slot).mp hother with ⟨-, rfl⟩ | hother
      · exact .inr hname
      · exact .inl hother

theorem add (fs : Frames) (enclosing : Option Nat) : KeptIn fs (fs.add enclosing) where
  size := by
    rw [size_add]
    exact Nat.le_succ _
  slots i hi _ name := by rw [slot?_add, if_neg (Nat.ne_of_lt hi)]

theorem addBinding (fs : Frames) (enclosing : Nat) (name : String) (v : Value) :
    KeptIn fs (fs.addBinding enclosing name v) where
  size := by
    rw [size_addBinding]
    exact Nat.le_succ _
  slots i hi _ other := by rw [slot?_addBinding, if_neg (Nat.ne_of_lt hi)]

end KeptIn

end Frames

end Treewalk
