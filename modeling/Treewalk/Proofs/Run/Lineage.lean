import Mathlib
import Treewalk.Machine

/-!
# Lineages

A class is made after its superclass, so the way from a class upward ends, and it is never longer than
the table of classes. What has been said of a class and of an object stays true: classes are only
added, and an object keeps its class.

A method *suits* a receiver if the class of the receiver or one of its superclasses has it.

## Main definitions

* `Machine.Descends`: machines on which superclasses are made first.
* `Machine.Keeps`: later machines with the same classes.
* `Machine.Receives`, `Machine.Inherits`: receivers that a method suits, and where they have it from.

## Main results

* `Machine.Descends.lineage_trans`: a superclass of a superclass is one.
* `Machine.Keeps.receives`: a method suits a receiver for good.
-/

namespace Treewalk

namespace Machine

/-- Superclasses are made first, and objects are made of classes. -/
structure Descends (m : Machine) : Prop where
  superclass : ∀ k c, m.superclass? k = some c → c < k
  classOf : ∀ o c, m.classOf? o = some c → c < m.classes.size

/-- A later machine: classes are as they were, and objects have the classes that they had. -/
structure Keeps (m m' : Machine) : Prop where
  size : m.classes.size ≤ m'.classes.size
  superclass : ∀ k < m.classes.size, m'.superclass? k = m.superclass? k
  method : ∀ k < m.classes.size, ∀ name, m'.ownMethod? k name = m.ownMethod? k name
  classOf : ∀ o c, m.classOf? o = some c → m'.classOf? o = some c

/-- A receiver is an object, and its class or one of its superclasses has the method `f`. -/
def Receives (m : Machine) (receiver : Value) (f : Closure) : Prop :=
  ∃ o c k name, receiver = .object o ∧ m.classOf? o = some c ∧ k ∈ m.lineage c ∧
    m.ownMethod? k name = some f

/-- An object has the method `f` from the class `k`, its class or a superclass of it, and the class
above `k` is `p`. -/
structure Inherits (m : Machine) (o : Nat) (f : Closure) (k p : Nat) : Prop where
  descends : ∃ c, m.classOf? o = some c ∧ k ∈ m.lineage c
  method : ∃ name, m.ownMethod? k name = some f
  superclass : m.superclass? k = some p

variable {m m' : Machine} {o c k p : Nat} {f : Closure}

theorem lt_size_of_superclass? (h : m.superclass? k = some c) : k < m.classes.size := by
  obtain ⟨info, hinfo, -⟩ := Option.bind_eq_some_iff.mp h
  exact (Array.getElem?_eq_some_iff.mp hinfo).1

theorem lt_size_of_ownMethod? {name : String} (h : m.ownMethod? k name = some f) :
    k < m.classes.size := by
  obtain ⟨info, hinfo, -⟩ := Option.bind_eq_some_iff.mp h
  exact (Array.getElem?_eq_some_iff.mp hinfo).1

theorem lt_size_of_classOf? (h : m.classOf? o = some c) : o < m.objects.size := by
  obtain ⟨info, hinfo, -⟩ := Option.map_eq_some_iff.mp h
  exact (Array.getElem?_eq_some_iff.mp hinfo).1

theorem mem_lineageFrom_succ {bound : Nat} : k ∈ m.lineageFrom (bound + 1) c ↔
    k = c ∨ ∃ p, m.superclass? c = some p ∧ k ∈ m.lineageFrom bound p := by
  rw [lineageFrom, List.mem_cons]
  cases m.superclass? c <;> simp

namespace Descends

/-- With a class its superclass is in a lineage. -/
theorem superclass_mem (h : m.Descends) {bound : Nat} (hc : c < bound)
    (hk : k ∈ m.lineageFrom bound c) (hp : m.superclass? k = some p) :
    p ∈ m.lineageFrom bound c := by
  induction bound generalizing c with
  | zero => exact absurd hc (Nat.not_lt_zero c)
  | succ bound ih =>
    rw [mem_lineageFrom_succ] at hk ⊢
    rcases hk with rfl | ⟨q, hq, hk⟩
    · refine .inr ⟨p, hp, ?_⟩
      have hlt := Nat.lt_of_lt_of_le (h.superclass _ _ hp) (Nat.le_of_lt_succ hc)
      obtain ⟨bound, rfl⟩ := Nat.exists_eq_succ_of_ne_zero (Nat.ne_zero_of_lt hlt)
      exact mem_lineageFrom_succ.mpr (.inl rfl)
    · have hlt := Nat.lt_of_lt_of_le (h.superclass _ _ hq) (Nat.le_of_lt_succ hc)
      exact .inr ⟨q, hq, ih hlt hk⟩

theorem lineageFrom_subset (h : m.Descends) {bound bound' : Nat} (hc : c < bound)
    (hk : k ∈ m.lineageFrom bound c) : m.lineageFrom bound' k ⊆ m.lineageFrom bound c := by
  induction bound' generalizing k with
  | zero => exact List.nil_subset _
  | succ bound' ih =>
    intro j hj
    rcases mem_lineageFrom_succ.mp hj with rfl | ⟨p, hp, hj⟩
    · exact hk
    · exact ih (h.superclass_mem hc hk hp) hj

/-- A superclass of a superclass is one. -/
theorem lineage_trans (h : m.Descends) (hc : c < m.classes.size) (hk : k ∈ m.lineage c)
    (hp : m.superclass? k = some p) : m.lineage p ⊆ m.lineage c :=
  h.lineageFrom_subset hc (h.superclass_mem hc hk hp)

end Descends

namespace Keeps

/-- Tables that stay as they are. -/
theorem of_eq (hclasses : m'.classes = m.classes) (hobjects : m'.objects = m.objects) :
    Keeps m m' where
  size := Nat.le_of_eq (by rw [hclasses])
  superclass k _ := by rw [superclass?, superclass?, hclasses]
  method k _ name := by rw [ownMethod?, ownMethod?, hclasses]
  classOf o c h := by rwa [classOf?, hobjects]

/-- A class is added. -/
theorem addClass (m : Machine) (info : ClassInfo) :
    Keeps m { m with classes := m.classes.push info } where
  size := by simp
  superclass k hk := by simp [superclass?, Array.getElem?_push, Nat.ne_of_lt hk]
  method k hk name := by simp [ownMethod?, Array.getElem?_push, Nat.ne_of_lt hk]
  classOf _ _ := id

/-- An object is added. -/
theorem addObject (m : Machine) (info : ObjectInfo) :
    Keeps m { m with objects := m.objects.push info } where
  size := Nat.le_refl _
  superclass _ _ := rfl
  method _ _ _ := rfl
  classOf o c h := by
    have hlt := lt_size_of_classOf? h
    rwa [classOf?, Array.getElem?_push, if_neg (Nat.ne_of_lt hlt)]

/-- Fields are not classes. -/
theorem setField (m : Machine) (i : Nat) (name : String) (v : Value) :
    Keeps m { m with
      objects := m.objects.modify i fun o => { o with fields := o.fields.insert name v } } where
  size := Nat.le_refl _
  superclass _ _ := rfl
  method _ _ _ := rfl
  classOf o c h := by
    rw [classOf?, Array.getElem?_modify]
    split
    · rw [Option.map_map]
      exact h
    · exact h

theorem mem_lineageFrom (h : Keeps m m') (hm : m.Descends) {bound bound' : Nat}
    (hbound : bound ≤ bound') (hc : c < m.classes.size) (hk : k ∈ m.lineageFrom bound c) :
    k ∈ m'.lineageFrom bound' c := by
  induction bound generalizing c bound' with
  | zero => exact absurd hk List.not_mem_nil
  | succ bound ih =>
    obtain ⟨bound', rfl⟩ := Nat.exists_eq_succ_of_ne_zero (Nat.ne_zero_of_lt hbound)
    rw [mem_lineageFrom_succ] at hk ⊢
    refine hk.imp_right fun ⟨p, hp, hk⟩ => ⟨p, (h.superclass c hc).trans hp, ?_⟩
    exact ih (Nat.le_of_succ_le_succ hbound) (Nat.lt_trans (hm.superclass _ _ hp) hc) hk

/-- A method suits a receiver for good. -/
theorem receives (h : Keeps m m') (hm : m.Descends) {receiver : Value}
    (hreceives : m.Receives receiver f) : m'.Receives receiver f := by
  obtain ⟨o, c, k, name, rfl, hc, hk, hf⟩ := hreceives
  refine ⟨o, c, k, name, rfl, h.classOf o c hc, ?_, ?_⟩
  · exact h.mem_lineageFrom hm h.size (hm.classOf o c hc) hk
  · exact (h.method k (lt_size_of_ownMethod? hf) name).trans hf

end Keeps

/-- The method that is found for an object suits it. -/
theorem Receives.of_findMethod? {name : String}
    (hc : m.classOf? o = some c) (hf : m.findMethod? c name = some f) :
    m.Receives (.object o) f := by
  obtain ⟨k, hk, hf⟩ := List.exists_of_findSome?_eq_some hf
  exact ⟨o, c, k, name, rfl, hc, hk, hf⟩

/-- A method that is found from the superclass on suits the object. -/
theorem Inherits.receives (h : m.Inherits o f k p) (hm : m.Descends) {name : String} {g : Closure}
    (hg : m.findMethod? p name = some g) : m.Receives (.object o) g := by
  obtain ⟨c, hc, hk⟩ := h.descends
  obtain ⟨j, hj, hg⟩ := List.exists_of_findSome?_eq_some hg
  exact ⟨o, c, j, name, rfl, hc, hm.lineage_trans (hm.classOf o c hc) hk h.superclass hj, hg⟩

end Machine

end Treewalk
