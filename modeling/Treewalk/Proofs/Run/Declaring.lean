import Treewalk.Proofs.Run.Activation
import Treewalk.Proofs.Run.Order

/-!
# Declarations of classes

A class is made by the declaration of a class to which a run has come. The declaration says how the
class looks: its name, the superclass that has been found, and its methods, of which the last one of a
name counts. The methods close over the frame in which the class is declared or, with a superclass,
over a new frame inside it.

From a class upward one comes from each class to the one that its declaration has found, and in the end
to a class without a superclass.

## Main definitions

* `methodTable`: the methods of a class as its declaration makes them.
* `Declaration`, `Machine.DeclaredBy`: a declaration to which a run has come, and the class that it has
  made.
* `Machine.Ancestry`: the classes from a class upward.

## Main results

* `declareClass_apply`: what the declaration of a class does.
* `get?_methodTable`: the method that counts under a name.
* `Machine.Descends.ancestry`: lineages end, at a class without a superclass.
-/

namespace Treewalk

open Run

/-! ### Methods -/

/-- The methods that close over a frame, added to a table; the first of them has the number `id`. -/
def methodTable (frame : Nat) : (id : Nat) → List FunctionDecl → Bindings Closure → Bindings Closure
  | _, [], table => table
  | id, d :: ds, table =>
    methodTable frame (id + 1) ds
      (table.insert d.name.text ⟨id, d, frame, d.name.text == initializerName⟩)

theorem makeMethods_apply (frame : Nat) (methods : List FunctionDecl) (table : Bindings Closure)
    (m : Machine) : makeMethods frame methods table m =
      .ok (methodTable frame m.closures methods table)
        { m with closures := m.closures + methods.length } := by
  induction methods generalizing table m with
  | nil => rfl
  | cons d methods ih =>
    refine (ih _ { m with closures := m.closures + 1 }).trans ?_
    simp only [methodTable, List.length_cons, Nat.add_assoc, Nat.add_comm 1]

/-- Among methods the last one of a name, as the function that a declaration makes of it: the first
method has the number `id`. -/
def LastNamed (name : String) (methods : List FunctionDecl) (frame id : Nat) (f : Closure) : Prop :=
  ∃ before d after, methods = before ++ d :: after ∧ d.name.text = name ∧
    (∀ d' ∈ after, d'.name.text ≠ name) ∧
    f = ⟨id + before.length, d, frame, name == initializerName⟩

theorem lastNamed_cons {name : String} {d : FunctionDecl} {methods : List FunctionDecl}
    {frame id : Nat} {f : Closure} : LastNamed name (d :: methods) frame id f ↔
      LastNamed name methods frame (id + 1) f ∨ d.name.text = name ∧
        (∀ d' ∈ methods, d'.name.text ≠ name) ∧ f = ⟨id, d, frame, name == initializerName⟩ := by
  constructor
  · rintro ⟨before, d', after, heq, hname, hafter, rfl⟩
    cases before with
    | nil =>
      cases heq
      exact .inr ⟨hname, hafter, rfl⟩
    | cons e before =>
      cases heq
      refine .inl ⟨before, d', after, rfl, hname, hafter, ?_⟩
      rw [List.length_cons, Nat.add_right_comm, Nat.add_assoc]
  · rintro (⟨before, d', after, rfl, hname, hafter, rfl⟩ | ⟨hname, hafter, rfl⟩)
    · refine ⟨d :: before, d', after, rfl, hname, hafter, ?_⟩
      rw [List.length_cons, Nat.add_right_comm, Nat.add_assoc]
    · exact ⟨[], d, methods, rfl, hname, hafter, rfl⟩

/-- In a table of methods the last one of a name counts, and then what was there before. -/
theorem get?_methodTable {frame id : Nat} {methods : List FunctionDecl} {table : Bindings Closure}
    {name : String} {f : Closure} :
    (methodTable frame id methods table).get? name = some f ↔
      LastNamed name methods frame id f ∨
        (∀ d ∈ methods, d.name.text ≠ name) ∧ table.get? name = some f := by
  induction methods generalizing id table with
  | nil => simp [methodTable, LastNamed]
  | cons d methods ih =>
    rw [methodTable, ih, lastNamed_cons, Bindings.get?_insert, List.forall_mem_cons]
    by_cases hname : d.name.text = name
    · simp [hname, eq_comm]
    · simp [hname]

theorem get?_methodTable_eq_none {frame id : Nat} {methods : List FunctionDecl}
    {table : Bindings Closure} {name : String} :
    (methodTable frame id methods table).get? name = none ↔
      (∀ d ∈ methods, d.name.text ≠ name) ∧ table.get? name = none := by
  induction methods generalizing id table with
  | nil => simp [methodTable]
  | cons d methods ih =>
    rw [methodTable, ih, Bindings.get?_insert, List.forall_mem_cons]
    by_cases hname : d.name.text = name
    · simp [hname]
    · simp [hname]

/-! ### Declarations -/

/-- A declaration of a class to which a run has come, on a machine on which the superclass, if there is
one, has a class as its value. -/
structure Declaration (came : Node → Machine → Prop) where
  /-- The name of the class. -/
  name : Name
  /-- Its superclass. -/
  superclass : Option Superclass
  /-- Its methods. -/
  methods : List FunctionDecl
  /-- The machine on which the declaration begins to be executed. -/
  start : Machine
  /-- The class that the superclass has as its value there. -/
  parent : Option Nat
  comes : came (.stmt (.class name superclass methods)) start
  value : superclass.map (fun s => evaluate .resolved 1 s.expr start) =
    parent.map fun p => .ok (.cls p) start

namespace Declaration

variable {came came' : Node → Machine → Prop} (δ : Declaration came)

/-- The class that is made. -/
def made : Nat :=
  δ.start.classes.size

/-- The frame that the methods close over: the one in which the class is declared or, with a
superclass, a new one. -/
def frame : Nat :=
  δ.parent.elim δ.start.current fun _ => δ.start.frames.size

/-- How the class looks. -/
def info : ClassInfo :=
  ⟨δ.name.text, δ.parent, methodTable δ.frame δ.start.closures δ.methods []⟩

/-- The declaration contains a method of a name. -/
def Contains (name : String) : Prop :=
  ∃ d ∈ δ.methods, d.name.text = name

/-- The method that counts under a name, as the declaration makes it. -/
def Provides (name : String) (f : Closure) : Prop :=
  LastNamed name δ.methods δ.frame δ.start.closures f

theorem methods_get?_info {name : String} {f : Closure} :
    δ.info.methods.get? name = some f ↔ δ.Provides name f := by
  have hnone : ¬ Bindings.get? [] name = some f := nofun
  rw [info, get?_methodTable, or_iff_left fun h => hnone h.2]
  rfl

theorem methods_get?_info_eq_none {name : String} :
    δ.info.methods.get? name = none ↔ ¬ δ.Contains name := by
  rw [info, get?_methodTable_eq_none, Contains]
  simp [Bindings.get?]

/-- A declaration to which a run has come belongs to a longer history. -/
def mono (h : ∀ node m, came node m → came' node m) : Declaration came' :=
  ⟨δ.name, δ.superclass, δ.methods, δ.start, δ.parent, h _ _ δ.comes, δ.value⟩

theorem Provides.isInitializer {name : String} {f : Closure} (h : δ.Provides name f) :
    f.isInitializer = (name == initializerName) := by
  obtain ⟨before, d, after, -, -, -, rfl⟩ := h
  rfl

end Declaration

/-- A class on a machine that a declaration has made. -/
structure Machine.DeclaredBy {came : Node → Machine → Prop} (m : Machine) (c : Nat)
    (δ : Declaration came) : Prop where
  made_eq : δ.made = c
  info_eq : m.classes[c]? = some δ.info

namespace Machine.DeclaredBy

variable {came : Node → Machine → Prop} {m : Machine} {c : Nat} {δ : Declaration came}
  (h : m.DeclaredBy c δ)

include h

theorem superclass?_eq : m.superclass? c = δ.parent := by
  rw [superclass?, h.info_eq]
  rfl

theorem ownMethod?_eq_some {name : String} {f : Closure} :
    m.ownMethod? c name = some f ↔ δ.Provides name f := by
  rw [ownMethod?, h.info_eq]
  exact δ.methods_get?_info

theorem ownMethod?_eq_none {name : String} : m.ownMethod? c name = none ↔ ¬ δ.Contains name := by
  rw [ownMethod?, h.info_eq]
  exact δ.methods_get?_info_eq_none

end Machine.DeclaredBy

/-! ### What a declaration does -/

/-- The machine after the name of a class has been bound, and the frame for its methods and the class
have been made. -/
def Machine.declaring (m : Machine) (name : Name) (superclass : Option Nat)
    (methods : List FunctionDecl) : Machine :=
  { m with
    frames := superclass.elim (m.frames.define m.current name.text .nil) fun c =>
      (m.frames.define m.current name.text .nil).addBinding m.current "super" (.cls c)
    closures := m.closures + methods.length
    classes := m.classes.push ⟨name.text, superclass, methodTable
      (superclass.elim m.current fun _ => m.frames.size) m.closures methods []⟩ }

theorem methodFrame_apply (superclass : Option Nat) (m : Machine) :
    methodFrame superclass m = .ok (superclass.elim m.current fun _ => m.frames.size)
      { m with frames := superclass.elim m.frames fun c =>
          m.frames.addBinding m.current "super" (.cls c) } := by
  cases superclass <;> rfl

/-- The declaration of a class makes it and assigns it to its name. -/
theorem declareClass_apply (name : Name) (superclass : Option Nat) (methods : List FunctionDecl)
    (m : Machine) : declareClass name superclass methods m =
      assignIn ((m.declaring name superclass methods).frames.holder? m.current name.text) name
        (.cls m.classes.size) (m.declaring name superclass methods) := by
  have hsize : (m.frames.define m.current name.text .nil).size = m.frames.size := Frames.size_write ..
  have hdefine : define name.text .nil m =
      .ok () { m with frames := m.frames.define m.current name.text .nil } := rfl
  have hmethods := makeMethods_apply (superclass.elim m.current fun _ => m.frames.size) methods []
  rw [declareClass, Run.bind_of_ok hdefine, Run.bind_of_ok (methodFrame_apply superclass _)]
  simp only [hsize]
  rw [Run.bind_of_ok (hmethods _)]
  rfl

/-! ### The classes from a class upward -/

/-- The classes from a class upward: each class, then its superclass, and in the end a class without
one. -/
inductive Machine.Ancestry (m : Machine) : Nat → List Nat → Prop
  | root {c : Nat} (h : m.superclass? c = none) : Ancestry m c [c]
  | step {c p : Nat} {rest : List Nat} (h : m.superclass? c = some p) (hrest : Ancestry m p rest) :
    Ancestry m c (c :: rest)

namespace Machine.Descends

variable {m : Machine} {c k : Nat}

theorem ancestry_lineageFrom (h : m.Descends) {bound : Nat} (hc : c < bound) :
    m.Ancestry c (m.lineageFrom bound c) := by
  induction bound generalizing c with
  | zero => exact absurd hc (Nat.not_lt_zero c)
  | succ bound ih =>
    rw [lineageFrom]
    cases hp : m.superclass? c with
    | none => exact .root hp
    | some p =>
      have hlt := h.superclass c p hp
      exact .step hp (ih (Nat.lt_of_lt_of_le hlt (Nat.le_of_lt_succ hc)))

/-- From a class upward one comes to an end. -/
theorem ancestry (h : m.Descends) (hc : c < m.classes.size) : m.Ancestry c (m.lineage c) :=
  h.ancestry_lineageFrom hc

theorem le_of_mem_ancestry (h : m.Descends) {l : List Nat} (hl : m.Ancestry c l) (hk : k ∈ l) :
    k ≤ c := by
  induction hl with
  | root => exact Nat.le_of_eq (List.mem_singleton.mp hk)
  | step hp _ ih =>
    rcases List.mem_cons.mp hk with rfl | hk
    · exact Nat.le_refl _
    · exact Nat.le_trans (ih hk) (Nat.le_of_lt (h.superclass _ _ hp))

/-- Each class comes before those that were made earlier, so that none comes twice. -/
theorem pairwise_ancestry (h : m.Descends) {l : List Nat} (hl : m.Ancestry c l) :
    l.Pairwise fun j k => k < j := by
  induction hl with
  | root => exact List.pairwise_singleton _ _
  | step hp hrest ih =>
    refine .cons (fun k hk => ?_) ih
    exact Nat.lt_of_le_of_lt (h.le_of_mem_ancestry hrest hk) (h.superclass _ _ hp)

end Machine.Descends

end Treewalk
