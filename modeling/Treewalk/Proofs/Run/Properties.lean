import Treewalk.Proofs.Run.Construction

/-!
# Properties of objects

An object has a *property* under a name: a field, or else the method that its class has under that name,
its own or that of the nearest superclass. To ask for a field gives its value. To ask for a method binds
it: a function is made that closes over a new frame, in which `this` is the object, inside the frame that
the method closes over.

A field that is written is a property from then on, and hides a method of its name. All other properties
stay what they were, those of the same object under other names and those of other objects, since neither
classes nor frames change. To bind a method changes no property.

## Main definitions

* `Property`, `Machine.property?`: fields and methods.
* `Machine.withField`: the machine with a field written.
* `Closure.BoundAs`: a method that is bound to an object.

## Main results

* `Machine.property?_withField`: what is a property after a field has been written.
* `Run.property_eq`: what it gives to ask for a property.
* `Run.property_withField`: what it gives after a field has been written.
* `Ordered.stored_frame_lt`: a function that is bound is not among those that are stored.
-/

namespace Treewalk

/-- What an object has under a name. -/
inductive Property
  /-- A field with its value. -/
  | field (v : Value)
  /-- A method, which no field hides. -/
  | method (f : Closure)

namespace Machine

/-- The property of an object under a name: a field, or else the method that is found from its class
upward. -/
def property? (m : Machine) (i : Nat) (name : String) : Option Property :=
  ((m.field? i name).map .field).or
    (((m.classOf? i).bind fun c => m.findMethod? c name).map .method)

/-- The machine with a field of an object written. -/
def withField (m : Machine) (i : Nat) (name : String) (v : Value) : Machine :=
  { m with objects := m.objects.modify i fun o => { o with fields := o.fields.insert name v } }

variable {m : Machine} {i j c : Nat} {name other : String} {v : Value} {f : Closure}

theorem property?_of_field (h : m.field? i name = some v) :
    m.property? i name = some (.field v) := by
  rw [property?, h, Option.map_some, Option.some_or]

/-- Where no field hides it, a method of the class is a property. -/
theorem property?_of_no_field (h : m.field? i name = none) (hc : m.classOf? i = some c) :
    m.property? i name = (m.findMethod? c name).map .method := by
  rw [property?, h, Option.map_none, Option.none_or, hc, Option.bind_some]

/-- The first class of a lineage that has a method of a name is where the method is found. -/
theorem findMethod?_of_nearest {nearer further : List Nat}
    (hlineage : m.lineage c = nearer ++ j :: further)
    (hnearer : ∀ k ∈ nearer, m.ownMethod? k name = none) (hown : m.ownMethod? j name = some f) :
    m.findMethod? c name = some f := by
  rw [findMethod?, hlineage]
  exact List.findSome?_eq_some_iff.mpr ⟨nearer, j, further, rfl, hown, hnearer⟩

@[simp] theorem classOf?_withField (m : Machine) (i j : Nat) (name : String) (v : Value) :
    (m.withField i name v).classOf? j = m.classOf? j := by
  simp only [withField, classOf?, Array.getElem?_modify]
  split
  · rw [Option.map_map]
    rfl
  · rfl

/-- The field that is written is a property, and every other property is what it was. -/
theorem property?_withField (hi : i < m.objects.size) (name : String) (v : Value) (j : Nat)
    (other : String) : (m.withField i name v).property? j other =
      if j = i ∧ other = name then some (.field v) else m.property? j other := by
  have hfield : (m.withField i name v).field? j other =
      if i = j ∧ name = other ∧ i < m.objects.size then some v else m.field? j other :=
    Run.field?_modify m i j name other v
  have hclasses : (m.withField i name v).classes = m.classes := rfl
  by_cases h : j = i ∧ other = name
  · rw [if_pos h]
    refine property?_of_field (hfield.trans (if_pos ?_))
    exact ⟨h.1.symm, h.2.symm, hi⟩
  · rw [if_neg fun hsame => h ⟨hsame.1.symm, hsame.2.1.symm⟩] at hfield
    simp only [property?, hfield, classOf?_withField, findMethod?_congr hclasses, if_neg h]

/-- To bind a method changes no property. -/
theorem property?_withBound (m : Machine) (f : Closure) (receiver : Value) (i : Nat)
    (name : String) : (m.withBound f receiver).property? i name = m.property? i name := by
  have hclasses : (m.withBound f receiver).classes = m.classes := rfl
  have hobjects : (m.withBound f receiver).objects = m.objects := rfl
  simp only [property?, field?, classOf?, hobjects, findMethod?_congr hclasses]

end Machine

/-! ### Asking for properties -/

namespace Run

/-- An outcome with a change made to the machine that is left. -/
def mapMachine {α : Type} (change : Machine → Machine) :
    EStateM.Result Interrupt Machine α → EStateM.Result Interrupt Machine α
  | .ok a m => .ok a (change m)
  | .error e m => .error e (change m)

/-- A field gives its value, a method is bound to the object, and without either the machine is left as
it is. -/
theorem property_eq (m : Machine) (i : Nat) (name : Name) :
    property i name m = match m.property? i name.text with
      | some (.field v) => .ok v m
      | some (.method f) => .ok (.function (f.boundOn m)) (m.withBound f (.object i))
      | none => .error (.raised ⟨.undefinedProperty name.text, name.line⟩) m := by
  rw [property, get_bind_apply, Machine.property?]
  cases hfield : m.field? i name.text with
  | some v => rfl
  | none =>
    cases hmethod : (m.classOf? i).bind fun c => m.findMethod? c name.text with
    | none => rfl
    | some f => rfl

/-- After a field has been written, to ask for it gives its value, and to ask for anything else gives
what it gave before. -/
theorem property_withField {m : Machine} {i : Nat} (hi : i < m.objects.size) (name : String)
    (v : Value) (j : Nat) (other : Name) :
    property j other (m.withField i name v) =
      if j = i ∧ other.text = name then .ok v (m.withField i name v)
      else mapMachine (·.withField i name v) (property j other m) := by
  rw [property_eq, Machine.property?_withField hi]
  by_cases h : j = i ∧ other.text = name
  · rw [if_pos h, if_pos h]
  · rw [if_neg h, if_neg h, property_eq]
    rcases m.property? j other.text with _ | w | f <;> rfl

end Run

section Evaluate

variable {fuel i : Nat} {object value : Expr} {name : Name} {m₀ m m₁ : Machine} {v : Value}

/-- An expression whose value is an object is as good as any other for asking the object. -/
theorem evaluate_get_eq (h : evaluate .resolved fuel object m₀ = .ok (.object i) m) (name : Name) :
    evaluate .resolved (fuel + 1) (.get object name) m₀ = Run.property i name m :=
  Run.bind_of_ok h

theorem evaluate_set_eq (hobject : evaluate .resolved fuel object m₀ = .ok (.object i) m)
    (hvalue : evaluate .resolved fuel value m = .ok v m₁) (name : Name) :
    evaluate .resolved (fuel + 1) (.set object name value) m₀ =
      .ok v (m₁.withField i name.text v) :=
  (Run.bind_of_ok hobject).trans (Run.bind_of_ok hvalue)

/-- An expression that is evaluated takes no object away. -/
theorem Machine.Founded.objects_le_of_evaluate {k : Nat} {e : Expr} {m' : Machine}
    (h : m.Founded fun _ _ => True) (hv : evaluate .resolved k e m = .ok v m') :
    m.objects.size ≤ m'.objects.size := by
  have hleaves := ((evaluators_uphold k).evaluate (e := e) h).leaves
  change Uphold _ _ _ (evaluate .resolved k e m) at hleaves
  rw [hv] at hleaves
  exact hleaves.2.1

/-- Where the value of a property is found, the object has been found before. -/
theorem exists_object_of_get {m₂ : Machine} {k : Nat}
    (h : evaluate .resolved k (.get object name) m₀ = .ok v m₂) :
    ∃ k' i m, evaluate .resolved k' object m₀ = .ok (.object i) m ∧
      Run.property i name m = .ok v m₂ := by
  cases k with
  | zero => cases h
  | succ k =>
    obtain ⟨w, m, hobject, h⟩ := Run.exists_of_bind h
    cases w with
    | object i => exact ⟨k, i, m, hobject, h⟩
    | _ => cases h

end Evaluate

/-! ### Methods that are bound -/

/-- On the machine `m`, which becomes `m'`, the method `f` is bound to an object as the function `g`.
This is a function of the same declaration, and an initializer just if the method is one. It closes over
a frame that is made for it inside the one that the method closes over, and that binds `this` to the
object and nothing else. Apart from this frame the machine stays as it was. -/
structure Closure.BoundAs (f g : Closure) (i : Nat) (m m' : Machine) : Prop where
  decl_eq : g.decl = f.decl
  isInitializer_eq : g.isInitializer = f.isInitializer
  frame_eq : g.frame = m.frames.size
  binds : m'.frames.BindsOnly g.frame "this" (.object i)
  enclosing : m'.frames.enclosing? g.frame = some f.frame
  size_eq : m'.frames.size = m.frames.size + 1
  before : ∀ j < m.frames.size, m'.frames[j]? = m.frames[j]?
  rest : m' = { m with frames := m'.frames, closures := m'.closures }

namespace Frames

/-- A new frame with a binding leaves the others as they are. -/
theorem getElem?_addBinding (fs : Frames) (enclosing : Nat) (name : String) (v : Value) {j : Nat}
    (hj : j < fs.size) : (fs.addBinding enclosing name v)[j]? = fs[j]? := by
  rw [addBinding, write, Array.getElem?_modify, if_neg (Nat.ne_of_gt hj), add, Array.getElem?_push,
    if_neg (Nat.ne_of_lt hj)]

end Frames

theorem Closure.boundAs_boundOn (f : Closure) (i : Nat) (m : Machine) :
    f.BoundAs (f.boundOn m) i m (m.withBound f (.object i)) where
  decl_eq := rfl
  isInitializer_eq := rfl
  frame_eq := rfl
  binds := m.frames.bindsOnly_addBinding f.frame "this" (.object i)
  enclosing := (m.frames.enclosing?_addBinding f.frame "this" (.object i) _).trans (if_pos rfl)
  size_eq := m.frames.size_addBinding f.frame "this" (.object i)
  before _ := m.frames.getElem?_addBinding f.frame "this" (.object i)
  rest := rfl

namespace Ordered

variable {W : World} {ds : Distances} {plan : Plan} {m : Machine}

/-- A function that has come about closes over a frame that is there. -/
theorem frame_lt_size (ho : Ordered W ds plan m) {g : Closure} (hg : g.Placed W m.frames plan) :
    g.frame < m.frames.size := by
  obtain ⟨σ, -, hlies, -⟩ := hg
  exact hlies.lt_size ho.global

/-- So does one that is stored, which is therefore none that is still to be bound. -/
theorem stored_frame_lt (ho : Ordered W ds plan m) {g : Closure} (h : m.Stores (.function g)) :
    g.frame < m.frames.size := by
  rcases h with ⟨i, name, hg⟩ | ⟨i, name, hg⟩
  · exact ho.frame_lt_size (ho.slots i name _ hg)
  · exact ho.frame_lt_size (ho.fields i name _ hg)

end Ordered

end Treewalk
