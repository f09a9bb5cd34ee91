import Treewalk.Evaluation
import Treewalk.Proofs.Relocation.Scoping

/-!
# Relocated machines

The functions on a machine carry their declarations with them. Two machines are the same up to a
relocation if whatever is looked up on the one is what is looked up on the other, with declarations
that have moved: frames, classes and objects keep their places, and texts stay the same.

## Main definitions

* `Value.relocate`: a value whose declaration, if it is a function, has moved.
* `Frames.Moved`, `Machine.Moved`: frames, and machines, after a relocation.
* `Machine.relocate`: the machine after a relocation.

## Main results

* `Machine.Moved.findMethod?`, `Machine.Moved.text`, `Machine.Moved.holderOf`: what is looked up on
  a machine after a relocation.
* `UnaryOp.apply_relocate`, `BinaryOp.apply_relocate`: the operators on relocated values.
* `Machine.moved_relocate`: every machine can be relocated.
-/

namespace Treewalk

section

variable (r : Relocation)

/-- A function whose declaration has moved. -/
def Closure.relocate (f : Closure) : Closure :=
  { f with decl := f.decl.relocate r }

/-- A value whose declaration, if it is a function, has moved. -/
def Value.relocate : Value → Value
  | .function f => .function (f.relocate r)
  | v => v

/-- A slot whose value has moved. -/
abbrev relocateSlot (slot : Option Value) : Option Value :=
  slot.map (Value.relocate r)

/-- The frames `fs'` are `fs` after a relocation. -/
structure Frames.Moved (fs fs' : Frames) : Prop where
  size : fs'.size = fs.size
  enclosing : ∀ i, fs'.enclosing? i = fs.enclosing? i
  slot : ∀ i name, fs'.slot? i name = (fs.slot? i name).map (relocateSlot r)

/-- The machine `m'` is `m` after a relocation. -/
structure Machine.Moved (m m' : Machine) : Prop where
  frames : Frames.Moved r m.frames m'.frames
  distances : Distances.Moved r m.distances m'.distances
  classCount : m'.classes.size = m.classes.size
  className : ∀ c, m'.className c = m.className c
  superclass : ∀ c, m'.superclass? c = m.superclass? c
  method : ∀ c name, m'.ownMethod? c name = (m.ownMethod? c name).map (Closure.relocate r)
  objectCount : m'.objects.size = m.objects.size
  classOf : ∀ i, m'.classOf? i = m.classOf? i
  field : ∀ i name, m'.field? i name = (m.field? i name).map (Value.relocate r)
  closures : m'.closures = m.closures
  current : m'.current = m.current
  input : m'.input = m.input
  output : m'.output = m.output
  clock : m'.clock = m.clock
  readings : m'.readings = m.readings

end

variable {r : Relocation}

/-! ### Frames -/

/-- A frame that is not there cannot be written to. -/
theorem Frames.slot?_write_of_le {fs : Frames} {i : Nat} (hi : fs.size ≤ i) (j : Nat)
    (name other : String) (slot : Option Value) :
    (fs.write i name slot).slot? j other = fs.slot? j other := by
  simp only [slot?, write, Array.getElem?_modify]
  split
  · next hij =>
    subst hij
    rw [Array.getElem?_eq_none hi]
    rfl
  · rfl

namespace Frames.Moved

variable {fs fs' : Frames} (h : Frames.Moved r fs fs')

include h

theorem holds (i : Nat) (name : String) : fs'.holds i name = fs.holds i name := by
  rw [Frames.holds, h.slot, Option.isSome_map, Frames.holds]

theorem chain (i : Nat) : fs'.chain i = fs.chain i := by
  have hfrom (bound i : Nat) : fs'.chainFrom bound i = fs.chainFrom bound i := by
    induction bound generalizing i with
    | zero => rfl
    | succ bound ih =>
      rw [chainFrom, chainFrom, h.enclosing]
      cases fs.enclosing? i with
      | none => rfl
      | some j => exact congrArg (i :: ·) (ih j)
  rw [Frames.chain, Frames.chain, h.size, hfrom]

theorem ancestor (i distance : Nat) : fs'.ancestor i distance = fs.ancestor i distance := by
  induction distance generalizing i with
  | zero => rfl
  | succ distance ih =>
    rw [Frames.ancestor, Frames.ancestor, h.enclosing]
    cases fs.enclosing? i with
    | none => rfl
    | some j => exact ih j

theorem holder? (i : Nat) (name : String) : fs'.holder? i name = fs.holder? i name := by
  simp only [Frames.holder?, h.chain, h.holds]

theorem holderAt? (i distance : Nat) (name : String) :
    fs'.holderAt? i distance name = fs.holderAt? i distance name := by
  simp only [Frames.holderAt?, h.ancestor, h.holds]

theorem readIn (holder : Option Nat) (name : String) :
    fs'.readIn holder name = (fs.readIn holder name).map (Value.relocate r) := by
  cases holder with
  | none => rfl
  | some i =>
    rw [Frames.readIn, Frames.readIn, Frames.read, Frames.read, h.slot]
    cases fs.slot? i name with
    | none => rfl
    | some slot => cases slot <;> rfl

theorem getAt (i distance : Nat) (name : String) :
    fs'.getAt i distance name = (fs.getAt i distance name).map (Value.relocate r) := by
  rw [Frames.getAt, h.holderAt?, h.readIn, Frames.getAt]

theorem add (enclosing : Option Nat) :
    Frames.Moved r (fs.add enclosing) (fs'.add enclosing) where
  size := by rw [size_add, size_add, h.size]
  enclosing i := by rw [enclosing?_add, enclosing?_add, h.size, h.enclosing]
  slot i name := by
    rw [slot?_add, slot?_add, h.size, h.slot]
    split <;> rfl

theorem write (i : Nat) (name : String) (slot : Option Value) :
    Frames.Moved r (fs.write i name slot) (fs'.write i name (relocateSlot r slot)) where
  size := by rw [size_write, size_write, h.size]
  enclosing j := by rw [enclosing?_write, enclosing?_write, h.enclosing]
  slot j other := by
    by_cases hi : i < fs.size
    · rw [slot?_write fs hi, slot?_write fs' (h.size ▸ hi), h.slot]
      split <;> rfl
    · have hi' : ¬ i < fs'.size := h.size ▸ hi
      rw [slot?_write_of_le (Nat.le_of_not_lt hi), slot?_write_of_le (Nat.le_of_not_lt hi'), h.slot]

end Frames.Moved

/-! ### Classes, objects and texts -/

namespace Machine.Moved

variable {m m' : Machine} (h : Machine.Moved r m m')

include h

theorem lineage (c : Nat) : m'.lineage c = m.lineage c := by
  have hfrom (bound c : Nat) : m'.lineageFrom bound c = m.lineageFrom bound c := by
    induction bound generalizing c with
    | zero => rfl
    | succ bound ih =>
      rw [lineageFrom, lineageFrom, h.superclass]
      cases m.superclass? c with
      | none => rfl
      | some c' => exact congrArg (c :: ·) (ih c')
  rw [Machine.lineage, Machine.lineage, h.classCount, hfrom]

theorem findMethod? (c : Nat) (name : String) :
    m'.findMethod? c name = (m.findMethod? c name).map (Closure.relocate r) := by
  rw [Machine.findMethod?, Machine.findMethod?, h.lineage, List.map_findSome?]
  congr 1
  funext c
  exact h.method c name

theorem arity? (v : Value) : m'.arity? (v.relocate r) = m.arity? v := by
  cases v with
  | function f => exact congrArg some (f.decl.arity_relocate r)
  | cls c =>
    simp only [Value.relocate, Machine.arity?, h.findMethod?]
    cases m.findMethod? c initializerName with
    | none => rfl
    | some f => exact congrArg some (f.decl.arity_relocate r)
  | _ => rfl

theorem text (v : Value) : m'.text (v.relocate r) = m.text v := by
  cases v with
  | bool b => cases b <;> rfl
  | function f =>
    simp only [Value.relocate, Closure.relocate, Machine.text, FunctionDecl.name_relocate,
      Name.text_relocate]
  | cls c => exact h.className c
  | object i =>
    simp only [Value.relocate, Machine.text, h.classOf]
    cases m.classOf? i with
    | none => rfl
    | some c => exact congrArg (· ++ " instance") (h.className c)
  | _ => rfl

/-- The frame that holds a name at a node that has moved. -/
theorem holderOf (lookup : Lookup) (id : Nat) (name : String) :
    m'.holderOf lookup (r.id id) name = m.holderOf lookup id name := by
  cases lookup with
  | chained => rw [Machine.holderOf, Machine.holderOf, h.current, h.frames.holder?]
  | resolved =>
    simp only [Machine.holderOf, h.distances id, h.current, h.frames.holderAt?, h.frames.holder?]

end Machine.Moved

/-! ### Operators -/

@[simp] theorem Value.isTruthy_relocate (v : Value) : (v.relocate r).isTruthy = v.isTruthy := by
  cases v <;> rfl

@[simp] theorem Value.equal_relocate (v w : Value) :
    (v.relocate r).equal (w.relocate r) = v.equal w := by
  cases v <;> cases w <;> rfl

theorem LogicalOp.decides_relocate (op : LogicalOp) (v : Value) :
    op.decides (v.relocate r) = op.decides v := by
  cases op <;> simp [decides]

/-- The outcomes of operators are no functions. -/
theorem UnaryOp.apply_relocate (op : UnaryOp) (v : Value) :
    op.apply (v.relocate r) = (op.apply v).map (Value.relocate r) := by
  cases op with
  | negate => cases v <;> rfl
  | not => exact congrArg (fun b => Except.ok (Value.bool !b)) v.isTruthy_relocate

theorem BinaryOp.applyNumbers_relocate (op : BinaryOp) (x y : Float) :
    op.applyNumbers x y = (op.applyNumbers x y).map (Value.relocate r) := by
  cases op with
  | divide =>
    simp only [applyNumbers]
    split <;> rfl
  | _ => rfl

/-- An operator on values of which not both are numbers, unless it compares or joins them. -/
theorem BinaryOp.apply_eq (text : Value → String) {op : BinaryOp} (hequal : op ≠ equal)
    (hnotEqual : op ≠ notEqual) (hadd : op ≠ add) (v w : Value) :
    op.apply text v w = match v, w with
      | .number x, .number y => op.applyNumbers x y
      | _, _ => .error numbersRequired := by
  cases op <;> first | contradiction | (cases v <;> cases w <;> rfl)

theorem BinaryOp.apply_relocate {text text' : Value → String}
    (h : ∀ v : Value, text' (v.relocate r) = text v) (op : BinaryOp) (v w : Value) :
    op.apply text' (v.relocate r) (w.relocate r) =
      (op.apply text v w).map (Value.relocate r) := by
  have hjoin (f : String → String) (u : Value) :
      (Except.ok (.string (f (text' (u.relocate r)))) : Except RuntimeFault Value) =
        .ok (.string (f (text u))) := by
    rw [h u]
  by_cases hequal : op = equal
  · subst hequal
    exact congrArg (fun b => Except.ok (Value.bool b)) (v.equal_relocate w)
  by_cases hnotEqual : op = notEqual
  · subst hnotEqual
    exact congrArg (fun b => Except.ok (Value.bool !b)) (v.equal_relocate w)
  by_cases hadd : op = add
  · subst hadd
    cases v with
    | string s => exact hjoin (s ++ ·) w
    | number x =>
      cases w with
      | string t => exact hjoin (· ++ t) (.number x)
      | _ => rfl
    | _ =>
      cases w with
      | string t => exact hjoin (· ++ t) _
      | _ => rfl
  · rw [apply_eq _ hequal hnotEqual hadd, apply_eq _ hequal hnotEqual hadd]
    cases v with
    | number x =>
      cases w with
      | number y => exact op.applyNumbers_relocate x y
      | _ => rfl
    | _ => rfl

/-! ### The machine after a relocation -/

namespace Bindings

variable {α β : Type} (f : α → β)

/-- The same names, bound to other values. -/
def mapValues (b : Bindings α) : Bindings β :=
  b.map fun p => (p.1, f p.2)

theorem get?_mapValues (b : Bindings α) (name : String) :
    (b.mapValues f).get? name = (b.get? name).map f := by
  induction b with
  | nil => rfl
  | cons p rest ih =>
    change (if p.1 = name then some (f p.2) else get? (mapValues f rest) name) = _
    rw [get?, ih]
    split <;> rfl

end Bindings

/-- The machine after a relocation, where node numbers stay. -/
def Machine.relocate (r : Relocation) (m : Machine) : Machine :=
  { m with
    frames := m.frames.map fun f => { f with slots := f.slots.mapValues (relocateSlot r) }
    classes := m.classes.map fun c => { c with methods := c.methods.mapValues (Closure.relocate r) }
    objects := m.objects.map fun o => { o with fields := o.fields.mapValues (Value.relocate r) } }

/-- Every machine can be relocated. -/
theorem Machine.moved_relocate (hr : ∀ id, r.id id = id) (m : Machine) :
    Machine.Moved r m (m.relocate r) where
  frames :=
    { size := Array.size_map
      enclosing := fun i => by
        simp only [Machine.relocate, Frames.enclosing?, Array.getElem?_map]
        cases m.frames[i]? <;> rfl
      slot := fun i name => by
        simp only [Machine.relocate, Frames.slot?, Array.getElem?_map]
        cases m.frames[i]? with
        | none => rfl
        | some f => exact Bindings.get?_mapValues _ f.slots name }
  distances id := by rw [hr]; rfl
  classCount := Array.size_map
  className c := by
    simp only [Machine.relocate, Machine.className, Array.getElem?_map]
    cases m.classes[c]? <;> rfl
  superclass c := by
    simp only [Machine.relocate, superclass?, Array.getElem?_map]
    cases m.classes[c]? <;> rfl
  method c name := by
    simp only [Machine.relocate, ownMethod?, Array.getElem?_map]
    cases m.classes[c]? with
    | none => rfl
    | some info => exact Bindings.get?_mapValues _ info.methods name
  objectCount := Array.size_map
  classOf i := by
    simp only [Machine.relocate, classOf?, Array.getElem?_map]
    cases m.objects[i]? <;> rfl
  field i name := by
    simp only [Machine.relocate, field?, Array.getElem?_map]
    cases m.objects[i]? with
    | none => rfl
    | some o => exact Bindings.get?_mapValues _ o.fields name
  closures := rfl
  current := rfl
  input := rfl
  output := rfl
  clock := rfl
  readings := rfl

/-! ### Machines whose declarations stay, or go back -/

theorem Closure.relocate_eq_self (hr : r.KeepsLines) {f : Closure}
    (h : ∀ id ∈ f.decl.ids, r.id id = id) : f.relocate r = f := by
  rw [Closure.relocate, f.decl.relocate_eq_self hr h]

theorem Value.relocate_eq_self (hr : r.KeepsLines) {v : Value}
    (h : ∀ f, v = .function f → ∀ id ∈ f.decl.ids, r.id id = id) : v.relocate r = v := by
  cases v with
  | function f => exact congrArg Value.function (f.relocate_eq_self hr (h f rfl))
  | _ => rfl

/-- A relocation that takes every declaration back. -/
structure Relocation.Undoes (r' r : Relocation) : Prop where
  id : ∀ id, r'.id (r.id id) = id
  line : ∀ line, r'.line (r.line line) = line

theorem Closure.relocate_undo {r' : Relocation} (h : r'.Undoes r) (f : Closure) :
    (f.relocate r).relocate r' = f := by
  rw [Closure.relocate, Closure.relocate, FunctionDecl.relocate_comp,
    FunctionDecl.relocate_eq_self (r := r'.comp r) h.line f.decl fun id _ => h.id id]

theorem Value.relocate_undo {r' : Relocation} (h : r'.Undoes r) (v : Value) :
    (v.relocate r).relocate r' = v := by
  cases v with
  | function f => exact congrArg Value.function (f.relocate_undo h)
  | _ => rfl

/-- A relocation that takes every declaration back takes the machine back. -/
theorem Machine.Moved.undo {r' : Relocation} (hr : r'.Undoes r) {m m' : Machine}
    (h : Machine.Moved r m m') (hdistances : Distances.Moved r' m'.distances m.distances) :
    Machine.Moved r' m' m where
  frames :=
    { size := h.frames.size.symm
      enclosing := fun i => (h.frames.enclosing i).symm
      slot := fun i name => by
        rw [h.frames.slot]
        rcases m.frames.slot? i name with _ | _ | v
        · rfl
        · rfl
        · exact congrArg (fun v => some (some v)) (v.relocate_undo hr).symm }
  distances := hdistances
  classCount := h.classCount.symm
  className c := (h.className c).symm
  superclass c := (h.superclass c).symm
  method c name := by
    rw [h.method]
    cases m.ownMethod? c name with
    | none => rfl
    | some f => exact congrArg some (f.relocate_undo hr).symm
  objectCount := h.objectCount.symm
  classOf i := (h.classOf i).symm
  field i name := by
    rw [h.field]
    cases m.field? i name with
    | none => rfl
    | some v => exact congrArg some (v.relocate_undo hr).symm
  closures := h.closures.symm
  current := h.current.symm
  input := h.input.symm
  output := h.output.symm
  clock := h.clock.symm
  readings := h.readings.symm

/-- Machines that are the same machine after the same relocation look alike, so that one can stand in
for the other. -/
theorem Machine.Moved.replace {r' : Relocation} {m₀ m m₁ m₂ : Machine} (h : Machine.Moved r' m₀ m₁)
    (h₁ : Machine.Moved r m m₁) (h₂ : Machine.Moved r m m₂)
    (hdistances : ∀ id, m₂.distances.get? id = m₁.distances.get? id) : Machine.Moved r' m₀ m₂ where
  frames :=
    { size := (h₂.frames.size.trans h₁.frames.size.symm).trans h.frames.size
      enclosing := fun i =>
        ((h₂.frames.enclosing i).trans (h₁.frames.enclosing i).symm).trans (h.frames.enclosing i)
      slot := fun i name =>
        ((h₂.frames.slot i name).trans (h₁.frames.slot i name).symm).trans (h.frames.slot i name) }
  distances id := (hdistances _).trans (h.distances id)
  classCount := (h₂.classCount.trans h₁.classCount.symm).trans h.classCount
  className c := ((h₂.className c).trans (h₁.className c).symm).trans (h.className c)
  superclass c := ((h₂.superclass c).trans (h₁.superclass c).symm).trans (h.superclass c)
  method c name := ((h₂.method c name).trans (h₁.method c name).symm).trans (h.method c name)
  objectCount := (h₂.objectCount.trans h₁.objectCount.symm).trans h.objectCount
  classOf i := ((h₂.classOf i).trans (h₁.classOf i).symm).trans (h.classOf i)
  field i name := ((h₂.field i name).trans (h₁.field i name).symm).trans (h.field i name)
  closures := (h₂.closures.trans h₁.closures.symm).trans h.closures
  current := (h₂.current.trans h₁.current.symm).trans h.current
  input := (h₂.input.trans h₁.input.symm).trans h.input
  output := (h₂.output.trans h₁.output.symm).trans h.output
  clock := (h₂.clock.trans h₁.clock.symm).trans h.clock
  readings := (h₂.readings.trans h₁.readings.symm).trans h.readings

end Treewalk
