import Treewalk.Evaluation
import Treewalk.Proofs.Relocation.Operations

/-!
# Machines with tables of the same look

Two runs can do the same although functions have other declarations and close over other frames. All that
operators, texts and the number of arguments depend on stays the same then, and the tables of classes and
objects have the same look: what stands at one place corresponds to what stands there on the other
machine.

## Main definitions

* `Value.Alike`: values that operators do not tell apart.
* `Machine.Tables`: machines whose tables correspond to each other.

## Main results

* `UnaryOp.apply_alike`, `BinaryOp.apply_alike`: the operators.
* `Machine.Tables.findMethod?`, `Machine.Tables.arity?`, `Machine.Tables.text`: what is looked up.
* `Machine.Tables.newClass`, `Machine.Tables.newObject`, `Machine.Tables.setField`: what is added.
-/

namespace Treewalk

theorem optionRel_imp {α β : Type} {R S : α → β → Prop} (h : ∀ a b, R a b → S a b) {o : Option α}
    {o' : Option β} (hrel : Option.Rel R o o') : Option.Rel S o o' := by
  cases hrel with
  | some hab => exact .some (h _ _ hab)
  | none => exact .none

/-- What stands at each place after something has been added to a list. -/
theorem getElem?_append_singleton {α : Type} (l : List α) (a : α) (i : Nat) :
    (l ++ [a])[i]? = if i = l.length then some a else l[i]? := by
  split
  · next hi => rw [hi, List.getElem?_concat_length]
  · next hi =>
    rcases Nat.lt_or_gt_of_ne hi with hlt | hgt
    · exact List.getElem?_append_left hlt
    · rw [List.getElem?_eq_none (Nat.le_of_lt hgt), List.getElem?_eq_none]
      rw [List.length_append, List.length_singleton]
      exact hgt

/-! ### Values -/

/-- Functions of the same identity that look the same when they are written or called. -/
structure Closure.Alike (f f' : Closure) : Prop where
  id : f'.id = f.id
  name : f'.decl.name = f.decl.name
  arity : f'.decl.arity = f.decl.arity

/-- Values that operators do not tell apart. -/
inductive Value.Alike : Value → Value → Prop
  | function {f f' : Closure} (h : f.Alike f') : Alike (.function f) (.function f')
  | same (v : Value) : Alike v v

section Operators

variable {v v' w w' : Value} (hv : v.Alike v')

include hv

theorem Value.Alike.isTruthy : v'.isTruthy = v.isTruthy := by
  cases hv <;> rfl

theorem Value.Alike.equal (hw : w.Alike w') : v'.equal w' = v.equal w := by
  cases hv with
  | function hf =>
    cases hw with
    | function hg => rw [Value.equal, Value.equal, hf.id, hg.id]
    | same w => cases w <;> first | rfl | exact congrArg (· == _) hf.id
  | same v =>
    cases hw with
    | function hg => cases v <;> first | rfl | exact congrArg (_ == ·) hg.id
    | same w => rfl

theorem LogicalOp.decides_alike (op : LogicalOp) : op.decides v' = op.decides v := by
  cases op with
  | and => exact congrArg Bool.not hv.isTruthy
  | or => exact hv.isTruthy

theorem UnaryOp.apply_alike (op : UnaryOp) : op.apply v' = op.apply v := by
  cases op with
  | negate => cases hv <;> rfl
  | not => exact congrArg (fun b => Except.ok (Value.bool !b)) hv.isTruthy

theorem BinaryOp.apply_alike (hw : w.Alike w') {text text' : Value → String}
    (hvtext : text' v' = text v) (hwtext : text' w' = text w) (op : BinaryOp) :
    op.apply text' v' w' = op.apply text v w := by
  by_cases hequal : op = equal
  · subst hequal
    exact congrArg (fun b => Except.ok (Value.bool b)) (hv.equal hw)
  by_cases hnotEqual : op = notEqual
  · subst hnotEqual
    exact congrArg (fun b => Except.ok (Value.bool !b)) (hv.equal hw)
  by_cases hadd : op = add
  · subst hadd
    have hleft (s : String) : (Except.ok (.string (text' v' ++ s)) : Except RuntimeFault Value) =
        .ok (.string (text v ++ s)) := by rw [hvtext]
    have hright (s : String) : (Except.ok (.string (s ++ text' w')) : Except RuntimeFault Value) =
        .ok (.string (s ++ text w)) := by rw [hwtext]
    cases hv with
    | function hf =>
      cases hw with
      | function hg => rfl
      | same w => cases w <;> first | rfl | exact hleft _
    | same v =>
      cases v with
      | string s => exact hright s
      | _ =>
        cases hw with
        | function hg => rfl
        | same w => cases w <;> first | rfl | exact hleft _
  · rw [apply_eq _ hequal hnotEqual hadd, apply_eq _ hequal hnotEqual hadd]
    cases hv with
    | function hf => rfl
    | same v =>
      cases hw with
      | function hg => cases v <;> rfl
      | same w => rfl

end Operators

/-! ### Tables -/

/-- Machines whose tables correspond to each other, where functions and values do so by relations. What
is read and written is the same. -/
structure Machine.Tables (C : Closure → Closure → Prop) (V : Value → Value → Prop) (m m' : Machine) :
    Prop where
  classCount : m'.classes.size = m.classes.size
  className : ∀ c, m'.className c = m.className c
  superclass : ∀ c, m'.superclass? c = m.superclass? c
  method : ∀ c name, Option.Rel C (m.ownMethod? c name) (m'.ownMethod? c name)
  objectCount : m'.objects.size = m.objects.size
  classOf : ∀ o, m'.classOf? o = m.classOf? o
  field : ∀ o name, Option.Rel V (m.field? o name) (m'.field? o name)
  closures : m'.closures = m.closures
  input : m'.input = m.input
  output : m'.output = m.output
  clock : m'.clock = m.clock
  readings : m'.readings = m.readings

namespace Machine.Tables

variable {C C' : Closure → Closure → Prop} {V V' : Value → Value → Prop} {m m' : Machine}
  (h : Machine.Tables C V m m')

include h

theorem mono (hC : ∀ f f', C f f' → C' f f') (hV : ∀ v v', V v v' → V' v v') :
    Machine.Tables C' V' m m' :=
  { h with
    method := fun c name => optionRel_imp hC (h.method c name)
    field := fun o name => optionRel_imp hV (h.field o name) }

/-! #### What is looked up -/

theorem lineage (c : Nat) : m'.lineage c = m.lineage c := by
  have hfrom (bound c : Nat) : m'.lineageFrom bound c = m.lineageFrom bound c := by
    induction bound generalizing c with
    | zero => rfl
    | succ bound ih =>
      rw [lineageFrom, lineageFrom, h.superclass]
      cases m.superclass? c with
      | none => rfl
      | some c' => exact congrArg (c :: ·) (ih c')
  rw [Machine.lineage, Machine.lineage, h.classCount, hfrom]

theorem findMethod? (c : Nat) (name : String) :
    Option.Rel C (m.findMethod? c name) (m'.findMethod? c name) := by
  rw [Machine.findMethod?, Machine.findMethod?, h.lineage]
  induction m.lineage c with
  | nil => exact .none
  | cons c classes ih =>
    rw [List.findSome?_cons, List.findSome?_cons]
    have hmethod := h.method c name
    generalize m.ownMethod? c name = f, m'.ownMethod? c name = f' at hmethod
    cases hmethod with
    | some hf => exact .some hf
    | none => exact ih

theorem arity? (hC : ∀ f f', C f f' → f'.decl.arity = f.decl.arity) {v v' : Value}
    (hv : v.Alike v') : m'.arity? v' = m.arity? v := by
  have hcls (c : Nat) : m'.arity? (.cls c) = m.arity? (.cls c) := by
    have hfound := h.findMethod? c initializerName
    rw [Machine.arity?, Machine.arity?]
    generalize m.findMethod? c initializerName = f, m'.findMethod? c initializerName = f' at hfound
    cases hfound with
    | some hf => exact congrArg some (hC _ _ hf)
    | none => rfl
  cases hv with
  | function hf => exact congrArg some hf.arity
  | same v =>
    cases v with
    | cls c => exact hcls c
    | _ => rfl

theorem text {v v' : Value} (hv : v.Alike v') : m'.text v' = m.text v := by
  cases hv with
  | function hf => rw [Machine.text, Machine.text, hf.name]
  | same v =>
    cases v with
    | bool b => cases b <;> rfl
    | cls c => exact h.className c
    | object o =>
      rw [Machine.text, Machine.text, h.classOf]
      cases m.classOf? o with
      | none => rfl
      | some c => exact congrArg (· ++ " instance") (h.className c)
    | _ => rfl

/-! #### What is added -/

theorem newClass (name : String) (superclass : Option Nat) {table table' : Bindings Closure}
    (htable : ∀ name, Option.Rel C (table.get? name) (table'.get? name)) :
    Machine.Tables C V { m with classes := m.classes.push ⟨name, superclass, table⟩ }
      { m' with classes := m'.classes.push ⟨name, superclass, table'⟩ } := by
  refine { h with
    classCount := ?_
    className := fun c => ?_
    superclass := fun c => ?_
    method := fun c other => ?_ }
  · simp only [Array.size_push, h.classCount]
  · have hold := h.className c
    simp only [Machine.className, Array.getElem?_push, h.classCount] at hold ⊢
    split
    · rfl
    · exact hold
  · have hold := h.superclass c
    simp only [Machine.superclass?, Array.getElem?_push, h.classCount] at hold ⊢
    split
    · rfl
    · exact hold
  · have hold := h.method c other
    simp only [Machine.ownMethod?, Array.getElem?_push, h.classCount] at hold ⊢
    split
    · exact htable other
    · exact hold

theorem newObject (c : Nat) :
    Machine.Tables C V { m with objects := m.objects.push ⟨c, []⟩ }
      { m' with objects := m'.objects.push ⟨c, []⟩ } := by
  refine { h with
    objectCount := ?_
    classOf := fun o => ?_
    field := fun o name => ?_ }
  · simp only [Array.size_push, h.objectCount]
  · have hold := h.classOf o
    simp only [Machine.classOf?, Array.getElem?_push, h.objectCount] at hold ⊢
    split
    · rfl
    · exact hold
  · have hold := h.field o name
    simp only [Machine.field?, Array.getElem?_push, h.objectCount] at hold ⊢
    split
    · exact .none
    · exact hold

theorem setField (o : Nat) (name : String) {v v' : Value} (hv : V v v') :
    Machine.Tables C V
      { m with
        objects := m.objects.modify o fun o => { o with fields := o.fields.insert name v } }
      { m' with
        objects := m'.objects.modify o fun o => { o with fields := o.fields.insert name v' } } := by
  refine { h with
    objectCount := ?_
    classOf := fun j => ?_
    field := fun j other => ?_ }
  · simp only [Array.size_modify, h.objectCount]
  · have hold := h.classOf j
    simp only [Machine.classOf?, Array.getElem?_modify] at hold ⊢
    split
    · rw [Option.map_map, Option.map_map]
      exact hold
    · exact hold
  · rw [Run.field?_modify, Run.field?_modify, h.objectCount]
    split
    · exact .some hv
    · exact h.field j other

end Machine.Tables

end Treewalk
