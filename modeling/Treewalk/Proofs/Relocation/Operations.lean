import Treewalk.Proofs.Lockstep
import Treewalk.Proofs.Relocation.Machine

/-!
# Operations on relocated machines

An operation does the same on a relocated machine as on the machine itself: it reads and writes the
same, and a fault is the same fault at the line that its line has moved to.

## Main definitions

* `Run.tie`: machines and interrupts that correspond to each other by a relocation.

## Main results

* `Run.readVariable_moves`, `Run.superMethod_moves`: variables and methods.
* `Run.native_moves`: the built-in functions.
-/

namespace Treewalk

/-- Why a computation was cut short, on another line. -/
def Interrupt.relocate (r : Relocation) : Interrupt → Interrupt
  | .raised e => .raised ⟨e.fault, r.line e.line⟩
  | .outOfFuel => .outOfFuel

namespace Run

/-- Machines and interrupts that correspond to each other by a relocation. Unless the fuel is the same
for both, nothing is asked of the second computation when the first one runs out of fuel. -/
def tie (r : Relocation) (exact : Prop) : Tie Interrupt Machine where
  state := Machine.Moved r
  error := Maps (Interrupt.relocate r)
  free e := ¬ exact ∧ e = .outOfFuel

variable {r : Relocation} {exact : Prop} {α β : Type} {R : α → β → Prop}

/-! ### Frames and variables -/

theorem raise_moves (fault : RuntimeFault) (line : Nat) :
    Lockstep (tie r exact) R (raise fault line) (raise fault (r.line line)) :=
  .throw rfl

theorem checked_moves {f : α → β} (line : Nat) (o : Except RuntimeFault α) :
    Lockstep (tie r exact) (Maps f) (checked line o) (checked (r.line line) (o.map f)) := by
  cases o with
  | ok a => exact .pure rfl
  | error fault => exact raise_moves fault line

theorem newFrame_moves (enclosing : Nat) :
    Lockstep (tie r exact) Eq (newFrame enclosing) (newFrame enclosing) :=
  fun _ _ h => .ok h.frames.size.symm { h with frames := h.frames.add _ }

theorem writeSlot_moves (i : Nat) (name : String) (slot : Option Value) :
    Lockstep (tie r exact) Eq (writeSlot i name slot) (writeSlot i name (relocateSlot r slot)) :=
  .modified rfl fun _ _ h => { h with frames := h.frames.write i name slot }

theorem define_moves (name : String) (v : Value) :
    Lockstep (tie r exact) Eq (define name v) (define name (v.relocate r)) := by
  refine .modified rfl fun m m' h => { h with frames := ?_ }
  rw [h.current]
  exact h.frames.write _ name (some v)

theorem declare_moves (name : String) :
    Lockstep (tie r exact) Eq (declare name) (declare name) := by
  refine .modified rfl fun m m' h => { h with frames := ?_ }
  rw [h.current]
  exact h.frames.write _ name none

theorem currentFrame_moves : Lockstep (tie r exact) Eq currentFrame currentFrame :=
  fun _ _ h => .ok h.current.symm h

/-- A computation in another frame; the frames of before are the same on both machines. -/
theorem within_moves {x : Run α} {y : Run β} (h : Lockstep (tie r exact) R x y) (i : Nat) :
    Lockstep (tie r exact) R (within i x) (within i y) := by
  intro m m' hm
  have hout := h { m with current := i } { m' with current := i } { hm with current := rfl }
  unfold within
  generalize x { m with current := i } = o, y { m' with current := i } = o' at hout
  cases hout with
  | ok ha hs => exact .ok ha { hs with current := hm.current }
  | error he hs => exact .error he { hs with current := hm.current }
  | free he => exact .free he

theorem readVariable_moves (lookup : Lookup) (id : Nat) (name : Name) :
    Lockstep (tie r exact) (Maps (Value.relocate r)) (readVariable lookup id name)
      (readVariable lookup (r.id id) (name.relocate r)) := by
  refine .get_bind fun m m' h => ?_
  rw [Name.text_relocate, h.holderOf, h.frames.readIn]
  exact checked_moves name.line _

theorem assignIn_moves (holder : Option Nat) (name : Name) (v : Value) :
    Lockstep (tie r exact) Eq (assignIn holder name v)
      (assignIn holder (name.relocate r) (v.relocate r)) := by
  cases holder with
  | none => exact raise_moves _ _
  | some i => exact writeSlot_moves i name.text (some v)

theorem assignVariable_moves (lookup : Lookup) (id : Nat) (name : Name) (v : Value) :
    Lockstep (tie r exact) Eq (assignVariable lookup id name v)
      (assignVariable lookup (r.id id) (name.relocate r) (v.relocate r)) := by
  refine .get_bind fun m m' h => ?_
  rw [Name.text_relocate, h.holderOf]
  exact assignIn_moves _ name v

/-! ### Functions, classes and objects -/

theorem newClosure_moves (decl : FunctionDecl) (frame : Nat) (isInitializer : Bool) :
    Lockstep (tie r exact) (Maps (Closure.relocate r)) (newClosure decl frame isInitializer)
      (newClosure (decl.relocate r) frame isInitializer) := by
  intro m m' h
  refine .ok ?_ { h with closures := congrArg (· + 1) h.closures }
  rw [h.closures]
  rfl

/-- Tables of methods that correspond to each other. -/
def MethodsMoved (r : Relocation) (table table' : Bindings Closure) : Prop :=
  ∀ name, table'.get? name = (table.get? name).map (Closure.relocate r)

theorem newClass_moves (name : String) (superclass : Option Nat) {table table' : Bindings Closure}
    (htable : MethodsMoved r table table') : Lockstep (tie r exact) Eq
      (newClass ⟨name, superclass, table⟩) (newClass ⟨name, superclass, table'⟩) := by
  intro m m' h
  refine .ok h.classCount.symm { h with
    classCount := ?_
    className := fun c => ?_
    superclass := fun c => ?_
    method := fun c other => ?_ }
  · simp only [Array.size_push, h.classCount]
  · have hold := h.className c
    simp only [Machine.className, Array.getElem?_push, h.classCount] at hold ⊢
    split
    · rfl
    · exact hold
  · have hold := h.superclass c
    simp only [Machine.superclass?, Array.getElem?_push, h.classCount] at hold ⊢
    split
    · rfl
    · exact hold
  · have hold := h.method c other
    simp only [Machine.ownMethod?, Array.getElem?_push, h.classCount] at hold ⊢
    split
    · exact htable other
    · exact hold

theorem newObject_moves (c : Nat) : Lockstep (tie r exact) Eq (newObject c) (newObject c) := by
  intro m m' h
  refine .ok h.objectCount.symm { h with
    objectCount := ?_
    classOf := fun i => ?_
    field := fun i name => ?_ }
  · simp only [Array.size_push, h.objectCount]
  · have hold := h.classOf i
    simp only [Machine.classOf?, Array.getElem?_push, h.objectCount] at hold ⊢
    split
    · rfl
    · exact hold
  · have hold := h.field i name
    simp only [Machine.field?, Array.getElem?_push, h.objectCount] at hold ⊢
    split
    · rfl
    · exact hold

/-- What the fields of objects are after one of them was written. -/
theorem field?_modify (m : Machine) (i j : Nat) (name other : String) (v : Value) :
    Machine.field? { m with
      objects := m.objects.modify i fun o => { o with fields := o.fields.insert name v } } j other =
      if i = j ∧ name = other ∧ i < m.objects.size then some v else m.field? j other := by
  simp only [Machine.field?, Array.getElem?_modify]
  by_cases hij : i = j
  · subst hij
    by_cases hi : i < m.objects.size
    · simp [Bindings.get?_insert, hi]
    · simp [hi]
  · simp [hij]

theorem setField_moves (i : Nat) (name : String) (v : Value) :
    Lockstep (tie r exact) Eq (setField i name v) (setField i name (v.relocate r)) := by
  refine .modified rfl fun m m' h => { h with
    objectCount := ?_
    classOf := fun j => ?_
    field := fun j other => ?_ }
  · simp only [Array.size_modify, h.objectCount]
  · have hold := h.classOf j
    simp only [Machine.classOf?, Array.getElem?_modify] at hold ⊢
    split
    · rw [Option.map_map, Option.map_map]
      exact hold
    · exact hold
  · rw [field?_modify, field?_modify, h.objectCount, h.field]
    split <;> rfl

theorem bindReceiver_moves (f : Closure) (v : Value) :
    Lockstep (tie r exact) (Maps (Closure.relocate r)) (bindReceiver f v)
      (bindReceiver (f.relocate r) (v.relocate r)) := by
  refine (newFrame_moves f.frame).bind ?_
  rintro i _ rfl
  exact (writeSlot_moves i "this" (some v)).bind fun _ _ _ => newClosure_moves f.decl i _

theorem asObject_moves (v : Value) (what : String) (line : Nat) :
    Lockstep (tie r exact) Eq (asObject v what line)
      (asObject (v.relocate r) what (r.line line)) := by
  cases v with
  | object i => exact .pure rfl
  | _ => exact raise_moves _ _

/-- A method that is found is bound; otherwise the property is not there. -/
theorem bindFound_moves (found : Option Closure) (receiver : Value) (name : Name) :
    Lockstep (tie r exact) (Maps (Value.relocate r))
      (match found with
        | some f => do return .function (← bindReceiver f receiver)
        | none => raise (.undefinedProperty name.text) name.line)
      (match found.map (Closure.relocate r) with
        | some f => do return .function (← bindReceiver f (receiver.relocate r))
        | none => raise (.undefinedProperty name.text) (r.line name.line)) := by
  cases found with
  | some f => exact (bindReceiver_moves f receiver).bind_map fun _ => .pure rfl
  | none => exact raise_moves _ _

theorem property_moves (i : Nat) (name : Name) :
    Lockstep (tie r exact) (Maps (Value.relocate r)) (property i name)
      (property i (name.relocate r)) := by
  refine .get_bind fun m m' h => ?_
  rw [Name.text_relocate, h.field]
  cases m.field? i name.text with
  | some v => exact .pure rfl
  | none =>
    have hfound : ((m'.classOf? i).bind fun c => m'.findMethod? c name.text) =
        ((m.classOf? i).bind fun c => m.findMethod? c name.text).map (Closure.relocate r) := by
      rw [h.classOf]
      cases m.classOf? i with
      | none => rfl
      | some c => exact h.findMethod? c name.text
    rw [hfound]
    exact bindFound_moves _ (.object i) name

theorem superMethod_moves (id line : Nat) (method : Name) :
    Lockstep (tie r exact) (Maps (Value.relocate r)) (superMethod id line method)
      (superMethod (r.id id) (r.line line) (method.relocate r)) := by
  refine .get_bind fun m m' h => ?_
  rw [h.distances id, h.current]
  cases m.distances.get? id with
  | none => exact raise_moves _ _
  | some distance =>
    dsimp only
    rw [h.frames.getAt, h.frames.getAt]
    refine (checked_moves line _).bind_map fun parent =>
      (checked_moves line _).bind_map fun receiver => ?_
    cases parent with
    | cls c =>
      change Lockstep _ _ _ (match m'.findMethod? c method.text with
        | some f => _
        | none => _)
      rw [h.findMethod?]
      exact bindFound_moves _ receiver method
    | _ => exact raise_moves _ _

/-! ### Built-in functions -/

/-- The value of what has been taken off the input. -/
def lineValue (line : Nat) : Line.Taken → Run Value
  | .ended => pure .nil
  | .malformed => raise (.native ("Failed to read input: " ++ Line.malformedMessage)) line
  | .text t => pure (.string (Line.trim t))

theorem readLine_eq (line : Nat) : readLine line = (do
    let m ← get
    set { m with input := (Line.read m.input).2 }
    lineValue line (Line.read m.input).1) := by
  unfold readLine lineValue
  rfl

/-- The same line is read off both machines. -/
theorem readLine_moves (line : Nat) :
    Lockstep (tie r exact) (Maps (Value.relocate r)) (readLine line)
      (readLine (r.line line)) := by
  rw [readLine_eq, readLine_eq]
  refine .get_bind fun m m' h => ?_
  rw [h.input]
  refine Lockstep.bind (R := Eq) (.put rfl { h with input := rfl }) fun _ _ _ => ?_
  cases (Line.read m.input).1 with
  | ended => exact .pure rfl
  | malformed => exact raise_moves _ _
  | text t => exact .pure rfl

theorem writeValue_moves (v : Value) (ending : String) :
    Lockstep (tie r exact) (Maps (Value.relocate r)) (writeValue v ending)
      (writeValue (v.relocate r) ending) := by
  refine Lockstep.bind (R := Eq) (.modified rfl fun m m' h => ?_) fun _ _ _ => .pure rfl
  rw [h.text]
  exact { h with output := congrArg (· ++ _) h.output }

theorem readClock_moves :
    Lockstep (tie r exact) (Maps (Value.relocate r)) readClock readClock := by
  intro m m' h
  refine .ok ?_ { h with readings := congrArg (· + 1) h.readings }
  rw [h.clock, h.readings]
  rfl

theorem native_moves (n : Native) (arguments : List Value) (line : Nat) :
    Lockstep (tie r exact) (Maps (Value.relocate r)) (n.run arguments line)
      (n.run (arguments.map (Value.relocate r)) (r.line line)) := by
  have hhead : (arguments.map (Value.relocate r)).headD .nil =
      (arguments.headD .nil).relocate r := by
    cases arguments <;> rfl
  unfold Native.run
  rw [hhead]
  cases n with
  | clock => exact readClock_moves
  | print => exact writeValue_moves _ _
  | printLine => exact writeValue_moves _ _
  | readLine => exact readLine_moves line

end Run

end Treewalk
