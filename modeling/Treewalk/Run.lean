import Treewalk.Machine

/-!
# Computations on the machine

A computation changes the machine and either answers or is cut short: by a fault of the program, or
because the given fuel did not suffice. In every case the machine as it is then is part of the
outcome.

## Main definitions

* `Run`, `Interrupt`: computations, and why they are cut short.
* `Run.within`: a computation in another frame; the frame that was current before is current again
  after it, however it ends.
* `Run.readVariable`, `Run.assignVariable`: variables.
* `Run.bindReceiver`, `Run.property`, `Run.superMethod`: methods and properties.
* `Native.run`: the built-in functions.

## Main results

* `Run.bind_apply`: computations one after the other.
-/

namespace Treewalk

/-- Why a computation was cut short. -/
inductive Interrupt
  /-- The program had a fault. -/
  | raised (error : RuntimeError)
  /-- The fuel did not suffice. -/
  | outOfFuel

/-- Computations on the machine. -/
abbrev Run := EStateM Interrupt Machine

namespace Run

/-- Cuts the computation short with a fault at a line. -/
def raise {α : Type} (fault : RuntimeFault) (line : Nat) : Run α :=
  throw (.raised ⟨fault, line⟩)

/-- The outcome of an operation that can have a fault, at a line. -/
def checked {α : Type} (line : Nat) : Except RuntimeFault α → Run α
  | .ok a => pure a
  | .error fault => raise fault line

/-- Computations one after the other. -/
theorem bind_apply {α β : Type} (x : Run α) (f : α → Run β) (m : Machine) :
    (x >>= f) m = match x m with
      | .ok a m => f a m
      | .error e m => .error e m := by
  cases h : x m <;> simp [bind, EStateM.bind, h]

theorem get_bind_apply {α : Type} (f : Machine → Run α) (m : Machine) : (get >>= f) m = f m m :=
  rfl

/-! ### Frames and variables -/

/-- Adds a frame inside another one. -/
def newFrame (enclosing : Nat) : Run Nat := fun m =>
  let i := m.frames.size
  .ok i { m with frames := m.frames.add (some enclosing) }

/-- Writes a slot of a frame. -/
def writeSlot (i : Nat) (name : String) (slot : Option Value) : Run Unit :=
  modify fun m => { m with frames := m.frames.write i name slot }

/-- Gives a name a value in the current frame. -/
def define (name : String) (value : Value) : Run Unit :=
  modify fun m => { m with frames := m.frames.define m.current name value }

/-- Gives a name an empty slot in the current frame. -/
def declare (name : String) : Run Unit :=
  modify fun m => { m with frames := m.frames.declare m.current name }

/-- The current frame. -/
def currentFrame : Run Nat := fun m =>
  .ok m.current m

/-- Runs a computation with another frame as the current one. -/
def within {α : Type} (i : Nat) (body : Run α) : Run α := fun m =>
  let previous := m.current
  match body { m with current := i } with
  | .ok a m => .ok a { m with current := previous }
  | .error e m => .error e { m with current := previous }

/-- The value of a variable. -/
def readVariable (lookup : Lookup) (id : Nat) (name : Name) : Run Value := do
  let m ← get
  checked name.line (m.frames.readIn (m.holderOf lookup id name.text) name.text)

/-- Assigns to a name in the frame that holds it, if there is one. -/
def assignIn (holder : Option Nat) (name : Name) (value : Value) : Run Unit :=
  match holder with
  | none => raise (.undefinedVariable name.text) name.line
  | some i => writeSlot i name.text (some value)

/-- Assigns to a variable. -/
def assignVariable (lookup : Lookup) (id : Nat) (name : Name) (value : Value) : Run Unit := do
  assignIn ((← get).holderOf lookup id name.text) name value

/-! ### Functions, classes and objects -/

/-- Makes a function. -/
def newClosure (decl : FunctionDecl) (frame : Nat) (isInitializer : Bool) : Run Closure :=
  fun m => .ok ⟨m.closures, decl, frame, isInitializer⟩ { m with closures := m.closures + 1 }

/-- Makes a class. -/
def newClass (info : ClassInfo) : Run Nat := fun m =>
  let c := m.classes.size
  .ok c { m with classes := m.classes.push info }

/-- Makes an object without fields. -/
def newObject (c : Nat) : Run Nat := fun m =>
  let i := m.objects.size
  .ok i { m with objects := m.objects.push ⟨c, []⟩ }

/-- Writes a field of an object. -/
def setField (i : Nat) (name : String) (value : Value) : Run Unit :=
  modify fun m =>
    { m with
      objects := m.objects.modify i fun o => { o with fields := o.fields.insert name value } }

/-- A function like a given one in whose closure `this` is bound to a receiver. -/
def bindReceiver (f : Closure) (receiver : Value) : Run Closure := do
  let i ← newFrame f.frame
  writeSlot i "this" (some receiver)
  newClosure f.decl i f.isInitializer

/-- The object that a value is; only objects have `what` is asked for. -/
def asObject (v : Value) (what : String) (line : Nat) : Run Nat :=
  match v with
  | .object i => pure i
  | _ => raise (.notAnObject what) line

/-- The property of an object: a field, or else a method of its class, bound to the object. -/
def property (i : Nat) (name : Name) : Run Value := do
  let m ← get
  match m.field? i name.text with
  | some v => return v
  | none =>
    match (m.classOf? i).bind fun c => m.findMethod? c name.text with
    | some f => return .function (← bindReceiver f (.object i))
    | none => raise (.undefinedProperty name.text) name.line

/-- The method of the superclass that `super` denotes, bound to the receiver. The receiver stands in
the frame just inside the one that holds the superclass. -/
def superMethod (id : Nat) (line : Nat) (method : Name) : Run Value := do
  let m ← get
  match m.distances.get? id with
  | none => raise (.undefinedVariable "super") line
  | some distance =>
    let parent ← checked line (m.frames.getAt m.current distance "super")
    let receiver ← checked line (m.frames.getAt m.current (distance - 1) "this")
    match parent with
    | .cls c =>
      match m.findMethod? c method.text with
      | some f => return .function (← bindReceiver f receiver)
      | none => raise (.undefinedProperty method.text) method.line
    | _ => raise .invalidSuperclass line

/-! ### Built-in functions -/

/-- Reads a line of the input without its ending; nil at the end of the input. -/
def readLine (line : Nat) : Run Value := do
  let (taken, m) := (← get).readLine
  set m
  match taken with
  | .ended => return .nil
  | .malformed => raise (.native ("Failed to read input: " ++ Line.malformedMessage)) line
  | .text t => return .string (Line.trim t)

/-- Writes a value followed by an ending. -/
def writeValue (v : Value) (ending : String) : Run Value := do
  modify fun m =>
    let text := m.text v
    m.write (text ++ ending)
  return .nil

/-- Takes a reading of the clock, in seconds. -/
def readClock : Run Value := fun m =>
  .ok (.number (Float.ofNat (m.clock m.readings) / 1000)) { m with readings := m.readings + 1 }

end Run

/-- Calls a built-in function. -/
def Native.run (n : Native) (arguments : List Value) (line : Nat) : Run Value :=
  match n with
  | clock => Run.readClock
  | print => Run.writeValue (arguments.headD .nil) ""
  | printLine => Run.writeValue (arguments.headD .nil) "\n"
  | readLine => Run.readLine line

end Treewalk
