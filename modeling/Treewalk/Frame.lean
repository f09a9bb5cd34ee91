import Treewalk.Value

/-!
# Frames

A frame holds the variables of one block, one call, one class with a superclass, or one receiver;
the first frame holds the global variables. Every other frame has an enclosing one, made before it,
and the frames from a frame outward form its *chain*.

A variable is a slot of a frame. A slot without a value was declared and never assigned; it hides
slots of the same name further out all the same.

## Main definitions

* `Frame`, `Frames`: a frame, and the table of all frames.
* `Frames.chain`, `Frames.ancestor`: the frames outward from a frame.
* `Frames.holder?`, `Frames.holderAt?`: the frame that holds a name, looked for along the chain or
  at a known distance.
* `Frames.get`, `Frames.getAt`, `Frames.assign`, `Frames.assignAt`: reading and writing variables.

## Main results

* `Frames.slot?_write`, `Frames.enclosing?_write`: a write changes one slot and no enclosing frame.
-/

namespace Treewalk

/-- The variables of one scope at run time. -/
structure Frame where
  /-- The frame around this one. -/
  enclosing : Option Nat
  /-- The variables, each with its value if it has been assigned. -/
  slots : Bindings (Option Value)

/-- The table of all frames. -/
abbrev Frames := Array Frame

namespace Frames

/-- The frame around a frame. -/
def enclosing? (fs : Frames) (i : Nat) : Option Nat :=
  fs[i]?.bind (·.enclosing)

/-- The slot of a name in a frame. -/
def slot? (fs : Frames) (i : Nat) (name : String) : Option (Option Value) :=
  fs[i]?.bind (·.slots.get? name)

/-- Whether a frame holds a name. -/
def holds (fs : Frames) (i : Nat) (name : String) : Bool :=
  (fs.slot? i name).isSome

/-- Adds a frame without variables. Its number is the size of the table before. -/
def add (fs : Frames) (enclosing : Option Nat) : Frames :=
  fs.push ⟨enclosing, []⟩

/-- Writes a slot of a frame. -/
def write (fs : Frames) (i : Nat) (name : String) (slot : Option Value) : Frames :=
  fs.modify i fun f => { f with slots := f.slots.insert name slot }

/-- Gives a name a value in a frame, whether or not the frame holds the name. -/
def define (fs : Frames) (i : Nat) (name : String) (value : Value) : Frames :=
  fs.write i name (some value)

/-- Gives a name an empty slot in a frame. -/
def declare (fs : Frames) (i : Nat) (name : String) : Frames :=
  fs.write i name none

/-- At most `bound` frames outward from a frame, itself first. -/
def chainFrom (fs : Frames) : (bound : Nat) → Nat → List Nat
  | 0, _ => []
  | bound + 1, i => i :: (fs.enclosing? i).elim [] (chainFrom fs bound)

/-- The frames outward from a frame, itself first. No chain is longer than the table. -/
def chain (fs : Frames) (i : Nat) : List Nat :=
  chainFrom fs fs.size i

/-- The frame a number of steps outward from a frame, or the outermost one if there are fewer. -/
def ancestor (fs : Frames) (i : Nat) : (distance : Nat) → Nat
  | 0 => i
  | distance + 1 => (fs.enclosing? i).elim i fun j => ancestor fs j distance

/-- The nearest frame outward from a frame that holds a name. -/
def holder? (fs : Frames) (i : Nat) (name : String) : Option Nat :=
  (fs.chain i).find? fun j => fs.holds j name

/-- The frame at a distance from a frame, if it holds a name. -/
def holderAt? (fs : Frames) (i : Nat) (distance : Nat) (name : String) : Option Nat :=
  let j := fs.ancestor i distance
  if fs.holds j name then some j else none

/-- The value of a name in a frame. -/
def read (fs : Frames) (i : Nat) (name : String) : Except RuntimeFault Value :=
  match fs.slot? i name with
  | none => .error (.undefinedVariable name)
  | some none => .error (.unassignedVariable name)
  | some (some value) => .ok value

/-- The value of a name in the frame that holds it, if there is one. -/
def readIn (fs : Frames) (holder : Option Nat) (name : String) : Except RuntimeFault Value :=
  match holder with
  | none => .error (.undefinedVariable name)
  | some i => fs.read i name

/-- Gives a name a value in the frame that holds it, if there is one. -/
def assignIn (fs : Frames) (holder : Option Nat) (name : String) (value : Value) :
    Except RuntimeFault Frames :=
  match holder with
  | none => .error (.undefinedVariable name)
  | some i => .ok (fs.define i name value)

/-- The value of a name, looked for along the chain of a frame. -/
def get (fs : Frames) (i : Nat) (name : String) : Except RuntimeFault Value :=
  fs.readIn (fs.holder? i name) name

/-- The value of a name at a distance from a frame. -/
def getAt (fs : Frames) (i : Nat) (distance : Nat) (name : String) :
    Except RuntimeFault Value :=
  fs.readIn (fs.holderAt? i distance name) name

/-- Assigns to a name, looked for along the chain of a frame. -/
def assign (fs : Frames) (i : Nat) (name : String) (value : Value) :
    Except RuntimeFault Frames :=
  fs.assignIn (fs.holder? i name) name value

/-- Assigns to a name at a distance from a frame. -/
def assignAt (fs : Frames) (i : Nat) (distance : Nat) (name : String) (value : Value) :
    Except RuntimeFault Frames :=
  fs.assignIn (fs.holderAt? i distance name) name value

/-- A value that is read is stored. -/
theorem exists_slot?_of_readIn {fs : Frames} {holder : Option Nat} {name : String} {v : Value}
    (h : fs.readIn holder name = .ok v) : ∃ i, fs.slot? i name = some (some v) := by
  unfold readIn read at h
  split at h
  · cases h
  · split at h
    · cases h
    · cases h
    · next i _ _ hslot =>
      cases h
      exact ⟨i, hslot⟩

/-! ### What the table shows after a write -/

@[simp] theorem size_write (fs : Frames) (i : Nat) (name : String) (slot : Option Value) :
    (fs.write i name slot).size = fs.size :=
  Array.size_modify

@[simp] theorem size_add (fs : Frames) (enclosing : Option Nat) :
    (fs.add enclosing).size = fs.size + 1 :=
  Array.size_push _

/-- A write never changes which frame encloses which. -/
@[simp] theorem enclosing?_write (fs : Frames) (i j : Nat) (name : String)
    (slot : Option Value) : (fs.write i name slot).enclosing? j = fs.enclosing? j := by
  simp only [enclosing?, write, Array.getElem?_modify]
  split
  · cases fs[j]? <;> rfl
  · rfl

/-- A write is seen at its own frame and name and nowhere else. -/
theorem slot?_write (fs : Frames) {i : Nat} (hi : i < fs.size) (j : Nat)
    (name other : String) (slot : Option Value) :
    (fs.write i name slot).slot? j other =
      if i = j ∧ name = other then some slot else fs.slot? j other := by
  simp only [slot?, write, Array.getElem?_modify]
  by_cases h : i = j
  · subst h
    simp [Array.getElem?_eq_getElem hi, Bindings.get?_insert]
  · simp [h]

/-- A new frame is empty, and the others stay as they are. -/
theorem slot?_add (fs : Frames) (enclosing : Option Nat) (j : Nat) (name : String) :
    (fs.add enclosing).slot? j name = if j = fs.size then none else fs.slot? j name := by
  simp only [slot?, add, Array.getElem?_push]
  split <;> simp [Bindings.get?]

theorem enclosing?_add (fs : Frames) (enclosing : Option Nat) (j : Nat) :
    (fs.add enclosing).enclosing? j = if j = fs.size then enclosing else fs.enclosing? j := by
  simp only [enclosing?, add, Array.getElem?_push]
  split <;> simp

end Frames

end Treewalk
