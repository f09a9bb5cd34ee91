import Treewalk.Frame
import Treewalk.Scope
import Treewalk.Text.Line

/-!
# The machine

The state of a running program: the tables of frames, classes and objects, the current frame, the
distances found out about the nodes of the program, and the program's input, output and clock.

## Main definitions

* `Distances`: the recorded distances.
* `Lookup`: how the frame that holds a name is found.
* `ClassInfo`, `ObjectInfo`: classes and objects as the tables hold them.
* `Machine`: the state.
* `Machine.lineage`, `Machine.findMethod?`: a class with its superclasses, and the methods that
  they have.
* `Machine.text`: a value as a program writes it.
-/

namespace Treewalk

/-- How many frames outward the binding of a node lies, for the nodes for which that is known. A
node without a distance is bound globally. -/
abbrev Distances := Array (Option Nat)

namespace Distances

/-- The distance of a node. -/
def get? (ds : Distances) (id : Nat) : Option Nat :=
  ds[id]?.join

/-- Records the distance of a node. -/
def record (ds : Distances) (id : Nat) (hops : Nat) : Distances :=
  (ds ++ Array.replicate (id + 1 - ds.size) none).setIfInBounds id (some hops)

/-- A record is seen at its own node and nowhere else. -/
theorem get?_record (ds : Distances) (id other : Nat) (hops : Nat) :
    (ds.record id hops).get? other = if id = other then some hops else ds.get? other := by
  simp only [get?, record, Array.getElem?_setIfInBounds, Array.size_append, Array.size_replicate,
    Array.getElem?_append, Array.getElem?_replicate]
  by_cases h : id = other
  · subst h
    simp [show id < ds.size + (id + 1 - ds.size) by omega]
  · simp only [h, if_false]
    by_cases hs : other < ds.size
    · simp [hs]
    · simp only [hs, if_false, Array.getElem?_eq_none (Nat.le_of_not_lt hs)]
      split <;> rfl

/-- Records the distances among findings. -/
def recordAll (ds : Distances) (findings : List Finding) : Distances :=
  findings.foldl (fun ds finding => match finding with
    | .distance id hops => ds.record id hops
    | .broken _ => ds) ds

end Distances

/-- How the frame that holds a name is found. -/
inductive Lookup
  /-- The frame at the distance of the node or, for a node without a distance, the global frame. -/
  | resolved
  /-- The nearest frame that holds the name, from the current frame outward. -/
  | chained
  deriving DecidableEq

/-- A class as the table holds it. -/
structure ClassInfo where
  /-- Its name. -/
  name : String
  /-- Its superclass, which was made before it. -/
  superclass : Option Nat
  /-- Its own methods. -/
  methods : Bindings Closure

/-- An object as the table holds it. -/
structure ObjectInfo where
  /-- Its class. -/
  cls : Nat
  /-- Its fields. -/
  fields : Bindings Value

/-- The state of a running program. -/
structure Machine where
  /-- All frames made so far. -/
  frames : Frames
  /-- All classes made so far. -/
  classes : Array ClassInfo
  /-- All objects made so far. -/
  objects : Array ObjectInfo
  /-- How many functions have been made. -/
  closures : Nat
  /-- The frame in which names are looked up. -/
  current : Nat
  /-- The recorded distances. -/
  distances : Distances
  /-- The octets not yet read. -/
  input : List UInt8
  /-- What has been written and not yet been handed over. -/
  output : String
  /-- The readings of the clock, in milliseconds, in the order in which they will be taken. -/
  clock : Nat → Nat
  /-- How many readings have been taken. -/
  readings : Nat

/-- The frame of the global variables. -/
def globalFrame : Nat := 0

/-- The frames of a program that has not begun: the built-in functions are global. -/
def initialFrames : Frames :=
  #[⟨none, Native.all.map fun n => (n.name, some (.native n))⟩]

namespace Machine

/-- A machine before any program has run. -/
def start (clock : Nat → Nat) (input : List UInt8) : Machine where
  frames := initialFrames
  classes := #[]
  objects := #[]
  closures := 0
  current := globalFrame
  distances := #[]
  input := input
  output := ""
  clock := clock
  readings := 0

/-! ### Classes and objects -/

/-- The name of a class. -/
def className (m : Machine) (c : Nat) : String :=
  m.classes[c]?.elim "" (·.name)

/-- The superclass of a class. -/
def superclass? (m : Machine) (c : Nat) : Option Nat :=
  m.classes[c]?.bind (·.superclass)

/-- At most `bound` classes from a class upward, itself first. -/
def lineageFrom (m : Machine) : (bound : Nat) → Nat → List Nat
  | 0, _ => []
  | bound + 1, c => c :: (m.superclass? c).elim [] (lineageFrom m bound)

/-- A class and its superclasses, nearest first. None is longer than the table. -/
def lineage (m : Machine) (c : Nat) : List Nat :=
  m.lineageFrom m.classes.size c

/-- The method that a class itself declares under a name. -/
def ownMethod? (m : Machine) (c : Nat) (name : String) : Option Closure :=
  m.classes[c]?.bind (·.methods.get? name)

/-- The method of the nearest class in a lineage that declares one under a name. -/
def findMethod? (m : Machine) (c : Nat) (name : String) : Option Closure :=
  (m.lineage c).findSome? fun c => m.ownMethod? c name

/-- The class of an object. -/
def classOf? (m : Machine) (i : Nat) : Option Nat :=
  m.objects[i]?.map (·.cls)

/-- The field of an object. -/
def field? (m : Machine) (i : Nat) (name : String) : Option Value :=
  m.objects[i]?.bind (·.fields.get? name)

/-- The number of arguments that a value takes, if it can be called. A class takes those of its
initializer. -/
def arity? (m : Machine) : Value → Option Nat
  | .native n => some n.arity
  | .function f => some f.decl.arity
  | .cls c => some ((m.findMethod? c initializerName).elim 0 (·.decl.arity))
  | _ => none

/-! ### Variables -/

/-- The frame that holds a name at a node. -/
def holderOf (m : Machine) (lookup : Lookup) (id : Nat) (name : String) : Option Nat :=
  match lookup with
  | .resolved =>
    match m.distances.get? id with
    | some distance => m.frames.holderAt? m.current distance name
    | none => m.frames.holder? globalFrame name
  | .chained => m.frames.holder? m.current name

/-! ### Texts -/

/-- A value as a program writes it. -/
def text (m : Machine) : Value → String
  | .nil => "nil"
  | .bool true => "true"
  | .bool false => "false"
  | .number x => numberText x
  | .string s => s
  | .native n => "<native fn " ++ n.name ++ ">"
  | .function f => "<fn " ++ f.decl.name.text ++ ">"
  | .cls c => m.className c
  | .object i => (m.classOf? i).elim "" m.className ++ " instance"

/-- Writes a text to the output. -/
def write (m : Machine) (text : String) : Machine :=
  { m with output := m.output ++ text }

/-- Hands the output over. -/
def takeOutput (m : Machine) : String × Machine :=
  (m.output, { m with output := "" })

/-- Takes a line off the input. -/
def readLine (m : Machine) : Line.Taken × Machine :=
  let (taken, rest) := Line.read m.input
  (taken, { m with input := rest })

end Machine

end Treewalk
