import Treewalk.Evaluation
import Treewalk.Text.Quoted

/-!
# Inspecting values

What a host can see of a value beyond the text that a program writes for it.

## Main definitions

* `Closure.inspection`, `Machine.inspection`: functions and objects with their visible parts.
* `Machine.methodNames`, `Machine.superclassNames`, `Machine.fieldNames`: the names in a class and
  in an object.
-/

namespace Treewalk

/-- Names in order and without repetitions. -/
def sortedNames (names : List String) : List String :=
  (names.mergeSort fun a b => decide (a ≤ b)).eraseReps

/-- A function with its name and its number of parameters. -/
def Closure.inspection (f : Closure) : String :=
  "Function \x7b name: " ++ Quoted.quote f.decl.name.text ++ ", arity: " ++
    toString f.decl.arity ++ " \x7d"

namespace Machine

/-- The names of the methods that a class itself declares, in order. -/
def methodNames (m : Machine) (c : Nat) : List String :=
  sortedNames (m.classes[c]?.elim [] (·.methods.names))

/-- The names of the superclasses of a class, nearest first. -/
def superclassNames (m : Machine) (c : Nat) : List String :=
  (m.lineage c).tail.map m.className

/-- The names of the fields of an object, in order. -/
def fieldNames (m : Machine) (i : Nat) : List String :=
  sortedNames (m.objects[i]?.elim [] (·.fields.names))

/-- The name of the class of an object. -/
def objectClassName (m : Machine) (i : Nat) : String :=
  (m.classOf? i).elim "" m.className

/-- An object with its class and the names of its fields. -/
def inspection (m : Machine) (i : Nat) : String :=
  "Instance \x7b class: " ++ Quoted.quote (m.objectClassName i) ++ ", fields: [" ++
    ", ".intercalate ((m.fieldNames i).map Quoted.quote) ++ "] \x7d"

end Machine

end Treewalk
