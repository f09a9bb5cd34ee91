/-!
# Faults of a running program

A running program stops at the first operation that cannot be carried out. The fault says why, and
comes with the line of the token at which it happened.

## Main definitions

* `RuntimeFault`, `RuntimeFault.message`: the causes and their wording.
* `RuntimeError`: a fault at a line.
-/

namespace Treewalk

/-- Why an operation cannot be carried out. -/
inductive RuntimeFault
  /-- An operand of the wrong kind; the requirement is worded by the operation. -/
  | typeMismatch (requirement : String)
  /-- A name that nothing binds. -/
  | undefinedVariable (name : String)
  /-- A variable that was declared and never assigned. -/
  | unassignedVariable (name : String)
  /-- A property that is neither a field nor a method. -/
  | undefinedProperty (name : String)
  /-- Something that only objects have, asked of another value. -/
  | notAnObject (what : String)
  /-- A call of something that cannot be called. -/
  | notCallable
  /-- A call with the wrong number of arguments. -/
  | arityMismatch (expected got : Nat)
  /-- A division by zero. -/
  | divisionByZero
  /-- A superclass that is not a class. -/
  | invalidSuperclass
  /-- A built-in function that could not do its work. -/
  | native (message : String)
  deriving DecidableEq

/-- The wording of a fault. -/
def RuntimeFault.message : RuntimeFault → String
  | typeMismatch requirement => requirement
  | undefinedVariable name => "Undefined variable '" ++ name ++ "'."
  | unassignedVariable name => "Variable '" ++ name ++ "' was read before being assigned."
  | undefinedProperty name => "Undefined property '" ++ name ++ "'."
  | notAnObject what => "Only instances have " ++ what ++ "."
  | notCallable => "Can only call functions and classes."
  | arityMismatch expected got =>
    "Expected " ++ toString expected ++ " arguments but got " ++ toString got ++ "."
  | divisionByZero => "Division by zero."
  | invalidSuperclass => "Superclass must be a class."
  | native message => message

/-- A fault at a line. -/
structure RuntimeError where
  /-- What went wrong. -/
  fault : RuntimeFault
  /-- The line of the token at which it did. -/
  line : Nat
  deriving DecidableEq

end Treewalk
