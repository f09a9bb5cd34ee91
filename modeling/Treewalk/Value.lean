import Treewalk.Bindings
import Treewalk.Fault
import Treewalk.Syntax
import Treewalk.Token.Listing

/-!
# Values

The values of a running program. Frames, classes and objects live in tables of the machine and are
known by their numbers, so equality of such values is identity. A function carries its declaration
and the frame that it closes over, and a number that tells it from every other function made.

## Main definitions

* `Closure`, `Native`, `Value`: functions, built-in functions and values.
* `Value.equal`: the equality of the language.
* `UnaryOp.apply`, `BinaryOp.apply`: the operators.
* `numberText`: how a program writes numbers.
-/

namespace Treewalk

/-- A function together with the frame that it closes over. -/
structure Closure where
  /-- The number that tells this function from all others. -/
  id : Nat
  /-- Its declaration. -/
  decl : FunctionDecl
  /-- The frame around its body. -/
  frame : Nat
  /-- Whether a call hands back the receiver whatever the body returns. -/
  isInitializer : Bool

/-- The built-in functions. -/
inductive Native
  | clock | print | printLine | readLine
  deriving DecidableEq

namespace Native

/-- The global name of a built-in function. -/
def name : Native → String
  | clock => "clock"
  | print => "print"
  | printLine => "printLine"
  | readLine => "readLine"

/-- How many arguments a built-in function takes. -/
def arity : Native → Nat
  | clock => 0
  | print => 1
  | printLine => 1
  | readLine => 0

/-- All built-in functions. -/
def all : List Native :=
  [clock, print, printLine, readLine]

end Native

/-- The values of a running program. -/
inductive Value
  | nil
  | bool (value : Bool)
  | number (value : Float)
  | string (text : String)
  | native (n : Native)
  | function (f : Closure)
  | cls (id : Nat)
  | object (id : Nat)

/-- The value of a constant. -/
def Literal.value : Literal → Value
  | nil => .nil
  | bool b => .bool b
  | number x => .number x
  | string s => .string s

namespace Value

/-- Only nil and false count as false in a condition. -/
def isTruthy : Value → Bool
  | nil => false
  | bool b => b
  | _ => true

/-- The equality of the language: values of different kinds differ, numbers are equal when their
values are, and everything that has an identity is equal only to itself. -/
def equal : Value → Value → Bool
  | nil, nil => true
  | bool a, bool b => a == b
  | number a, number b => a == b
  | string a, string b => a == b
  | native a, native b => a == b
  | function f, function g => f.id == g.id
  | cls a, cls b => a == b
  | object a, object b => a == b
  | _, _ => false

/-- The name of the kind of a value. -/
def typeName : Value → String
  | nil => "nil"
  | bool _ => "boolean"
  | number _ => "number"
  | string _ => "string"
  | native _ => "function"
  | function _ => "function"
  | cls _ => "class"
  | object _ => "instance"

end Value

/-- The first whole number that a program writes with an exponent, in powers of ten. -/
def exponentFrom : Nat := 21

/-- A number as a program writes it: whole numbers digit by digit, from `10 ^ 21` on with an
exponent, and all others in their shortest positional form. -/
def numberText (x : Float) : String :=
  match Binary64.parts x with
  | .nan => "NaN"
  | .infinite negative => if negative then "-Infinity" else "Infinity"
  | .finite negative pattern =>
    String.ofList <| Token.signText negative ++
      if Nat.pow 10 exponentFrom ≤ Binary64.wholePart pattern then
        (Decimal.shortest .up pattern).scientific false
      else if Binary64.isWhole pattern then Decimal.digits (Binary64.wholePart pattern)
      else (Decimal.shortest .up pattern).positional

/-- An operand is required to be a number. -/
def numberRequired : RuntimeFault :=
  .typeMismatch "Operand must be a number."

/-- Both operands are required to be numbers. -/
def numbersRequired : RuntimeFault :=
  .typeMismatch "Operands must be numbers."

/-- The operands are required to be numbers, or one of them a text. -/
def numbersOrStringRequired : RuntimeFault :=
  .typeMismatch "Operands must be two numbers or at least one string."

/-- The value of a prefix operator. -/
def UnaryOp.apply : UnaryOp → Value → Except RuntimeFault Value
  | negate, .number x => .ok (.number (-x))
  | negate, _ => .error numberRequired
  | not, v => .ok (.bool !v.isTruthy)

/-- The value of an operator on two numbers. -/
def BinaryOp.applyNumbers (op : BinaryOp) (x y : Float) : Except RuntimeFault Value :=
  match op with
  | equal => .ok (.bool (x == y))
  | notEqual => .ok (.bool (x != y))
  | greater => .ok (.bool (decide (y < x)))
  | greaterEqual => .ok (.bool (decide (y ≤ x)))
  | less => .ok (.bool (decide (x < y)))
  | lessEqual => .ok (.bool (decide (x ≤ y)))
  | add => .ok (.number (x + y))
  | subtract => .ok (.number (x - y))
  | multiply => .ok (.number (x * y))
  | divide => if y == 0 then .error .divisionByZero else .ok (.number (x / y))

/-- The value of an infix operator. Any two values can be compared for equality, and a text can be
joined with any value, whose text the function `text` gives. -/
def BinaryOp.apply (text : Value → String) :
    BinaryOp → Value → Value → Except RuntimeFault Value
  | equal, v, w => .ok (.bool (v.equal w))
  | notEqual, v, w => .ok (.bool !(v.equal w))
  | op, .number x, .number y => op.applyNumbers x y
  | add, .string s, w => .ok (.string (s ++ text w))
  | add, v, .string s => .ok (.string (text v ++ s))
  | add, _, _ => .error numbersOrStringRequired
  | _, _, _ => .error numbersRequired

/-- Whether the left operand alone decides. -/
def LogicalOp.decides : LogicalOp → Value → Bool
  | and, v => !v.isTruthy
  | or, v => v.isTruthy

end Treewalk
