import Treewalk.Decimal.Binary64

/-!
# Shortest decimals

The shortest decimal of a binary64 pattern has the fewest digits among the decimals that round to
that pattern, and is the one nearest to the pattern's value among those.

On the grid of decimals with a given last place, the only candidates are the two neighbours of the
value, so the search tries the two neighbours on ever finer grids and takes the first grid with a
hit. Seventeen digits always suffice; the exact expansion of the value closes the search.

## Main definitions

* `Decimal`: a whole number times a power of ten.
* `Decimal.pattern`: the binary64 pattern that a decimal rounds to.
* `Decimal.shortest`: the shortest decimal of a pattern.
-/

namespace Treewalk

/-- The decimal number `coefficient * 10 ^ exponent`. -/
structure Decimal where
  /-- All digits, as one whole number. -/
  coefficient : Nat
  /-- The place of the last digit. -/
  exponent : Int
  deriving DecidableEq

namespace Decimal

/-- Numerator of the value of a decimal. -/
def num (d : Decimal) : Nat :=
  d.coefficient * Nat.pow 10 d.exponent.toNat

/-- Denominator of the value of a decimal. -/
def den (d : Decimal) : Nat :=
  Nat.pow 10 (-d.exponent).toNat

/-- The binary64 pattern nearest to a decimal. -/
def pattern (d : Decimal) : Nat :=
  Binary64.ofRatio d.num d.den

/-- Drops up to `count` trailing zeros of the coefficient, keeping the value. -/
def dropZeros : Nat → Decimal → Decimal
  | 0, d => d
  | count + 1, d =>
    if d.coefficient % 10 = 0 ∧ d.coefficient ≠ 0 then
      dropZeros count ⟨d.coefficient / 10, d.exponent + 1⟩
    else d

/-- The same value without trailing zeros in the coefficient. -/
def normalize (d : Decimal) : Decimal :=
  dropZeros d.coefficient d

/-- Which of two equally near decimals is taken. -/
inductive Tie
  /-- The larger one. -/
  | up
  /-- The one whose last digit is even. -/
  | even
  deriving DecidableEq

/-- Whether the upper of the two neighbours of `low + rest / step` is to be taken. -/
def Tie.takesUpper (tie : Tie) (low rest step : Nat) : Bool :=
  match compare (2 * rest) step with
  | .lt => false
  | .gt => true
  | .eq => match tie with
    | .up => true
    | .even => low % 2 = 1

/-- The nearest decimal with last place `place` that rounds to `target`, if one does. -/
def onGrid? (tie : Tie) (target : Nat) (place : Int) : Option Decimal :=
  let num := Binary64.units target * Nat.pow 10 (-place).toNat
  let den := Binary64.one * Nat.pow 10 place.toNat
  let low : Decimal := ⟨num / den, place⟩
  let high : Decimal := ⟨num / den + 1, place⟩
  if low.pattern = target then
    if high.pattern = target then
      some (if tie.takesUpper (num / den) (num % den) den then high else low)
    else some low
  else if high.pattern = target then some high
  else none

/-- The place of the first digit of the value of a pattern. No value lies below `10 ^ -324`. -/
def leadingPlace (target : Nat) : Int :=
  let scaled := Binary64.units target * Nat.pow 10 324 / Binary64.one
  (Nat.toDigits 10 scaled).length - 325

/-- The exact value of a pattern as a decimal. -/
def exact (target : Nat) : Decimal :=
  ⟨Binary64.units target * Nat.pow 5 Binary64.unitExponent, -Binary64.unitExponent⟩

/-- The first hit on `count` grids, each ten times finer than the one before it, from last place
`place` on; the exact value if there is no hit. -/
def search (tie : Tie) (target : Nat) (place : Int) : Nat → Decimal
  | 0 => exact target
  | count + 1 => (onGrid? tie target place).getD (search tie target (place - 1) count)

/-- The shortest decimal that rounds to a finite pattern. -/
def shortest (tie : Tie) (target : Nat) : Decimal :=
  if target = 0 then ⟨0, 0⟩
  else (search tie target (leadingPlace target) 17).normalize

end Decimal

end Treewalk
