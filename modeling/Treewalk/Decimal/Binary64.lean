/-!
# Rational values of binary64 numbers

Every finite binary64 magnitude is a whole number of units of `2 ^ -1074`, the smallest positive
one. A magnitude is named here by its *pattern*: the natural number of its sixty-four bits with the
sign bit clear. Patterns are ordered as their values are.

## Main definitions

* `Binary64.units`: the value of a finite pattern, counted in units.
* `Binary64.ofRatio`: the pattern nearest to a rational number, ties going to the even pattern.
* `Binary64.Parts`: a float taken apart into sign and pattern.
-/

namespace Treewalk.Binary64

/-- The unit is `2 ^ -unitExponent`. -/
def unitExponent : Nat := 1074

/-- The number of units in one. -/
def one : Nat := Nat.pow 2 unitExponent

/-- The number of bits that a pattern spends on its fraction. -/
def fractionBits : Nat := 52

/-- The pattern of infinity, the first that is not finite. -/
def infinity : Nat := 0x7FF0000000000000

/-- The value of a finite pattern, counted in units. -/
def units (pattern : Nat) : Nat :=
  let fraction := pattern % Nat.pow 2 fractionBits
  match pattern / Nat.pow 2 fractionBits with
  | 0 => fraction
  | scale + 1 => (Nat.pow 2 fractionBits + fraction) * Nat.pow 2 scale

/-- The whole number nearest to `num / den`; a tie goes to the even one. -/
def roundHalfEven (num den : Nat) : Nat :=
  let quotient := num / den
  let excess := 2 * (num % den)
  if excess < den then quotient
  else if den < excess then quotient + 1
  else if quotient % 2 = 0 then quotient
  else quotient + 1

/-- The pattern nearest to `num / den`; a tie goes to the even pattern, and what is too large is
infinite. The scale is chosen so that the rounded fraction, leading bit included, fills
fifty-three bits; a fraction that rounds up to the next power of two carries into the scale. -/
def ofRatio (num den : Nat) : Nat :=
  let scale := (num * one / den).log2 - fractionBits
  min infinity (scale * Nat.pow 2 fractionBits + roundHalfEven (num * one) (den * Nat.pow 2 scale))

/-- A float taken apart. -/
inductive Parts
  /-- Not a number. -/
  | nan
  /-- An infinity, with its sign. -/
  | infinite (negative : Bool)
  /-- A finite number, with its sign and the pattern of its magnitude. -/
  | finite (negative : Bool) (pattern : Nat)
  deriving DecidableEq

/-- The parts of a float. -/
def parts (x : Float) : Parts :=
  let bits := x.toBits.toNat
  let pattern := bits % Nat.pow 2 63
  let negative := decide (Nat.pow 2 63 ≤ bits)
  if pattern < infinity then .finite negative pattern
  else if pattern = infinity then .infinite negative
  else .nan

/-- The float with a clear sign bit and the given pattern. -/
def ofPattern (pattern : Nat) : Float :=
  Float.ofBits (UInt64.ofNat pattern)

end Treewalk.Binary64
