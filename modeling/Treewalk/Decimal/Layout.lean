import Treewalk.Decimal.Shortest

/-!
# Layouts of decimals

A decimal is written positionally, with a point where its exponent asks for one, or scientifically,
with one digit before the point and an exponent.

## Main definitions

* `Decimal.positional`, `Decimal.scientific`: the two layouts.
* `Decimal.read`: the decimal that digits and fraction digits denote.
-/

namespace Treewalk.Decimal

/-- The decimal digits of a number. -/
def digits (n : Nat) : List Char :=
  Nat.toDigits 10 n

/-- The number that a list of decimal digits denotes. -/
def ofDigits (ds : List Char) : Nat :=
  ds.foldl (fun n c => 10 * n + (c.toNat - '0'.toNat)) 0

/-- The decimal written with `whole` before the point and `fraction` after it. -/
def read (whole fraction : List Char) : Decimal :=
  ⟨ofDigits (whole ++ fraction), -fraction.length⟩

/-- A decimal with all digits in place: zeros pad to the point on either side, and there is a point
only before fraction digits. -/
def positional (d : Decimal) : List Char :=
  let ds := digits d.coefficient
  match d.exponent with
  | .ofNat zeros => ds ++ List.replicate zeros '0'
  | .negSucc n =>
    let places := n + 1
    if places < ds.length then
      ds.take (ds.length - places) ++ '.' :: ds.drop (ds.length - places)
    else '0' :: '.' :: (List.replicate (places - ds.length) '0' ++ ds)

/-- The power of ten of the first digit. -/
def magnitude (d : Decimal) : Int :=
  d.exponent + ((digits d.coefficient).length - 1 : Nat)

/-- A decimal with one digit before the point and an exponent, whose sign is written when negative
and, if `plus` is set, when positive too. -/
def scientific (plus : Bool) (d : Decimal) : List Char :=
  let significand := match digits d.coefficient with
    | [] => []
    | [c] => [c]
    | c :: rest => c :: '.' :: rest
  let sign := if d.magnitude < 0 then ['-'] else if plus then ['+'] else []
  significand ++ 'e' :: (sign ++ digits d.magnitude.natAbs)

end Treewalk.Decimal
