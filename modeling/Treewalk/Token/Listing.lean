import Treewalk.Text.Json
import Treewalk.Token.Scan

/-!
# Token listings

A token is listed on a line of its own, by name, lexeme and literal value, or as a JSON document.

The two listings lay numbers out differently. The plain one writes every number positionally, whole
numbers below `10 ^ 15` with a fraction digit. The JSON one has at least one fraction digit as long
as the first digit stands between the fifth place after the point and the sixteenth before it, and
an exponent otherwise.

## Main definitions

* `Token.listing`: the line of a token.
* `Token.document`: the JSON document of a token.
-/

namespace Treewalk

namespace Binary64

/-- Whether the value of a finite pattern is a whole number. -/
def isWhole (pattern : Nat) : Bool :=
  units pattern % one = 0

/-- The whole part of the value of a finite pattern. -/
def wholePart (pattern : Nat) : Nat :=
  units pattern / one

end Binary64

namespace Token

/-- A minus sign, or nothing. -/
def signText (negative : Bool) : List Char :=
  if negative then ['-'] else []

/-- A number as the plain listing writes it. Small whole numbers have one fraction digit, and no
sign when they are zero. -/
def plainNumber (x : Float) : String :=
  match Binary64.parts x with
  | .nan => "NaN"
  | .infinite negative => if negative then "-inf" else "inf"
  | .finite negative pattern =>
    String.ofList <|
      if Binary64.isWhole pattern && decide (Binary64.wholePart pattern < Nat.pow 10 15) then
        signText (negative && pattern != 0) ++ Decimal.digits (Binary64.wholePart pattern) ++
          ['.', '0']
      else signText negative ++ (Decimal.shortest .up pattern).positional

/-- A number as the JSON listing writes it, if it is finite. -/
def jsonNumber? (x : Float) : Option String :=
  match Binary64.parts x with
  | .nan | .infinite _ => none
  | .finite negative pattern =>
    let d := Decimal.shortest .even pattern
    some <| String.ofList <| signText negative ++
      if pattern = 0 ∨ (-5 ≤ d.magnitude ∧ d.magnitude < 16) then
        d.positional ++ (if 0 ≤ d.exponent then ['.', '0'] else [])
      else d.scientific true

/-- The literal value of a token as the plain listing writes it. -/
def literalText (t : Token) : String :=
  match t.kind with
  | .string text => text
  | .number x => plainNumber x
  | _ => "null"

/-- The line of a token: its name, its lexeme and its literal value. -/
def listing (t : Token) : String :=
  t.kind.name ++ " " ++ t.lexeme ++ " " ++ t.literalText

/-- The kind of a token as a JSON document. -/
def kindDocument (kind : TokenKind) : Json :=
  match kind with
  | .string text => .object [(kind.name, .text text)]
  | .number x => .object [(kind.name, (jsonNumber? x).elim .null .number)]
  | _ => .text kind.name

/-- A token as a JSON document. -/
def document (t : Token) : Json :=
  .object [("token_type", kindDocument t.kind), ("lexeme", .text t.lexeme),
    ("line", .number (toString t.line))]

end Token

end Treewalk
