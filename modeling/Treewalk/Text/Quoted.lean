import Treewalk.Text.Printable

/-!
# Quoted texts

A quoted text stands between double quotes. The quote and the backslash are written after a
backslash, the common control characters as a letter after one, and every other character that
would not show as itself by its code point in braces.

## Main definitions

* `Quoted.escape`: what is written for one character.
* `Quoted.quote`: a text in quotes.
-/

namespace Treewalk.Quoted

/-- The digits of a number in base sixteen, with small letters. -/
def hexDigits (n : Nat) : List Char :=
  Nat.toDigits 16 n

/-- What is written for one character of a quoted text. -/
def escape (c : Char) : List Char :=
  match c with
  | '\x00' => ['\\', '0']
  | '\t' => ['\\', 't']
  | '\n' => ['\\', 'n']
  | '\r' => ['\\', 'r']
  | '"' => ['\\', '"']
  | '\\' => ['\\', '\\']
  | c =>
    if Printable.isExtending c || Printable.isUnprintable c then
      '\\' :: 'u' :: '\x7b' :: (hexDigits c.toNat ++ ['\x7d'])
    else [c]

/-- A text in double quotes. -/
def quote (text : String) : String :=
  String.ofList ('"' :: (text.toList.flatMap escape ++ ['"']))

end Treewalk.Quoted
