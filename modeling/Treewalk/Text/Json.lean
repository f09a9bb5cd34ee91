/-!
# JSON documents

A document is laid out in two ways: compactly, without any blank, or pretty, with one member or
element a line and two spaces for each level of nesting.

Numbers come in with their digits chosen, because their layout is a matter of what they count.

## Main definitions

* `Json`: a document.
* `Json.compact`, `Json.pretty`: its two layouts.
-/

namespace Treewalk

/-- A JSON document. -/
inductive Json
  /-- The null document. -/
  | null
  /-- A number, by its digits. -/
  | number (digits : String)
  /-- A text. -/
  | text (value : String)
  /-- A list of documents. -/
  | array (elements : List Json)
  /-- An object with its members in order. -/
  | object (members : List (String × Json))

namespace Json

/-- The last two digits of a number in base sixteen, with small letters. -/
def hexOctet (n : Nat) : List Char :=
  [Nat.digitChar (n / 16), Nat.digitChar (n % 16)]

/-- What is written for one character of a text: quotes, backslashes and control characters are
escaped, the latter by a letter where there is one. -/
def escape (c : Char) : List Char :=
  match c with
  | '"' => ['\\', '"']
  | '\\' => ['\\', '\\']
  | '\x08' => ['\\', 'b']
  | '\x0c' => ['\\', 'f']
  | '\n' => ['\\', 'n']
  | '\r' => ['\\', 'r']
  | '\t' => ['\\', 't']
  | c => if c.toNat < 0x20 then '\\' :: 'u' :: '0' :: '0' :: hexOctet c.toNat else [c]

/-- A text as a JSON string. -/
def quote (text : String) : String :=
  String.ofList ('"' :: (text.toList.flatMap escape ++ ['"']))

/-- Layout parameters: what goes before an element, before a closing bracket and after a colon. -/
structure Spacing where
  /-- What precedes an element at a level of nesting. -/
  before : Nat → String
  /-- What follows the colon of a member. -/
  colon : String

/-- No blanks at all. -/
def Spacing.none : Spacing :=
  ⟨fun _ => "", ""⟩

/-- A line for each element, indented by two spaces a level. -/
def Spacing.lines : Spacing :=
  ⟨fun level => String.ofList ('\n' :: List.replicate (2 * level) ' '), " "⟩

mutual

/-- The text of a document at a level of nesting. -/
def render (s : Spacing) (level : Nat) : Json → String
  | .null => "null"
  | .number digits => digits
  | .text value => quote value
  | .array [] => "[]"
  | .array (e :: es) =>
    "[" ++ s.before (level + 1) ++ render s (level + 1) e ++ renderElements s (level + 1) es ++
      s.before level ++ "]"
  | .object [] => "\x7b\x7d"
  | .object (m :: ms) =>
    "\x7b" ++ s.before (level + 1) ++ renderMember s (level + 1) m ++
      renderMembers s (level + 1) ms ++ s.before level ++ "\x7d"

/-- The text of the elements after the first one. -/
def renderElements (s : Spacing) (level : Nat) : List Json → String
  | [] => ""
  | e :: es => "," ++ s.before level ++ render s level e ++ renderElements s level es

/-- The text of the members after the first one. -/
def renderMembers (s : Spacing) (level : Nat) : List (String × Json) → String
  | [] => ""
  | m :: ms => "," ++ s.before level ++ renderMember s level m ++ renderMembers s level ms

/-- The text of one member. -/
def renderMember (s : Spacing) (level : Nat) : String × Json → String
  | (name, value) => quote name ++ ":" ++ s.colon ++ render s level value

end

/-- A document without any blank. -/
def compact (document : Json) : String :=
  render .none 0 document

/-- A document with a line for each element. -/
def pretty (document : Json) : String :=
  render .lines 0 document

end Json

end Treewalk
