import Treewalk.Text.Utf8

/-!
# Lines of an octet stream

A line runs up to and including the next line feed, or to the end of the stream. Lines are cut off
before they are decoded, so a line that is not UTF-8 is still taken off the stream as a whole.

## Main definitions

* `Line.take`: the first line of a stream and what follows it.
* `Line.read`: the first line of a stream as a text.
* `Line.trim`: a line without its ending.
-/

namespace Treewalk.Line

/-- The octet that ends a line. -/
def feed : UInt8 := 10

/-- The octets of the first line, its line feed included, and those after it. -/
def take (stream : List UInt8) : List UInt8 × List UInt8 :=
  let line := stream.takeWhile (· != feed)
  match stream.dropWhile (· != feed) with
  | [] => (line, [])
  | octet :: rest => (line ++ [octet], rest)

/-- What taking a line off a stream can give. -/
inductive Taken
  /-- The stream was at its end. -/
  | ended
  /-- The line is not UTF-8. -/
  | malformed
  /-- The line, its ending included. -/
  | text (line : String)

/-- The line that given octets are, of which there are none only at the end of a stream. -/
def ofOctets (octets : List UInt8) : Taken :=
  if octets.isEmpty then .ended
  else match Utf8.decode octets with
    | .error _ => .malformed
    | .ok cs => .text (String.ofList cs)

/-- Takes the first line off a stream. -/
def read (stream : List UInt8) : Taken × List UInt8 :=
  let (line, rest) := take stream
  (ofOctets line, rest)

/-- A character that belongs to a line ending. -/
def isEnding (c : Char) : Bool :=
  c == '\n' || c == '\r'

/-- A line without the line feeds and carriage returns at its end. -/
def trim (line : String) : String :=
  String.ofList (line.toList.reverse.dropWhile isEnding).reverse

/-- The wording of a line that is not UTF-8. -/
def malformedMessage : String :=
  "stream did not contain valid UTF-8"

end Treewalk.Line
