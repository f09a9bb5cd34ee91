import Std.Time.DateTime.Timestamp
import Treewalk.CommandLine

/-!
# The program

The outermost layer reads files, the standard input and the clock, carries out the command line on
them, and writes what it leaves behind.

A program can only read input through the built-in function for it. So the input is taken line by
line as long as no line names that function, and as a whole before the first line that does.
-/

namespace Treewalk.Main

/-- Fuel that no program uses up. -/
def fuel : Nat := 0x3fffffffffffffff

/-- The readings of a clock that has just been started. -/
def clockFrom (milliseconds : Nat) : Nat → Nat :=
  fun reading => milliseconds + reading

/-- The milliseconds since the beginning of the year 1970. -/
def milliseconds : IO Nat := do
  return (← Std.Time.Timestamp.now).toMillisecondsSinceUnixEpoch.val.toNat

/-- The octets of a file. -/
def readFile (name : String) : IO (Except FileFault (List UInt8)) := do
  try
    return .ok (← IO.FS.readBinFile name).toList
  catch
    | .noFileOrDirectory .. => return .error .missing
    | .inappropriateType (some _) .. => return .error .throughFile
    | .inappropriateType none .. => return .error .isDirectory
    | .invalidArgument .. => return .error .nameTooLong
    | .permissionDenied .. => return .error (.refused "Permission denied (os error 13)")
    | e => return .error (.refused (toString e))

/-- Octets of the standard input up to the end of a line, or all that are left. -/
partial def readInput (input : IO.FS.Stream) (wholeInput : Bool) (done : List UInt8) :
    IO (List UInt8) := do
  let octets := (← input.read 1).toList
  let done := octets ++ done
  if octets.isEmpty || (!wholeInput && octets.contains Line.feed) then return done.reverse
  else readInput input wholeInput done

/-- Whether a text names the built-in function that reads input. -/
def mentionsInput (source : String) : Bool :=
  (Token.tokensOf (Token.scan source)).any fun t => t.lexeme == Native.readLine.name

/-- Writes what a process leaves behind. -/
def leave (outcome : Option Outcome) : IO UInt32 := do
  match outcome with
  | none => return 1
  | some outcome =>
    (← IO.getStdout).putStr outcome.output
    (← IO.getStdout).flush
    (← IO.getStderr).putStr outcome.errors
    return outcome.code.toUInt32

/-- Prompts a session to the end of its input, after a first prompt that has been written
already. -/
def converseAll (s : Session) (input : List UInt8) : IO UInt32 :=
  let outcome := CommandLine.promptAll fuel { s with machine := { s.machine with input := input } }
  leave <| outcome.map fun o =>
    { o with output := String.ofList (o.output.toList.drop CommandLine.promptText.length) }

/-- Prompts for lines and answers each. -/
partial def converse (s : Session) : IO UInt32 := do
  let input ← IO.getStdin
  let output ← IO.getStdout
  output.putStr CommandLine.promptText
  output.flush
  let octets ← readInput input false []
  match Line.ofOctets octets with
  | .text line =>
    if mentionsInput line then converseAll s (octets ++ (← readInput input true []))
    else
      match CommandLine.answer fuel s line with
      | none => return 1
      | some (written, reported, s) =>
        output.putStr written
        output.flush
        (← IO.getStderr).putStr reported
        converse s
  | _ => converseAll s octets

/-- Runs a file, with the standard input if the file can read it. -/
def runFile (host : Host) (name : String) (arguments : List String) : IO UInt32 := do
  let reads := match CommandLine.sourceOf host name with
    | .ok source => mentionsInput source
    | .error _ => false
  let input ← if reads then readInput (← IO.getStdin) true [] else pure []
  leave (CommandLine.run { host with input := input } fuel arguments)

end Treewalk.Main

open Treewalk in
/-- The program. -/
def main (arguments : List String) : IO UInt32 := do
  if CommandLine.makesLog arguments then IO.FS.writeFile CommandLine.logFile ""
  let clock := Main.clockFrom (← Main.milliseconds)
  match Request.ofArguments? arguments with
  | some (.perform .prompt _) => Main.converse (.start clock [])
  | some (.perform (.tokenize name _) _) =>
    let file ← Main.readFile name
    Main.leave (CommandLine.run ⟨fun _ => file, [], clock⟩ Main.fuel arguments)
  | some (.perform (.run name) _) =>
    let file ← Main.readFile name
    Main.runFile ⟨fun _ => file, [], clock⟩ name arguments
  | _ => Main.leave (CommandLine.run ⟨fun _ => .error .missing, [], clock⟩ Main.fuel arguments)
