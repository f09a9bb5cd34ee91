import Treewalk.CommandLine.Directory
import Treewalk.CommandLine.Request
import Treewalk.Session
import Treewalk.Text.Quoted
import Treewalk.Token.Listing

/-!
# The command line

A process lists the tokens of a file, runs a file, or prompts for one line after the other and runs
each. Reports go to the error stream, one a line.

What a process finds outside of itself, its arguments, files, input and clock, is given to it as a
value, and so is what it leaves behind.

## Main definitions

* `Host`, `Outcome`: what a process finds outside of itself, and what it leaves behind.
* `CommandLine.tokenize`, `CommandLine.runText`, `CommandLine.prompt`: the three commands.
* `CommandLine.run`: a whole process.
-/

namespace Treewalk

/-- What a process finds outside of itself. -/
structure Host where
  /-- The octets of the files. -/
  file : String → Except FileFault (List UInt8)
  /-- The octets of the standard input. -/
  input : List UInt8
  /-- The readings of the clock, in milliseconds. -/
  clock : Nat → Nat

/-- What a process leaves behind. -/
structure Outcome where
  /-- The exit code. -/
  code : Nat
  /-- What it wrote to the standard output. -/
  output : String
  /-- What it wrote to the error stream. -/
  errors : String

namespace CommandLine

/-- The wording of the version. -/
def versionText : String := "rox 0.1.0\n"

/-- The wording of the usage. -/
def usageText : String :=
  String.join <| (· ++ "\n") <$>
    ["Tree-walking interpreter for a small scripting language",
      "",
      "Usage: rox [OPTIONS] [COMMAND]",
      "",
      "Commands:",
      "  tokenize  Tokenizes input from a file, printing each token",
      "  run       Runs input from a file as a program",
      "  repl      Reads and runs programs line by line (the default)",
      "  help      Print this message or the help of the given subcommand(s)",
      "",
      "Options:",
      "      --log      Enable logging to app.log",
      "  -h, --help     Print help",
      "  -V, --version  Print version"]

/-- The file that a log is written to. -/
def logFile : String := "app.log"

/-- The exit code for arguments that cannot be understood. -/
def usageCode : Nat := 2

/-- The exit code for a failure outside of the program that is run. -/
def hostCode : Nat := 1

/-- The wording of a failure outside of the program that is run. -/
def hostFailure (context cause : String) : String :=
  "Error: " ++ context ++ "\n\nCaused by:\n    " ++ cause ++ "\n"

/-- The lines that are shown for reports. -/
def reportLines (reports : List Report) : String :=
  String.join (reports.map fun r => r.text ++ "\n")

/-- The text of a file, or the wording of why there is none. -/
def sourceOf (host : Host) (name : String) : Except String String :=
  match host.file name with
  | .error fault => .error (hostFailure (fault.action ++ Quoted.quote name) fault.message)
  | .ok octets =>
    match Utf8.decode octets with
    | .error m =>
      .error (hostFailure ("File " ++ Quoted.quote name ++ " is not valid UTF-8") m.message)
    | .ok cs => .ok (String.ofList cs)

/-- Lists the tokens of a text. -/
def tokenize (source : String) (json : Bool) : Outcome :=
  let items := Token.scan source
  let tokens := Token.tokensOf items
  let errors := Token.errorsOf items
  { code := if errors.isEmpty then Status.ok.exitCode else Status.staticError.exitCode
    output :=
      if json then (Json.array (tokens.map Token.document)).pretty ++ "\n"
      else String.join (tokens.map fun t => t.listing ++ "\n")
    errors := reportLines (errors.map (·.report)) }

/-- Runs a text; none if the fuel does not suffice. -/
def runText (host : Host) (fuel : Nat) (source : String) : Option Outcome := do
  let (status, s) ← (Session.start host.clock host.input).run fuel source
  return ⟨status.exitCode, s.machine.output, reportLines s.diagnostics.reports⟩

/-- What is written before a line is read. -/
def promptText : String := "> "

/-- Runs a line that was prompted for; what it wrote and the lines for its reports are handed over.
None if the fuel does not suffice. -/
def answer (fuel : Nat) (s : Session) (line : String) : Option (String × String × Session) := do
  let (_, s) ← s.run fuel line
  let (written, s) := s.takeOutput
  let (reports, s) := s.takeReports
  return (written, reportLines reports, s)

/-- Prompts at most `bound` times. The lines that a program reads come from the same input as those
that are prompted for. What was written so far is in `output` and `errors`. -/
def promptFrom (fuel : Nat) :
    (bound : Nat) → Session → (output errors : String) → Option Outcome
  | 0, _, output, errors => some ⟨Status.ok.exitCode, output, errors⟩
  | bound + 1, s, output, errors =>
    let (taken, m) := s.machine.readLine
    let output := output ++ promptText
    match taken with
    | .ended => some ⟨Status.ok.exitCode, output ++ "\n", errors⟩
    | .malformed =>
      some ⟨hostCode, output,
        errors ++ hostFailure "Failed to read from stdin" Line.malformedMessage⟩
    | .text line => do
      let (written, reported, s) ← answer fuel { s with machine := m } line
      promptFrom fuel bound s (output ++ written) (errors ++ reported)

/-- Prompts until the input of a session ends. Every line takes at least one octet off it. -/
def promptAll (fuel : Nat) (s : Session) : Option Outcome :=
  promptFrom fuel (s.machine.input.length + 1) s "" ""

/-- Prompts until the input ends. -/
def prompt (host : Host) (fuel : Nat) : Option Outcome :=
  promptAll fuel (.start host.clock host.input)

/-- Carries out a command; none if the fuel does not suffice. -/
def perform (host : Host) (fuel : Nat) : Command → Option Outcome
  | .tokenize file json =>
    match sourceOf host file with
    | .error failure => some ⟨hostCode, "", failure⟩
    | .ok source => some (tokenize source json)
  | .run file =>
    match sourceOf host file with
    | .error failure => some ⟨hostCode, "", failure⟩
    | .ok source => runText host fuel source
  | .prompt => prompt host fuel

/-- Whether a process with the given arguments makes a log file. -/
def makesLog (arguments : List String) : Bool :=
  match Request.ofArguments? arguments with
  | some (.perform _ log) => log
  | _ => false

/-- A whole process; none if the fuel does not suffice. -/
def run (host : Host) (fuel : Nat) (arguments : List String) : Option Outcome :=
  match Request.ofArguments? arguments with
  | none => some ⟨usageCode, "", usageText⟩
  | some .version => some ⟨Status.ok.exitCode, versionText, ""⟩
  | some .usage => some ⟨Status.ok.exitCode, usageText, ""⟩
  | some (.perform command _) => perform host fuel command

end CommandLine

end Treewalk
