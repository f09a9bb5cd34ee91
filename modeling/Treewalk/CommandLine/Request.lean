/-!
# What the arguments ask for

The arguments of a process are flags and at most one command word, which may be followed by flags of
its own and by the name of a file. Flags may stand on either side of the name, each at most once on
either side of the command word; after `--` everything is a name.

Arguments are read from left to right. Asking for the version or the usage ends the reading, and so
does the first argument that cannot be understood.

## Main definitions

* `Command`, `Request`: what can be asked for.
* `Request.ofArguments?`: what arguments ask for.
-/

namespace Treewalk

/-- What a process is asked to do. -/
inductive Command
  /-- List the tokens of a file, as a JSON document if asked to. -/
  | tokenize (file : String) (json : Bool)
  /-- Run a file. -/
  | run (file : String)
  /-- Prompt for lines and run each. -/
  | prompt
  deriving DecidableEq

/-- What the arguments ask for. -/
inductive Request
  /-- The version. -/
  | version
  /-- The usage. -/
  | usage
  /-- A command, with or without a log file. -/
  | perform (command : Command) (log : Bool)
  deriving DecidableEq

namespace Request

/-- The flags and the file read so far after a command word. -/
structure Partial where
  /-- The log file was asked for after the command word. -/
  log : Bool
  /-- The JSON document was asked for. -/
  json : Bool
  /-- The file, if it has been named. -/
  file : Option String

/-- Which arguments a command takes. -/
structure Shape where
  /-- It takes a file. -/
  takesFile : Bool
  /-- It takes the JSON flag. -/
  takesJson : Bool

/-- Takes an argument as the name of the file; a command takes one file, whose name is not empty. -/
def Partial.name? (p : Partial) (shape : Shape) (argument : String) : Option Partial :=
  if shape.takesFile ∧ p.file = none ∧ argument ≠ "" then some { p with file := argument }
  else none

/-- Whether an argument looks like a flag. -/
def isFlag (argument : String) : Bool :=
  argument.startsWith "-" && argument != "-"

/-- Reads the arguments after a command word. After `--` every argument is a name. -/
def argumentsAfter? (shape : Shape) : (escaped : Bool) → Partial → List String →
    Option (Partial ⊕ Unit)
  | _, p, [] => some (.inl p)
  | true, p, argument :: rest =>
    (p.name? shape argument).bind fun p => argumentsAfter? shape true p rest
  | false, p, argument :: rest =>
    if argument = "--" then argumentsAfter? shape true p rest
    else if argument = "--log" then
      if p.log then none else argumentsAfter? shape false { p with log := true } rest
    else if argument = "--json" then
      if p.json || !shape.takesJson then none
      else argumentsAfter? shape false { p with json := true } rest
    else if argument = "--help" || argument.startsWith "-h" then some (.inr ())
    else if isFlag argument then none
    else (p.name? shape argument).bind fun p => argumentsAfter? shape false p rest

/-- Reads the arguments of a command; `build` makes the command of what was read. -/
def ofCommand? (log : Bool) (shape : Shape) (build : Partial → Option Command)
    (arguments : List String) : Option Request :=
  match argumentsAfter? shape false ⟨false, false, none⟩ arguments with
  | none => none
  | some (.inr ()) => some .usage
  | some (.inl p) => (build p).map fun command => .perform command (log || p.log)

/-- Whether arguments are at most one command word. -/
def namesCommand : List String → Bool
  | [] => true
  | [word] => ["tokenize", "run", "repl", "help"].contains word
  | _ => false

/-- Reads the arguments before and after the command word. -/
def ofArgumentsFrom? (log : Bool) : List String → Option Request
  | [] => some (.perform .prompt log)
  | argument :: rest =>
    if argument = "--log" then if log then none else ofArgumentsFrom? true rest
    else if argument = "--version" || argument.startsWith "-V" then some .version
    else if argument = "--help" || argument.startsWith "-h" then some .usage
    else if argument = "help" then if namesCommand rest then some .usage else none
    else if argument = "--" then if rest.isEmpty then some (.perform .prompt log) else none
    else if argument = "tokenize" then
      ofCommand? log ⟨true, true⟩ (fun p => p.file.map fun file => .tokenize file p.json) rest
    else if argument = "run" then
      ofCommand? log ⟨true, false⟩ (fun p => p.file.map .run) rest
    else if argument = "repl" then ofCommand? log ⟨false, false⟩ (fun _ => some .prompt) rest
    else none

/-- What the arguments ask for; none if they cannot be understood. Without a command word the
process prompts. -/
def ofArguments? (arguments : List String) : Option Request :=
  ofArgumentsFrom? false arguments

end Request

end Treewalk
