import Treewalk.Diagnostics
import Treewalk.Evaluation

/-!
# Sessions

A session runs one source text after the other on one machine, so that global variables, functions
and objects live on. Every run starts without reports. A text in which a fault is found before it
runs is not executed at all.

Node numbers go on counting from text to text, whether or not a text is executed, so that functions
of earlier texts keep the distances found out about their nodes.

## Main definitions

* `Session`: a machine, the next node number and the collector of reports.
* `Session.read`, `Session.resolve`, `Session.run`: the stages of a run, and a whole run.
* `Status`: how a run ended.
-/

namespace Treewalk

/-- How a run ended. -/
inductive Status
  /-- All statements were executed. -/
  | ok
  /-- A fault was found before running. -/
  | staticError
  /-- The running program had a fault. -/
  | runtimeError
  deriving DecidableEq

/-- The exit code of a process that ends after a run. -/
def Status.exitCode : Status → Nat
  | ok => 0
  | staticError => 65
  | runtimeError => 70

/-- What lives on from one run to the next. -/
structure Session where
  /-- The machine. -/
  machine : Machine
  /-- The first node number that is still free. -/
  nextId : Nat
  /-- The reports of the last run and its flags. -/
  diagnostics : Diagnostics

namespace Session

/-- A session before its first run. -/
def start (clock : Nat → Nat) (input : List UInt8) : Session :=
  ⟨.start clock input, 0, .empty⟩

/-- Adds reports. -/
def report (s : Session) (rs : List Report) : Session :=
  { s with diagnostics := s.diagnostics.reportAll rs }

/-- Reads a source text: the faults of its tokens are reported before those of its statements. -/
def read (s : Session) (source : String) : List Stmt × Session :=
  let items := Token.scan source
  let tokens := Token.tokensOf items
  let program := Program.ofTokens s.nextId tokens
  let lastLine := (tokens.find? (·.kind.isEnd)).elim 1 (·.line)
  (program.body,
    { s.report ((Token.errorsOf items).map (·.report) ++ program.errors.map (·.report lastLine))
      with nextId := program.nextId })

/-- Finds out the distances of statements and reports the rules that they break. -/
def resolve (s : Session) (body : List Stmt) : Session :=
  let findings := programFindings body
  let s := s.report ((Finding.errors findings).map (·.report))
  { s with machine := { s.machine with
      distances := s.machine.distances.recordAll findings } }

/-- Runs a computation on the machine of a session; none if its fuel does not suffice. -/
def perform {α : Type} (s : Session) (body : Run α) :
    Option (Except RuntimeError α × Session) :=
  match body s.machine with
  | .ok a m => some (.ok a, { s with machine := m })
  | .error (.raised e) m => some (.error e, { s with machine := m })
  | .error .outOfFuel _ => none

/-- Executes statements and reports the fault that ends them, if one does. -/
def execute (s : Session) (lookup : Lookup) (fuel : Nat) (body : List Stmt) :
    Option (Status × Session) :=
  match s.perform (interpret lookup fuel body) with
  | none => none
  | some (.ok (), s) => some (.ok, s)
  | some (.error e, s) => some (.runtimeError, s.report [.runtime e])

/-- Runs a source text, finding variables in a given way; none if the fuel does not suffice. -/
def runWith (s : Session) (lookup : Lookup) (fuel : Nat) (source : String) :
    Option (Status × Session) :=
  let (body, s) := { s with diagnostics := s.diagnostics.reset }.read source
  if s.diagnostics.hadError then some (.staticError, s)
  else
    let s := s.resolve body
    if s.diagnostics.hadError then some (.staticError, s)
    else s.execute lookup fuel body

/-- Runs a source text; none if the fuel does not suffice. -/
def run (s : Session) (fuel : Nat) (source : String) : Option (Status × Session) :=
  s.runWith .resolved fuel source

/-- Hands over what the runs have written. -/
def takeOutput (s : Session) : String × Session :=
  let (output, m) := s.machine.takeOutput
  (output, { s with machine := m })

/-- Hands over the reports. -/
def takeReports (s : Session) : List Report × Session :=
  let (reports, d) := s.diagnostics.drain
  (reports, { s with diagnostics := d })

end Session

end Treewalk
