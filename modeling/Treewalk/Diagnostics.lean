import Treewalk.Fault
import Treewalk.Scope
import Treewalk.Syntax.Program
import Treewalk.Token.Scan

/-!
# Diagnostics

A report is a fault with its place, from one of the four stages of a run. The collector keeps the
reports in order together with two flags, one for faults that are found before a program runs and
one for faults of the running program. Handing the reports over empties the list and leaves the
flags.

## Main definitions

* `Place`: a word of the text, or its end, with the line.
* `Report`, `Report.text`: a fault and the line that is shown for it.
* `Diagnostics`: the collector, with `report`, `drain` and `reset`.
-/

namespace Treewalk

/-- A place that a report points at. -/
structure Place where
  /-- The word at the place; none at the end of the text. -/
  word : Option String
  /-- The line, counted from one. -/
  line : Nat
  deriving DecidableEq

/-- The place of a token. -/
def Token.place (t : Token) : Place :=
  ⟨if t.kind.isEnd then none else some t.lexeme, t.line⟩

/-- The wording of a place. -/
def Place.text (p : Place) : String :=
  match p.word with
  | none => " at end"
  | some word => " at '" ++ word ++ "'"

/-- A fault with its place. -/
inductive Report
  /-- A piece of text that is no token. -/
  | lexical (line : Nat) (message : String)
  /-- A token that does not fit. -/
  | syntactic (place : Place) (message : String)
  /-- A broken rule about scopes. -/
  | scoping (place : Place) (message : String)
  /-- A fault of the running program. -/
  | runtime (error : RuntimeError)
  deriving DecidableEq

namespace Report

/-- Whether the report is about the running program. -/
def isRuntime : Report → Bool
  | runtime _ => true
  | _ => false

/-- The beginning of every line that is shown for a report. -/
def lineText (line : Nat) : String :=
  "[Line " ++ toString line ++ "] "

/-- The line that is shown for a report. -/
def text : Report → String
  | lexical line message => lineText line ++ "Error: " ++ message
  | syntactic place message => lineText place.line ++ "Error" ++ place.text ++ ": " ++ message
  | scoping place message => lineText place.line ++ "Error" ++ place.text ++ ": " ++ message
  | runtime error => lineText error.line ++ error.fault.message

end Report

/-- The report of a faulty piece of text. -/
def ScanError.report (e : ScanError) : Report :=
  .lexical e.line e.fault.message

/-- The report of a token that does not fit, in a text that ends on a given line. -/
def SyntaxError.report (lastLine : Nat) (e : SyntaxError) : Report :=
  .syntactic (e.found.elim ⟨none, lastLine⟩ Token.place) e.fault.message

/-- The report of a broken rule about scopes. -/
def ScopeError.report (e : ScopeError) : Report :=
  .scoping ⟨some e.found.text, e.found.line⟩ e.fault.message

/-- The collector of reports. -/
structure Diagnostics where
  /-- The reports not yet handed over, in order. -/
  reports : List Report
  /-- Whether a fault was found before running. -/
  hadError : Bool
  /-- Whether the running program had a fault. -/
  hadRuntimeError : Bool
  deriving DecidableEq

namespace Diagnostics

/-- No reports and no flags. -/
def empty : Diagnostics := ⟨[], false, false⟩

/-- Adds a report and sets its flag. -/
def report (d : Diagnostics) (r : Report) : Diagnostics :=
  { reports := d.reports ++ [r]
    hadError := d.hadError || !r.isRuntime
    hadRuntimeError := d.hadRuntimeError || r.isRuntime }

/-- Adds reports in order. -/
def reportAll (d : Diagnostics) (rs : List Report) : Diagnostics :=
  rs.foldl report d

/-- Hands the reports over; the flags stay. -/
def drain (d : Diagnostics) : List Report × Diagnostics :=
  (d.reports, { d with reports := [] })

/-- Forgets everything. -/
def reset (_ : Diagnostics) : Diagnostics :=
  empty

end Diagnostics

end Treewalk
