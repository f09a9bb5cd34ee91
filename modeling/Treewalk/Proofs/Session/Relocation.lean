import Treewalk.Proofs.Relocation.Reading
import Treewalk.Proofs.Relocation.Running
import Treewalk.Proofs.Session.History

/-!
# Sessions with other node numbers

What a session shows does not depend on the numbers that its nodes were given. If the machine of one
session is that of another one after a relocation of node numbers, and the numbers that they will
draw correspond as well, then every run ends in the same way in both, with the same reports, and
leaves sessions that correspond again.

## Main definitions

* `Session.Moved`: a session after a relocation.
* `Session.Ends`: runs that end in the same way, up to a relocation.

## Main results

* `Session.Moved.execute`: the execution of a relocated program.
* `Session.Moved.run`: a run with other node numbers.
-/

namespace Treewalk

section

variable (r : Relocation)

/-- A fault of the running program, on another line. -/
def RuntimeError.relocate (e : RuntimeError) : RuntimeError :=
  ⟨e.fault, r.line e.line⟩

/-- A report of a fault on another line. -/
def Report.relocate : Report → Report
  | .lexical line message => .lexical (r.line line) message
  | .syntactic place message => .syntactic ⟨place.word, r.line place.line⟩ message
  | .scoping place message => .scoping ⟨place.word, r.line place.line⟩ message
  | .runtime e => .runtime (e.relocate r)

/-- The collector, with reports of faults on other lines. -/
def Diagnostics.relocate (d : Diagnostics) : Diagnostics :=
  { d with reports := d.reports.map (Report.relocate r) }

end

variable {r : Relocation}

theorem Diagnostics.relocate_report (d : Diagnostics) (report : Report) :
    (d.report report).relocate r = (d.relocate r).report (report.relocate r) := by
  have hruntime : (report.relocate r).isRuntime = report.isRuntime := by cases report <;> rfl
  simp [relocate, Diagnostics.report, hruntime]

theorem Diagnostics.relocate_eq_self (hr : r.KeepsLines) (d : Diagnostics) : d.relocate r = d := by
  have hreport : Report.relocate r = id := by
    funext report
    cases report <;> simp [Report.relocate, RuntimeError.relocate, hr _]
  rw [relocate, hreport, List.map_id]

namespace Session

/-- The session `t` is `s` after a relocation, which also takes the numbers that are yet to be drawn
in `s` to those that are yet to be drawn in `t`. -/
structure Moved (r : Relocation) (s t : Session) : Prop where
  machine : Machine.Moved r s.machine t.machine
  id : ∀ k, r.id (s.nextId + k) = t.nextId + k

/-- Two runs end in the same way, up to a relocation. -/
structure Ends (r : Relocation) (p q : Status × Session) : Prop where
  status : q.1 = p.1
  diagnostics : q.2.diagnostics = p.2.diagnostics.relocate r
  session : Moved r p.2 q.2

/-! ### Executing -/

/-- The outcome of the execution of a program. -/
def outcome (s : Session) : EStateM.Result Interrupt Machine Unit → Option (Status × Session)
  | .ok _ m => some (.ok, { s with machine := m })
  | .error (.raised e) m => some (.runtimeError, { s with machine := m }.report [.runtime e])
  | .error .outOfFuel _ => none

theorem execute_eq (s : Session) (lookup : Lookup) (fuel : Nat) (body : List Stmt) :
    s.execute lookup fuel body = s.outcome (interpret lookup fuel body s.machine) := by
  unfold execute perform outcome
  cases interpret lookup fuel body s.machine with
  | ok a m => rfl
  | error e m => cases e <;> rfl

section Execute

variable {s t : Session} {lookup : Lookup} {fuel fuel' : Nat} {body : List Stmt}

/-- A relocated program is executed as the program itself, with at least as much fuel. -/
theorem Moved.execute (h : Moved r s t) (hdiagnostics : t.diagnostics = s.diagnostics.relocate r)
    (hle : fuel ≤ fuel') {p : Status × Session} (hrun : s.execute lookup fuel body = some p) :
    ∃ q, t.execute lookup fuel' (body.map (Stmt.relocate r)) = some q ∧ Ends r p q := by
  have hlockstep : Lockstep (Run.tie r False) Eq _ _ :=
    interpret_moves lookup hle False.elim body
  have hout := hlockstep _ _ h.machine
  rw [execute_eq] at hrun ⊢
  generalize interpret lookup fuel body s.machine = o,
    interpret lookup fuel' (body.map (Stmt.relocate r)) t.machine = o' at hout hrun
  cases hout with
  | ok _ hm =>
    cases hrun
    exact ⟨_, rfl, rfl, hdiagnostics, hm, h.id⟩
  | @error e e' m m' he hm =>
    cases e with
    | outOfFuel => cases hrun
    | raised e =>
      cases hrun
      subst he
      refine ⟨_, rfl, rfl, ?_, hm, h.id⟩
      simp only [report, Diagnostics.reportAll, List.foldl_cons, List.foldl_nil,
        Diagnostics.relocate_report, hdiagnostics]
      rfl
  | free he =>
    obtain rfl := he.2
    cases hrun

/-- A relocated program needs as much fuel as the program itself. -/
theorem Moved.execute_eq_none (h : Moved r s t) (hrun : s.execute lookup fuel body = none) :
    t.execute lookup fuel (body.map (Stmt.relocate r)) = none := by
  have hlockstep : Lockstep (Run.tie r True) Eq _ _ :=
    interpret_moves lookup (Nat.le_refl fuel) (fun _ => rfl) body
  have hout := hlockstep _ _ h.machine
  rw [execute_eq] at hrun ⊢
  generalize interpret lookup fuel body s.machine = o,
    interpret lookup fuel (body.map (Stmt.relocate r)) t.machine = o' at hout hrun
  cases hout with
  | ok _ _ => cases hrun
  | @error e e' m m' he _ =>
    cases e with
    | outOfFuel =>
      subst he
      rfl
    | raised e => cases hrun
  | free he => exact absurd trivial he.1

end Execute

/-! ### Reading and finding out distances -/

section Run

variable {s t : Session}

/-- The program that is read from a text, with other numbers to draw. -/
theorem programOf_moved (hr : r.KeepsLines) (hid : ∀ k, r.id (s.nextId + k) = t.nextId + k)
    (source : String) : Program.Moved r (s.programOf source) (t.programOf source) := by
  have hmoved := Program.ofTokens_relocate hid (Token.tokensOf (Token.scan source))
  rwa [Token.relocate_eq_id hr, List.map_id] at hmoved

/-- The numbers that are drawn in one session, and those that are drawn in another one. -/
theorem exists_relocation (s t : Session) :
    ∃ r : Relocation, r.KeepsLines ∧ ∀ k, r.id (s.nextId + k) = t.nextId + k := by
  refine ⟨.ofId fun id => id - s.nextId + t.nextId, fun _ => rfl, fun k => ?_⟩
  simp only [Relocation.ofId]
  omega

theorem errors_programOf (s t : Session) (source : String) :
    (t.programOf source).errors = (s.programOf source).errors := by
  obtain ⟨r, hr, hid⟩ := exists_relocation s t
  rw [(programOf_moved hr hid source).errors, SyntaxError.relocate_eq_id hr, List.map_id]

/-- What is reported when a text is read does not depend on the session. -/
theorem readReports_eq (s t : Session) (source : String) :
    t.readReports source = s.readReports source := by
  have herrors := errors_programOf s t source
  unfold Session.programOf at herrors
  simp only [Session.readReports, herrors]

/-- Nor does what is reported about its scopes. -/
theorem scopeReports_eq (s t : Session) (source : String) :
    scopeReports (t.programOf source).body = scopeReports (s.programOf source).body := by
  obtain ⟨r, hr, hid⟩ := exists_relocation s t
  unfold scopeReports
  rw [(programOf_moved hr hid source).body, programFindings_relocate, Finding.errors_relocate,
    ScopeError.relocate_eq_id hr, List.map_id]

/-- Sessions that have read a text and recorded its distances. -/
theorem Moved.prepare (hr : r.KeepsLines) (hinjective : Function.Injective r.id) (h : Moved r s t)
    (source : String) : Moved r (s.prepare source).2 (t.prepare source).2 := by
  have hprogram := programOf_moved hr h.id source
  refine ⟨{ h.machine with distances := ?_ }, hprogram.id⟩
  rw [prepare_eq, prepare_eq, hprogram.body, programFindings_relocate]
  exact h.machine.distances.recordAll hinjective _

theorem diagnostics_prepare (s t : Session) (source : String) :
    (t.prepare source).2.diagnostics = (s.prepare source).2.diagnostics := by
  simp only [prepare_eq, readReports_eq s t, scopeReports_eq s t]

/-- Whether a text is accepted does not depend on the session. -/
theorem Accepts.elsewhere {source : String} {body : List Stmt} {prepared : Session}
    (h : s.Accepts source body prepared) (t : Session) :
    t.Accepts source (t.prepare source).1 (t.prepare source).2 := by
  refine ⟨rfl, ?_⟩
  rw [diagnostics_prepare s t, h.prepared_eq]
  exact h.no_reports

/-- A run of a text in a session with other node numbers ends in the same way, with the same
reports. -/
theorem Moved.run (hr : r.KeepsLines) (hinjective : Function.Injective r.id) (h : Moved r s t)
    (fuel : Nat) (source : String) :
    Option.Rel (Ends r) (s.run fuel source) (t.run fuel source) := by
  have hprepare := h.prepare hr hinjective source
  have hdiagnostics := diagnostics_prepare s t source
  have hprogram := programOf_moved hr h.id source
  have hbody : (t.prepare source).1 = (s.prepare source).1.map (Stmt.relocate r) := hprogram.body
  rw [run_eq, run_eq, readReports_eq s t, hdiagnostics, hbody]
  split
  · exact .some ⟨rfl, (Diagnostics.relocate_eq_self hr _).symm, h.machine, hprogram.id⟩
  split
  · refine .some ⟨rfl, ?_, hprepare⟩
    rw [Diagnostics.relocate_eq_self hr]
    exact hdiagnostics
  · cases hrun : (s.prepare source).2.execute .resolved fuel (s.prepare source).1 with
    | none =>
      rw [hprepare.execute_eq_none hrun]
      exact .none
    | some p =>
      have hstart : (t.prepare source).2.diagnostics =
          (s.prepare source).2.diagnostics.relocate r := by
        rw [Diagnostics.relocate_eq_self hr, hdiagnostics]
      obtain ⟨q, hq, hends⟩ := hprepare.execute hstart (Nat.le_refl fuel) hrun
      rw [hq]
      exact .some hends

end Run

end Session

end Treewalk
