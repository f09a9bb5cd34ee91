import Treewalk.Proofs.Session.History

/-!
# What a run reports

A run ends in one of four ways: the text cannot be read, its scopes break a rule, the running
program has a fault, or all statements are executed. The status, the two flags and the reports say
the same about it, since each of these ways settles all of them at once, and nothing of an earlier
run is left when a run begins.

## Main definitions

* `Report.Stage`, `Report.stage`: the stage of a run that a report comes from.
* `Session.Verdict`: the ways in which a run ends, with what is then reported.
* `Diagnostics.Agrees`: reports and flags that go with a status.

## Main results

* `Session.run_verdict`: a run ends in one of these ways.
* `Session.run_agrees`: the status, the flags and the reports of a run agree.
* `Session.Reachable.agrees`: between runs, the reports and flags are those of the last run.
-/

namespace Treewalk

/-! ### Stages -/

/-- The stages that find faults, in their order. -/
inductive Report.Stage
  /-- The text is cut into tokens. -/
  | scanning
  /-- The tokens are read as statements. -/
  | parsing
  /-- The variables of the statements are looked up. -/
  | resolving
  /-- The statements are executed. -/
  | running
  deriving DecidableEq

/-- The stage that a report comes from. -/
def Report.stage : Report → Report.Stage
  | .lexical _ _ => .scanning
  | .syntactic _ _ => .parsing
  | .scoping _ _ => .resolving
  | .runtime _ => .running

@[simp]
theorem Report.stage_runtime (e : RuntimeError) : (Report.runtime e).stage = .running :=
  rfl

@[simp]
theorem ScanError.stage_report (e : ScanError) : e.report.stage = .scanning :=
  rfl

@[simp]
theorem SyntaxError.stage_report (lastLine : Nat) (e : SyntaxError) :
    (e.report lastLine).stage = .parsing :=
  rfl

@[simp]
theorem ScopeError.stage_report (e : ScopeError) : e.report.stage = .resolving :=
  rfl

theorem Report.isRuntime_eq_false {r : Report} (h : r.stage ≠ .running) : r.isRuntime = false := by
  cases r with
  | runtime e => exact absurd rfl h
  | _ => rfl

/-- The reports and flags that go with a status. -/
structure Diagnostics.Agrees (d : Diagnostics) (status : Status) : Prop where
  static_iff_flag : status = .staticError ↔ d.hadError = true
  static_iff_reports : status = .staticError ↔ ∃ r ∈ d.reports, r.stage ≠ .running
  static_only : status = .staticError → ∀ r ∈ d.reports, r.stage ≠ .running
  runtime_iff_flag : status = .runtimeError ↔ d.hadRuntimeError = true
  runtime_iff_reports : status = .runtimeError ↔ ∃ e, d.reports = [.runtime e]
  ok_iff_flags : status = .ok ↔ d.hadError = false ∧ d.hadRuntimeError = false
  ok_iff_reports : status = .ok ↔ d.reports = []
  /-- The variables of a text are looked up only if it can be read. -/
  resolving_only : ∀ r ∈ d.reports, r.stage = .resolving → ∀ r' ∈ d.reports, r'.stage = .resolving
  /-- No report about tokens stands behind one about statements. -/
  ordered : d.reports.Pairwise fun r r' => r.stage = .parsing → r'.stage ≠ .scanning

namespace Diagnostics

theorem reportAll_eq (d : Diagnostics) (rs : List Report) :
    d.reportAll rs = ⟨d.reports ++ rs, d.hadError || rs.any fun r => !r.isRuntime,
      d.hadRuntimeError || rs.any Report.isRuntime⟩ := by
  induction rs generalizing d with
  | nil => simp [reportAll]
  | cons r rs ih =>
    have hnext := ih (d.report r)
    simpa [reportAll, report, Bool.or_assoc] using hnext

/-- Reports of faults that are found before running. -/
theorem reportAll_empty {rs : List Report} (hne : rs ≠ [])
    (hrs : ∀ r ∈ rs, r.stage ≠ .running) : empty.reportAll rs = ⟨rs, true, false⟩ := by
  have hruntime : ∀ r ∈ rs, r.isRuntime = false := fun r hr => Report.isRuntime_eq_false (hrs r hr)
  obtain ⟨r, hr⟩ := List.exists_mem_of_ne_nil rs hne
  have herror : (rs.any fun r => !r.isRuntime) = true :=
    List.any_eq_true.mpr ⟨r, hr, by rw [hruntime r hr, Bool.not_false]⟩
  have hlater : rs.any Report.isRuntime = false :=
    List.any_eq_false.mpr fun r hr => ne_true_of_eq_false (hruntime r hr)
  rw [reportAll_eq, herror, hlater]
  rfl

namespace Agrees

/-- No reports and no flags go with a run that executes all statements. -/
theorem ok : empty.Agrees .ok := by
  constructor <;> simp [empty]

/-- One report of a fault of the running program. -/
theorem runtimeError (e : RuntimeError) : (empty.report (.runtime e)).Agrees .runtimeError := by
  constructor <;> simp [empty, report, Report.isRuntime]

/-- Reports of faults that are found before running. -/
theorem staticError {rs : List Report} (hne : rs ≠ []) (hrs : ∀ r ∈ rs, r.stage ≠ .running)
    (hresolving : ∀ r ∈ rs, r.stage = .resolving → ∀ r' ∈ rs, r'.stage = .resolving)
    (hordered : rs.Pairwise fun r r' => r.stage = .parsing → r'.stage ≠ .scanning) :
    (empty.reportAll rs).Agrees .staticError := by
  obtain ⟨r, hr⟩ := List.exists_mem_of_ne_nil rs hne
  rw [reportAll_empty hne hrs]
  refine ⟨by simp, ?_, fun _ => hrs, by simp, ?_, by simp, by simp [hne], hresolving, hordered⟩
  · exact ⟨fun _ => ⟨r, hr, hrs r hr⟩, fun _ => rfl⟩
  · refine ⟨fun h => by simp at h, ?_⟩
    rintro ⟨e, rfl⟩
    exact absurd rfl (hrs _ List.mem_cons_self)

end Agrees

end Diagnostics

namespace Session

variable {s s' : Session} {source : String} {fuel : Nat} {status : Status}

/-! ### The reports of reading a text and of its scopes -/

/-- Reading a text reports faults of its tokens, and then faults of its statements. -/
theorem readReports_split (s : Session) (source : String) : ∃ scanned parsed,
    s.readReports source = scanned ++ parsed ∧ (∀ r ∈ scanned, r.stage = .scanning) ∧
      ∀ r ∈ parsed, r.stage = .parsing := by
  refine ⟨_, _, rfl, ?_, ?_⟩ <;> intro r hr <;> obtain ⟨e, -, rfl⟩ := List.mem_map.mp hr
  · exact e.stage_report
  · exact e.stage_report _

theorem stage_scopeReports (body : List Stmt) : ∀ r ∈ scopeReports body, r.stage = .resolving := by
  intro r hr
  obtain ⟨e, -, rfl⟩ := List.mem_map.mp hr
  exact e.stage_report

/-- A text that cannot be read. -/
theorem agrees_readReports (hread : s.readReports source ≠ []) :
    (Diagnostics.empty.reportAll (s.readReports source)).Agrees .staticError := by
  obtain ⟨scanned, parsed, heq, hscanned, hparsed⟩ := s.readReports_split source
  have hstage : ∀ r ∈ s.readReports source, r.stage = .scanning ∨ r.stage = .parsing := by
    intro r hr
    rw [heq] at hr
    exact (List.mem_append.mp hr).imp (hscanned r) (hparsed r)
  refine .staticError hread (fun r hr => ?_) (fun r hr hresolving => ?_) ?_
  · rcases hstage r hr with h | h <;> simp [h]
  · rcases hstage r hr with h | h <;> simp [h] at hresolving
  · rw [heq]
    refine List.pairwise_append.mpr ⟨?_, ?_, ?_⟩
    · exact List.pairwise_of_forall_mem_list fun r hr _ _ h => by simp [hscanned r hr] at h
    · exact List.pairwise_of_forall_mem_list fun _ _ r' hr' _ => by simp [hparsed r' hr']
    · exact fun r hr _ _ h => by simp [hscanned r hr] at h

/-- A text whose scopes break a rule. -/
theorem agrees_scopeReports {body : List Stmt} (hscope : scopeReports body ≠ []) :
    (Diagnostics.empty.reportAll (scopeReports body)).Agrees .staticError := by
  have hstage := stage_scopeReports body
  refine .staticError hscope (fun r hr => ?_) (fun _ _ _ => hstage) ?_
  · simp [hstage r hr]
  · exact List.pairwise_of_forall_mem_list fun r hr _ _ h => by simp [hstage r hr] at h

/-! ### How a run ends -/

/-- The ways in which a run of a text ends, with what is then reported. -/
inductive Verdict (s : Session) (source : String) : Status → Diagnostics → Prop
  /-- The text cannot be read. -/
  | unreadable (hread : s.readReports source ≠ []) :
    Verdict s source .staticError (.reportAll .empty (s.readReports source))
  /-- The text can be read, and its scopes break a rule. -/
  | unlawful (hread : s.readReports source = [])
      (hscope : scopeReports (s.programOf source).body ≠ []) :
    Verdict s source .staticError (.reportAll .empty (scopeReports (s.programOf source).body))
  /-- The text has no fault, and the running program has one. -/
  | failing (hread : s.readReports source = [])
      (hscope : scopeReports (s.programOf source).body = []) (e : RuntimeError) :
    Verdict s source .runtimeError (.report .empty (.runtime e))
  /-- The text has no fault, and all its statements are executed. -/
  | completed (hread : s.readReports source = [])
      (hscope : scopeReports (s.programOf source).body = []) :
    Verdict s source .ok .empty

/-- However a run ends, its status, flags and reports agree. -/
theorem Verdict.agrees {d : Diagnostics} (h : Verdict s source status d) : d.Agrees status := by
  cases h with
  | unreadable hread => exact agrees_readReports hread
  | unlawful _ hscope => exact agrees_scopeReports hscope
  | failing _ _ e => exact .runtimeError e
  | completed => exact .ok

/-- The diagnostics of a session that has executed a program. -/
theorem diagnostics_execute {lookup : Lookup} {body : List Stmt}
    (hrun : s.execute lookup fuel body = some (status, s')) :
    (status = .ok ∧ s'.diagnostics = s.diagnostics) ∨
      ∃ e, status = .runtimeError ∧ s'.diagnostics = s.diagnostics.report (.runtime e) := by
  unfold execute perform at hrun
  cases hm : interpret lookup fuel body s.machine with
  | ok a m =>
    rw [hm] at hrun
    cases hrun
    exact .inl ⟨rfl, rfl⟩
  | error i m =>
    rw [hm] at hrun
    cases i with
    | raised e =>
      cases hrun
      exact .inr ⟨e, rfl, rfl⟩
    | outOfFuel => cases hrun

/-- A run that ends does so in one of four ways, whatever was reported before it. -/
theorem run_verdict (hrun : s.run fuel source = some (status, s')) :
    s.Verdict source status s'.diagnostics := by
  rw [run_eq] at hrun
  by_cases hread : s.readReports source = []
  · by_cases hscope : scopeReports (s.programOf source).body = []
    · -- both flags are clear, so that the program is executed
      have hprepared : (s.prepare source).2.diagnostics = .empty := by
        rw [prepare_eq, hread, hscope]
        rfl
      rw [hread, hprepared] at hrun
      rcases diagnostics_execute hrun with ⟨rfl, hd⟩ | ⟨e, rfl, hd⟩
      · rw [hd, hprepared]
        exact .completed hread hscope
      · rw [hd, hprepared]
        exact .failing hread hscope e
    · have hprepared : (s.prepare source).2.diagnostics =
          .reportAll .empty (scopeReports (s.programOf source).body) := by
        rw [prepare_eq, hread]
        rfl
      have herror : (s.prepare source).2.diagnostics.hadError = true := by
        rw [hprepared]
        exact (agrees_scopeReports hscope).static_iff_flag.mp rfl
      rw [hread, if_neg (by decide), if_pos herror] at hrun
      cases hrun
      rw [hprepared]
      exact .unlawful hread hscope
  · rw [if_pos ((agrees_readReports hread).static_iff_flag.mp rfl)] at hrun
    cases hrun
    exact .unreadable hread

/-- The status, the flags and the reports of a run that ends agree, and neither reports nor flags
that were there before have a part in it, whether or not they were handed over. -/
theorem run_agrees (hrun : s.run fuel source = some (status, s')) :
    s'.diagnostics.Agrees status ∧
      ∀ earlier : Diagnostics, run { s with diagnostics := earlier } fuel source =
        some (status, s') :=
  ⟨(run_verdict hrun).agrees, fun _ => hrun⟩

/-- The use of a variable that was never declared, after a text that was rejected and whose reports
were handed over. -/
theorem run_agrees_undeclared :
    ∃ s s', (start (fun _ => 0) []).run 0 "return 1;" = some (.staticError, s) ∧
      s.takeReports.2.run 8 "missing;" = some (.runtimeError, s') ∧
      s.takeReports.2.diagnostics.hadError = true ∧
      s'.diagnostics.Agrees .runtimeError := by
  have hrejected : (start (fun _ => 0) []).run 0 "return 1;" =
      some (.staticError, ((start (fun _ => 0) []).prepare "return 1;").2) := by
    rw [run_eq, if_neg (by decide +kernel), if_pos (by decide +kernel)]
  have hstatus : (((start (fun _ => 0) []).prepare "return 1;").2.takeReports.2.run 8
      "missing;").map (·.1) = some .runtimeError := by
    decide +kernel
  obtain ⟨⟨status, s'⟩, hrun, rfl⟩ := Option.map_eq_some_iff.mp hstatus
  exact ⟨_, s', hrejected, hrun, by decide +kernel, (run_agrees hrun).1⟩

/-- Between runs, the flags are those of the last run, and so are the reports, unless they have been
handed over. -/
theorem Reachable.agrees (hs : Reachable s) : ∃ (status : Status) (d : Diagnostics),
    d.Agrees status ∧ (s.diagnostics = d ∨ s.diagnostics = d.drain.2) := by
  induction hs with
  | start clock input => exact ⟨.ok, .empty, .ok, .inl rfl⟩
  | run _ hrun _ => exact ⟨_, _, (run_verdict hrun).agrees, .inl rfl⟩
  | takeOutput _ ih => exact ih
  | takeReports _ ih =>
    obtain ⟨status, d, hd, hs | hs⟩ := ih
    · exact ⟨status, d, hd, .inr (congrArg (·.drain.2) hs)⟩
    · exact ⟨status, d, hd, .inr (congrArg (·.drain.2) hs)⟩

end Session

end Treewalk
