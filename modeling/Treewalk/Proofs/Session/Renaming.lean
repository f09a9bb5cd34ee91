import Treewalk.Proofs.Renaming.Existence
import Treewalk.Proofs.Renaming.Running
import Treewalk.Proofs.Session.Rejection

/-!
# Renamed texts

Local names do not matter. If a local name of a text is replaced by one that does not occur in it, the
walk finds out the same, and a fresh session shows the same when it runs the text: the same output and
status on the same input and clock, and the same reports, up to the name that a fault of a variable
tells. Every name that a local scope declares by `var` or as a parameter can be replaced in this way
(`Resolved.exists_isLocal`).

## Main definitions

* `Session.Shown.Renamed`: what is shown before and after a renaming.

## Main results

* `Session.run_renamed`: a text with a local name renamed.
-/

namespace Treewalk

/-- A report before and after a renaming. -/
inductive Report.Renamed (r : Renaming) : Report → Report → Prop
  | early {report : Report} (h : report.isRuntime = false) : Report.Renamed r report report
  | runtime {e e' : RuntimeError} (h : e.Renamed r e') : Report.Renamed r (.runtime e) (.runtime e')

/-- Before any program has run, variables hold built-in functions, which are renamed nowhere. -/
theorem slotRenamed_initialFrames {r : Renaming} {W : Layout} (i : Nat) (name : String) :
    Option.Rel (SlotRenamed r W) (initialFrames.slot? i name) (initialFrames.slot? i name) := by
  rcases hslot : initialFrames.slot? i name with _ | _ | v
  · exact .none
  · exact .some .none
  · obtain ⟨n, rfl⟩ := Session.exists_native_of_slot? hslot
    exact .some (.some (.native n))

/-- A machine before any program has run, with recorded distances. -/
theorem Machine.renamed_start (r : Renaming) (clock : Nat → Nat) (input : List UInt8) :
    Machine.Renamed r [⟨none, false⟩] globalFrame
      { Machine.start clock input with distances := r.distances }
      { Machine.start clock input with distances := r.distances } := by
  have hframes : Frames.Renamed r [⟨none, false⟩] initialFrames initialFrames := by
    have henclosing (i : Nat) :
        initialFrames.enclosing? i = ([⟨none, false⟩] : Layout)[i]?.bind (·.enclosing) := by
      cases i <;> rfl
    refine ⟨rfl, rfl, rfl, henclosing, henclosing, fun i name => ?_⟩
    have hword : Layout.word r [⟨none, false⟩] i name = name := by cases i <;> rfl
    rw [hword]
    exact slotRenamed_initialFrames i name
  exact ⟨hframes, rfl, rfl, rfl, fun _ => rfl, fun _ => rfl, fun _ _ => .none, rfl, fun _ => rfl,
    fun _ _ => .none, rfl, rfl, rfl, rfl, rfl, rfl, rfl⟩

namespace Session

/-- What is shown before and after a renaming. -/
structure Shown.Renamed (r : Renaming) (x x' : Shown) : Prop where
  status : x'.status = x.status
  output : x'.output = x.output
  reports : List.Forall₂ (Report.Renamed r) x.diagnostics.reports x'.diagnostics.reports
  hadError : x'.diagnostics.hadError = x.diagnostics.hadError
  hadRuntimeError : x'.diagnostics.hadRuntimeError = x.diagnostics.hadRuntimeError
  input : x'.input = x.input
  readings : x'.readings = x.readings

section

variable {r : Renaming} {clock : Nat → Nat} {input : List UInt8} {source : String}
  {prepared : Session}

/-- The session that executes the first program has recorded its distances, and nothing else. -/
theorem Accepts.prepared_of_start {body : List Stmt}
    (ha : (start clock input).Accepts source body prepared) :
    prepared.machine =
        { Machine.start clock input with distances := prepared.machine.distances } ∧
      prepared.diagnostics = .empty := by
  refine ⟨?_, ha.diagnostics_eq⟩
  have hprepared : ((start clock input).prepare source).2 = prepared := by rw [ha.prepared_eq]
  rw [← hprepared, prepare_eq]
  rfl

/-- What is shown by executions of the two programs on machines that correspond to each other. -/
theorem shown_execute_renamed (hr : r.IsLocal) {s t : Session} {W : Layout} {i : Nat}
    (hat : W.At i none) (hm : Machine.Renamed r W i s.machine t.machine)
    (hs : s.diagnostics = .empty) (ht : t.diagnostics = .empty) (fuel : Nat) :
    Option.Rel (Shown.Renamed r) ((s.execute .resolved fuel r.before).map shown)
      ((t.execute .resolved fuel r.after).map shown) := by
  have hout := interpret_twins hr fuel hat s.machine t.machine hm
  rw [execute_eq, execute_eq]
  generalize interpret .resolved fuel r.before s.machine = o,
    interpret .resolved fuel r.after t.machine = o' at hout
  cases hout with
  | ok _ _ hm' =>
    refine .some ⟨rfl, hm'.output, ?_, ?_, ?_, hm'.input, hm'.readings⟩
    · simp only [shown, hs, ht]
      exact .nil
    · simp only [shown, hs, ht]
    · simp only [shown, hs, ht]
  | error he hm' =>
    cases he with
    | outOfFuel => exact .none
    | raised he =>
      refine .some ⟨rfl, hm'.output, ?_, ?_, ?_, hm'.input, hm'.readings⟩
      · simp only [shown, report, hs, ht]
        exact .cons (.runtime he) .nil
      · simp only [shown, report, hs, ht]
        rfl
      · simp only [shown, report, hs, ht]
        rfl

/-- The walk finds out the same about a renamed text, so that it is accepted, with the same machine. -/
theorem Accepts.renamed
    (ha : (start clock input).Accepts source r.before prepared)
    (hfindings : programFindings r.after = programFindings r.before) {source' : String}
    (hbody : ((start clock input).programOf source').body = r.after)
    (hread : (start clock input).readReports source' = []) :
    ∃ prepared', (start clock input).Accepts source' r.after prepared' ∧
      prepared'.machine = prepared.machine := by
  obtain ⟨hprepare, -, hscope⟩ := accepts_iff.mp ha
  refine ⟨((start clock input).prepare source').2, accepts_iff.mpr ⟨?_, hread, ?_⟩, ?_⟩
  · rw [← hbody]
    rfl
  · rw [hbody, scopeReports, hfindings, ha.body_eq]
    exact hscope
  · have hprepared : ((start clock input).prepare source).2 = prepared := by rw [hprepare]
    rw [← hprepared, prepare_eq, prepare_eq, hbody, hfindings, ha.body_eq]

/-- Local names do not matter. If a local name of a text without a fault is replaced by one that does not
occur in it, the walk finds out the same: no rule is broken, and every node has the same distance. With
these distances a fresh session shows the same when it executes the renamed program, and so it does when
it runs a text of that program. -/
theorem run_renamed (hr : r.IsLocal) (ha : (start clock input).Accepts source r.before prepared)
    (hdistances : r.distances = prepared.machine.distances) :
    programFindings r.after = programFindings r.before ∧
      (∀ fuel, Option.Rel (Shown.Renamed r) (((start clock input).run fuel source).map shown)
        ((prepared.execute .resolved fuel r.after).map shown)) ∧
      ∀ source', ((start clock input).programOf source').body = r.after →
        (start clock input).readReports source' = [] →
        (∃ prepared', (start clock input).Accepts source' r.after prepared' ∧
          prepared'.machine = prepared.machine) ∧
        ∀ fuel, Option.Rel (Shown.Renamed r) (((start clock input).run fuel source).map shown)
          (((start clock input).run fuel source').map shown) := by
  have hresolved := (Steady.start (fun _ _ => True) clock input).resolved_of_accepts ha
  rw [← hdistances] at hresolved
  have hfindings := programFindings_rename hr hresolved
  obtain ⟨hmachine, hdiagnostics⟩ := ha.prepared_of_start
  have hstart := Machine.renamed_start r clock input
  rw [hdistances, ← hmachine] at hstart
  have hat : Layout.At [⟨none, false⟩] globalFrame none := .outermost rfl
  refine ⟨hfindings, fun fuel => ?_, fun source' hbody hread => ?_⟩
  · rw [ha.run_eq]
    exact shown_execute_renamed hr hat hstart hdiagnostics hdiagnostics fuel
  · obtain ⟨prepared', ha', hmachine'⟩ := ha.renamed hfindings hbody hread
    refine ⟨⟨prepared', ha', hmachine'⟩, fun fuel => ?_⟩
    rw [ha.run_eq, ha'.run_eq]
    exact shown_execute_renamed hr hat (hmachine'.symm ▸ hstart) hdiagnostics ha'.diagnostics_eq fuel

end

/-- A name that is declared again further in, and read there and before it is assigned. -/
def shadowingText : String :=
  "\x7b var a; \x7b var a = nil; a; \x7d a; \x7d"

/-- The block within that of `shadowing`. -/
def shadowingInner : Stmt :=
  .block [.variable ⟨"a", 1⟩ (some (.literal .nil)), .expression (.variable 0 ⟨"a", 1⟩)]

/-- The renaming of the outer name in the program of `shadowingText`. -/
def shadowing : Renaming where
  before := [.block [.variable ⟨"a", 1⟩ none, shadowingInner, .expression (.variable 1 ⟨"a", 1⟩)]]
  after := [.block [.variable ⟨"b", 1⟩ none, shadowingInner, .expression (.variable 1 ⟨"b", 1⟩)]]
  distances := #[some 0, some 0]
  old := "a"
  new := "b"

/-- The session that executes the program of `shadowingText`. -/
def shadowingSession : Session :=
  ⟨{ Machine.start (fun _ => 0) [] with distances := shadowing.distances }, 2, .empty⟩

/-- The nodes of the program of `shadowingText`. -/
def shadowingNodes : List Node :=
  [.stmt (.block [.variable ⟨"a", 1⟩ none, shadowingInner, .expression (.variable 1 ⟨"a", 1⟩)]),
    .stmt (.variable ⟨"a", 1⟩ none), .stmt shadowingInner, .stmt (.expression (.variable 1 ⟨"a", 1⟩)),
    .expr (.variable 1 ⟨"a", 1⟩), .stmt (.variable ⟨"a", 1⟩ (some (.literal .nil))),
    .expr (.literal .nil), .stmt (.expression (.variable 0 ⟨"a", 1⟩)), .expr (.variable 0 ⟨"a", 1⟩)]

theorem isLocal_shadowing : shadowing.IsLocal where
  renamed := by
    have hinner : Stmt.RenamedAll shadowing (.within 1)
        [.variable ⟨"a", 1⟩ (some (.literal .nil)), .expression (.variable 0 ⟨"a", 1⟩)]
        [.variable ⟨"a", 1⟩ (some (.literal .nil)), .expression (.variable 0 ⟨"a", 1⟩)] :=
      .cons (.both nofun) (.variable _ _ nofun) (.cons (.both nofun) (.expression _ nofun) (.nil nofun))
    have houter : Stmt.RenamedAll shadowing (.within 0)
        [.variable ⟨"a", 1⟩ none, shadowingInner, .expression (.variable 1 ⟨"a", 1⟩)]
        [.variable ⟨"b", 1⟩ none, shadowingInner, .expression (.variable 1 ⟨"b", 1⟩)] :=
      .cons (.both nofun) (.variable _ _ nofun)
        (.cons (.both nofun) (.block (.other _) hinner)
          (.cons (.both nofun) (.expression _ nofun) (.nil nofun)))
    exact .cons .left (.block (.renamed (by decide)) houter) (.nil nofun)
  fresh hoccurs := by
    have hwords : ∀ node ∈ shadowingNodes, "b" ∉ node.words := by decide
    refine hwords _ (hoccurs.mem_of_closed ?_ ?_)
    · simp [shadowing, shadowingNodes]
    · simp [shadowingNodes, shadowingInner, Node.children, Stmt.children, Expr.parts]
  oldFree := by decide
  newFree := by decide

theorem accepts_shadowing : (Session.start (fun _ => 0) []).Accepts shadowingText shadowing.before
    shadowingSession where
  prepared_eq := by cbv
  no_reports := rfl

/-- `shadowingText` with the outer name renamed. -/
def shadowingRenamedText : String :=
  "\x7b var b; \x7b var a = nil; a; \x7d b; \x7d"

theorem run_renamed_shadowing :
    programFindings shadowing.after = programFindings shadowing.before ∧
      ∀ fuel, Option.Rel (Shown.Renamed shadowing)
        (((Session.start (fun _ => 0) []).run fuel shadowingText).map shown)
        (((Session.start (fun _ => 0) []).run fuel shadowingRenamedText).map shown) :=
  have h := run_renamed isLocal_shadowing accepts_shadowing rfl
  ⟨h.1, (h.2.2 shadowingRenamedText (by cbv) (by cbv)).2⟩

end Session

end Treewalk
