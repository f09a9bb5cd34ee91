import Treewalk.Proofs.Run.Construction
import Treewalk.Proofs.Scope.Distances
import Treewalk.Proofs.Session.Joining
import Treewalk.Proofs.Session.Scoping
import Treewalk.Proofs.Session.Storing

/-!
# Distances over a whole session

A session gives every node of every text a number of its own, and only the walks over its texts write
distances, each of them at most one for a number. So the table of distances is what all of these walks
found, recorded in turn, no write meets an entry, and a function finds its bindings in every later run
as in the one that made it.

Texts that are rejected take part: their nodes are numbered, and if only a rule about scopes is broken
their distances are recorded as well.

## Main definitions

* `Session.recordings`: the findings that are recorded when a text is run.
* `Session.PastRun`, `Session.Ran`: runs one after the other.
* `WrittenOnce`: tables of distances in which every entry was written once.

## Main results

* `Session.distances_of_ends`: what a run records.
* `Session.Ran.numbered`, `Session.Ran.distances`: numbers and distances after any runs.
* `Session.distances_written_once`: numbers, distances and functions of earlier runs.
-/

namespace Treewalk

/-! ### Functions on a machine -/

/-- A machine holds a function: in a variable, in a field or as a method of a class. -/
def Machine.HoldsFunction (m : Machine) (f : Closure) : Prop :=
  m.Stores (.function f) ∨ ∃ c name, m.ownMethod? c name = some f

theorem Machine.Stocks.of_holdsFunction {K : Stock} {m : Machine} (h : m.Stocks K) {f : Closure}
    (hf : m.HoldsFunction f) : f.Stocked K := by
  rcases hf with (⟨i, name, hv⟩ | ⟨i, name, hv⟩) | ⟨c, name, hf⟩
  · exact h.slots i name _ hv
  · exact h.fields i name _ hv
  · exact h.methods c name f hf

theorem OccursIn.ids_subset {bodies : List (List Stmt)} {above : List Node} {decl : FunctionDecl}
    (h : OccursIn bodies above (.routine decl)) :
    ∃ body ∈ bodies, decl.ids ⊆ Stmt.idsAll body := by
  obtain ⟨body, hbody, hoccurs⟩ := h
  obtain ⟨σ, hv, -⟩ := hoccurs.exists_visited
  exact ⟨body, hbody, hv.ids_subset⟩

/-- The numbers in a function are numbers of the program that declares it. -/
theorem FunctionDecl.DeclaredIn.ids_subset {bodies : List (List Stmt)} {decl : FunctionDecl}
    {isInitializer : Bool} (h : decl.DeclaredIn bodies isInitializer) :
    ∃ body ∈ bodies, decl.ids ⊆ Stmt.idsAll body := by
  cases h with
  | function h => exact (h.child List.mem_cons_self).ids_subset
  | method h hdecl =>
    exact (h.child (List.mem_append_right _ (List.mem_map_of_mem hdecl))).ids_subset

/-! ### Tables of distances -/

/-- A table of distances is what findings record, one after the other. Where a distance is written
there was none, and an entry that is there at some point is there in the end. -/
structure WrittenOnce (ds : Distances) (findings : List Finding) : Prop where
  eq_recordAll : ds = Distances.recordAll #[] findings
  vacant : ∀ front id hops back, findings = front ++ .distance id hops :: back →
    (Distances.recordAll #[] front).get? id = none
  kept : ∀ front back id hops, findings = front ++ back →
    (Distances.recordAll #[] front).get? id = some hops → ds.get? id = some hops

/-- Every entry is written once if a number gets at most one distance. -/
theorem WrittenOnce.of_nodup {findings : List Finding}
    (h : (Finding.recordedIds findings).Nodup) :
    WrittenOnce (Distances.recordAll #[] findings) findings where
  eq_recordAll := rfl
  vacant front id hops back hsplit := Distances.get?_eq_none_of_split h rfl hsplit
  kept front back id hops hsplit hget := by
    have hmem : id ∈ Finding.recordedIds front := by
      rcases Distances.get?_recordAll front #[] hget with hnone | hfront
      · cases hnone
      · exact Finding.mem_recordedIds.mpr ⟨hops, hfront⟩
    rw [hsplit, Distances.recordAll_append]
    refine (Distances.get?_recordAll_of_notMem back _ fun hops' hback => ?_).trans hget
    rw [hsplit, Finding.recordedIds, List.filterMap_append] at h
    exact (List.nodup_append.mp h).2.2 id hmem id (Finding.mem_recordedIds.mpr ⟨hops', hback⟩) rfl

namespace Session

/-! ### One run -/

/-- The findings that are recorded when a text is run: those about its statements, unless the text
cannot be read. -/
def recordings (s : Session) (source : String) : List Finding :=
  if s.readReports source = [] then programFindings (s.programOf source).body else []

variable {s s' : Session} {source : String} {fuel : Nat} {status : Status}

theorem Accepts.recordings_eq {body : List Stmt} {prepared : Session}
    (ha : s.Accepts source body prepared) : s.recordings source = programFindings body := by
  rw [recordings, if_pos (accepts_iff.mp ha).2.1, ha.body_eq]

/-- The numbers that get a distance in a run are numbers of its text, each as often as there. -/
theorem recordings_subperm (s : Session) (source : String) :
    (Finding.recordedIds (s.recordings source)).Subperm
      (Stmt.idsAll (s.programOf source).body) := by
  unfold recordings
  split
  · exact recordedIds_subperm _
  · exact List.nil_subperm

/-- A text that is not executed leaves what is recorded about it. -/
theorem distances_of_rejected (hrejected : ∀ body prepared, ¬ s.Accepts source body prepared)
    (hrun : s.run fuel source = some (status, s')) :
    s'.machine.distances = s.machine.distances.recordAll (s.recordings source) ∧
      s'.nextId = (s.programOf source).nextId := by
  rw [run_eq] at hrun
  by_cases hread : s.readReports source = []
  · rw [hread] at hrun
    by_cases hscope : scopeReports (s.programOf source).body = []
    · exact absurd (accepts_iff.mpr ⟨rfl, hread, hscope⟩) (hrejected _ _)
    · have herror : (s.prepare source).2.diagnostics.hadError := by
        rw [prepare_eq, ← Bool.not_eq_false,
          Diagnostics.hadError_reportAll_eq_false (isRuntime_scopeReports _)]
        exact fun h => hscope h.2
      have hnone : ¬ (Diagnostics.empty.reportAll []).hadError := Bool.false_ne_true
      rw [if_neg hnone, if_pos herror] at hrun
      cases hrun
      rw [recordings, if_pos hread]
      exact ⟨rfl, rfl⟩
  · have herror : (Diagnostics.empty.reportAll (s.readReports source)).hadError := by
      rw [← Bool.not_eq_false, Diagnostics.hadError_reportAll_eq_false isRuntime_readReports]
      exact fun h => hread h.2
    rw [if_pos herror] at hrun
    cases hrun
    rw [recordings, if_neg hread]
    exact ⟨rfl, rfl⟩

/-- A run adds to the table what it records and goes on counting; nothing else changes either. -/
theorem distances_of_ends (hs : Reachable s) (hrun : s.run fuel source = some (status, s')) :
    s'.machine.distances = s.machine.distances.recordAll (s.recordings source) ∧
      s'.nextId = (s.programOf source).nextId := by
  obtain ⟨bodies, hsteady⟩ := hs.steady
  by_cases haccepts : ∃ body prepared, s.Accepts source body prepared
  · obtain ⟨body, prepared, ha⟩ := haccepts
    rw [distances_of_run hsteady ha hrun, ha.distances_eq, ha.recordings_eq, nextId_of_run ha hrun,
      ha.nextId_eq]
    exact ⟨rfl, rfl⟩
  · exact distances_of_rejected (fun body prepared ha => haccepts ⟨body, prepared, ha⟩) hrun

/-- A machine at some moment of the run of a text, whether or not the run ends. -/
def Passes (s : Session) (source : String) (m : Machine) : Prop :=
  ∃ body prepared, s.Accepts source body prepared ∧
    ∃ fuel node, ComesTo fuel body prepared.machine node m

/-- While an accepted text is executed, the table has what the run records. -/
theorem Passes.distances (hs : Reachable s) {m : Machine} (hm : s.Passes source m) :
    m.distances = s.machine.distances.recordAll (s.recordings source) := by
  obtain ⟨body, prepared, ha, fuel, node, hm⟩ := hm
  obtain ⟨bodies, hsteady⟩ := hs.steady
  obtain ⟨plan, site, ho, -⟩ := (hsteady.aligned ha (fun _ _ _ => trivial) hm).1
  rw [ho.distances, ha.distances_eq, ha.recordings_eq]

/-! ### Runs one after the other -/

/-- A run that ended. -/
structure PastRun where
  /-- The session that runs the text. -/
  before : Session
  /-- The text. -/
  source : String
  /-- The session that the run leaves. -/
  after : Session

namespace PastRun

/-- The statements that were read. -/
def body (t : PastRun) : List Stmt :=
  (t.before.programOf t.source).body

/-- The numbers of the nodes that were read. -/
def ids (t : PastRun) : List Nat :=
  Stmt.idsAll t.body

/-- The findings that were recorded. -/
def findings (t : PastRun) : List Finding :=
  t.before.recordings t.source

end PastRun

/-- Runs of any texts one after the other, the first one first, and the session that they lead to.
Output and reports may be handed over in between. -/
inductive Ran : List PastRun → Session → Prop
  /-- A session before its first run. -/
  | start (clock : Nat → Nat) (input : List UInt8) : Ran [] (.start clock input)
  /-- A run that ended. -/
  | run {past : List PastRun} {s s' : Session} {source : String} {fuel : Nat} {status : Status}
      (h : Ran past s) (hrun : s.run fuel source = some (status, s')) :
    Ran (past ++ [⟨s, source, s'⟩]) s'
  /-- The output handed over. -/
  | takeOutput {past : List PastRun} {s : Session} (h : Ran past s) : Ran past s.takeOutput.2
  /-- The reports handed over. -/
  | takeReports {past : List PastRun} {s : Session} (h : Ran past s) : Ran past s.takeReports.2

namespace Ran

variable {past : List PastRun}

theorem reachable (h : Ran past s) : Reachable s := by
  induction h with
  | start clock input => exact .start clock input
  | run _ hrun ih => exact .run ih hrun
  | takeOutput _ ih => exact .takeOutput ih
  | takeReports _ ih => exact .takeReports ih

/-- After each of the runs there was a session that the runs up to it lead to. -/
theorem exists_split (h : Ran past s) {t : PastRun} (ht : t ∈ past) :
    ∃ front back, past = front ++ back ∧ Ran front t.after := by
  induction h with
  | start => exact absurd ht List.not_mem_nil
  | @run past s s' source fuel status h hrun ih =>
    rcases List.mem_append.mp ht with ht | ht
    · obtain ⟨front, back, rfl, hfront⟩ := ih ht
      exact ⟨front, _, List.append_assoc .., hfront⟩
    · obtain rfl := List.mem_singleton.mp ht
      exact ⟨_, [], (List.append_nil _).symm, .run h hrun⟩
  | takeOutput _ ih => exact ih ht
  | takeReports _ ih => exact ih ht

/-- The programs that were executed are among those that were read. -/
theorem exists_after (h : Ran past s) :
    ∃ history, After history s ∧ history.map (·.body) ⊆ past.map PastRun.body := by
  induction h with
  | start clock input => exact ⟨[], .start clock input, List.Subset.refl _⟩
  | @run past s s' source fuel status h hrun ih =>
    obtain ⟨history, hafter, hsubset⟩ := ih
    have hmore := List.Subset.trans hsubset (List.map_subset PastRun.body
      (List.subset_append_left past [⟨s, source, s'⟩]))
    by_cases haccepts : ∃ body prepared, s.Accepts source body prepared
    · obtain ⟨body, prepared, ha⟩ := haccepts
      refine ⟨_, hafter.accepted ha hrun, List.cons_subset.mpr ⟨?_, hmore⟩⟩
      refine List.mem_map.mpr ⟨⟨s, source, s'⟩, by simp, ?_⟩
      exact ha.body_eq.symm
    · have hrejected : ∀ body prepared, ¬ s.Accepts source body prepared :=
        fun body prepared ha => haccepts ⟨body, prepared, ha⟩
      exact ⟨history, hafter.rejected hrejected hrun, hmore⟩
  | takeOutput _ ih =>
    obtain ⟨history, hafter, hsubset⟩ := ih
    exact ⟨history, hafter.takeOutput, hsubset⟩
  | takeReports _ ih =>
    obtain ⟨history, hafter, hsubset⟩ := ih
    exact ⟨history, hafter.takeReports, hsubset⟩

/-- The numbers of all nodes that were read, each of them once. -/
theorem numbered (h : Ran past s) : Numbered 0 s.nextId (past.flatMap PastRun.ids) := by
  induction h with
  | start => exact .nil (Nat.le_refl 0)
  | @run past s s' source fuel status h hrun ih =>
    rw [List.flatMap_append, List.flatMap_singleton, (distances_of_ends h.reachable hrun).2]
    exact ih.append (numbered_programOf s source)
  | takeOutput _ ih => exact ih
  | takeReports _ ih => exact ih

/-- The table of distances is what all runs have recorded. -/
theorem distances (h : Ran past s) :
    s.machine.distances = Distances.recordAll #[] (past.flatMap PastRun.findings) := by
  induction h with
  | start => rfl
  | run h hrun ih =>
    rw [List.flatMap_append, List.flatMap_singleton, Distances.recordAll_append, ← ih]
    exact (distances_of_ends h.reachable hrun).1
  | takeOutput _ ih => exact ih
  | takeReports _ ih => exact ih

/-- The numbers that got a distance are numbers of nodes that were read, each as often as there. -/
theorem recordedIds_subperm (past : List PastRun) :
    (Finding.recordedIds (past.flatMap PastRun.findings)).Subperm (past.flatMap PastRun.ids) := by
  rw [Finding.recordedIds, List.filterMap_flatMap]
  exact subperm_flatMap fun t _ => recordings_subperm t.before t.source

/-- The numbers in a function that a machine holds are numbers of nodes that were read. -/
theorem mem_ids_of_holdsFunction (h : Ran past s) {f : Closure}
    (hf : s.machine.HoldsFunction f) {id : Nat} (hid : id ∈ f.decl.ids) :
    id ∈ past.flatMap PastRun.ids := by
  obtain ⟨history, hafter, hsubset⟩ := h.exists_after
  have hdeclared : f.decl.DeclaredIn _ f.isInitializer := hafter.stocks.of_holdsFunction hf
  obtain ⟨body, hbody, hids⟩ := hdeclared.ids_subset
  obtain ⟨t, ht, rfl⟩ := List.mem_map.mp (hsubset hbody)
  exact List.mem_flatMap.mpr ⟨t, ht, hids hid⟩

end Ran

namespace Ran

variable {past : List PastRun}

/-- The numbers of a text that is run next are new. -/
theorem nodup_ids (h : Ran past s) (source : String) :
    (past.flatMap PastRun.ids ++ Stmt.idsAll (s.programOf source).body).Nodup :=
  (h.numbered.append (numbered_programOf s source)).nodup

/-- A number gets at most one distance, in whichever of the runs and in the next one. -/
theorem nodup_recordedIds (h : Ran past s) (source : String) :
    (Finding.recordedIds (past.flatMap PastRun.findings ++ s.recordings source)).Nodup := by
  rw [Finding.recordedIds, List.filterMap_append]
  obtain ⟨ids, hperm, hsub⟩ := (recordedIds_subperm past).append (recordings_subperm s source)
  exact hperm.nodup_iff.mp ((h.nodup_ids source).sublist hsub)

/-- Later runs leave the distances of the nodes that were read before them as they are. -/
theorem get?_distances {front back : List PastRun} {t : Session} (h : Ran (front ++ back) s)
    (ht : Ran front t) {id : Nat} (hid : id ∈ front.flatMap PastRun.ids) :
    s.machine.distances.get? id = t.machine.distances.get? id := by
  have hids := h.numbered.nodup
  rw [List.flatMap_append] at hids
  rw [h.distances, ht.distances, List.flatMap_append, Distances.recordAll_append]
  exact Distances.get?_recordAll_of_nodup _ hids (recordedIds_subperm back) hid

end Ran

/-- Distances are written once. After any runs, and while a further text is run, the numbers of all
nodes that were read are different, a number gets at most one distance, and each distance was written
where there was none and has stayed since. So the distances of the nodes in a function that an earlier
run left are those that they had then. -/
theorem distances_written_once {past : List PastRun} (h : Ran past s) (source : String) :
    (past.flatMap PastRun.ids ++ Stmt.idsAll (s.programOf source).body).Nodup ∧
    (Finding.recordedIds (past.flatMap PastRun.findings ++ s.recordings source)).Nodup ∧
    WrittenOnce s.machine.distances (past.flatMap PastRun.findings) ∧
    (∀ m, s.Passes source m →
      WrittenOnce m.distances (past.flatMap PastRun.findings ++ s.recordings source)) ∧
    ∀ t ∈ past, ∀ f, t.after.machine.HoldsFunction f → ∀ id ∈ f.decl.ids,
      s.machine.distances.get? id = t.after.machine.distances.get? id ∧
      ∀ m, s.Passes source m → m.distances.get? id = t.after.machine.distances.get? id := by
  have hrecorded := h.nodup_recordedIds source
  have hpast : (Finding.recordedIds (past.flatMap PastRun.findings)).Nodup := by
    rw [Finding.recordedIds, List.filterMap_append] at hrecorded
    exact hrecorded.of_append_left
  refine ⟨h.nodup_ids source, hrecorded, ?_, fun m hm => ?_, fun t ht f hf id hid => ?_⟩
  · rw [h.distances]
    exact .of_nodup hpast
  · rw [hm.distances h.reachable, h.distances, ← Distances.recordAll_append]
    exact .of_nodup hrecorded
  · obtain ⟨front, back, rfl, hfront⟩ := h.exists_split ht
    have hmem := hfront.mem_ids_of_holdsFunction hf hid
    have hstays := h.get?_distances hfront hmem
    refine ⟨hstays, fun m hm => ?_⟩
    rw [hm.distances h.reachable, ← hstays]
    refine Distances.get?_recordAll_of_nodup _ (h.nodup_ids source) (recordings_subperm s source) ?_
    rw [List.flatMap_append]
    exact List.mem_append_left _ hmem

/-- A function that reads its parameter. -/
def readingText : String :=
  "fun f(a) \x7b a; \x7d"

/-- The function of `readingText`, as the first run of a session makes it. -/
def readingFunction : Closure :=
  ⟨0, ⟨⟨"f", 1⟩, [⟨"a", 1⟩], [.expression (.variable 0 ⟨"a", 1⟩)]⟩, globalFrame, false⟩

/-- The session after that run. -/
def readingSession : Session :=
  ⟨{ Machine.start (fun _ => 0) [] with
      frames := initialFrames.write globalFrame "f" (some (.function readingFunction))
      closures := 1
      distances := #[some 0] }, 1, .empty⟩

/-- A text that breaks a rule about scopes. -/
def straySource : String :=
  "\x7b var b; return b; \x7d"

/-- A text that is rejected leaves the distance in a function of an earlier run as it is. -/
theorem distances_written_once_reading :
    (Session.start (fun _ => 0) []).run 3 readingText = some (.ok, readingSession) ∧
    readingSession.machine.HoldsFunction readingFunction ∧ 0 ∈ readingFunction.decl.ids ∧
    ∃ s, readingSession.run 3 straySource = some (.staticError, s) ∧
      s.machine.distances.get? 0 = readingSession.machine.distances.get? 0 ∧
      s.machine.distances.get? 1 = some 0 := by
  have hfirst : (Session.start (fun _ => 0) []).run 3 readingText = some (.ok, readingSession) := by
    cbv
  have hsecond : readingSession.run 3 straySource =
      some (.staticError, (readingSession.prepare straySource).2) := by
    cbv
  have hholds : readingSession.machine.HoldsFunction readingFunction :=
    .inl (.inl ⟨globalFrame, "f", by cbv⟩)
  have hran := Ran.run (.run (.start (fun _ => 0) []) hfirst) hsecond
  have hstays := (distances_written_once hran "").2.2.2.2 _ List.mem_cons_self _ hholds 0 (by decide)
  exact ⟨hfirst, hholds, by decide, _, hsecond, hstays.1, by cbv⟩

end Session

end Treewalk
