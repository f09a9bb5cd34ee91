import Treewalk.Proofs.Run.Alignment
import Treewalk.Proofs.Scope.Resolution
import Treewalk.Proofs.Syntax.Soundness.Program
import Treewalk.Session

/-!
# Histories of sessions

A session is *reached* by runs one after the other. The programs whose texts had no fault were
executed, in turn, on its machine, and what they left there is in order: every function belongs to
one of these programs, and the distances recorded for a program stay as they are, since the numbers
of later programs are new.

## Main definitions

* `Session.Accepts`: a text in which no fault is found before it runs.
* `Session.Reached`: sessions after runs, with the programs that were executed.
* `Session.Reachable`: sessions after runs, with output and reports handed over in between.
* `Session.Steady`: what holds between runs.

## Main results

* `Session.Accepts.run_eq`: a text without a fault is executed.
* `Session.Reached.steady`, `Session.Reachable.steady`: what holds between runs, for every history.
-/

namespace Treewalk

namespace Session

/-- A session that has read a text and recorded its distances. -/
def prepare (s : Session) (source : String) : List Stmt × Session :=
  let (body, s) := { s with diagnostics := s.diagnostics.reset }.read source
  (body, s.resolve body)

/-- A text in which no fault is found before it runs, with the program that is read from it and the
session that executes it. -/
structure Accepts (s : Session) (source : String) (body : List Stmt) (prepared : Session) :
    Prop where
  prepared_eq : s.prepare source = (body, prepared)
  no_reports : prepared.diagnostics.reports = []

/-- The sessions after runs that ended, with the programs that were executed, the last one first. -/
inductive Reached : List (List Stmt) → Session → Prop
  /-- A session before its first run. -/
  | start (clock : Nat → Nat) (input : List UInt8) : Reached [] (.start clock input)
  /-- A run that executes a program. -/
  | accepted {bodies : List (List Stmt)} {s s' prepared : Session} {source : String}
      {body : List Stmt} {fuel : Nat} {status : Status} (h : Reached bodies s)
      (ha : s.Accepts source body prepared) (hrun : s.run fuel source = some (status, s')) :
    Reached (body :: bodies) s'
  /-- A run of a text with a fault. -/
  | rejected {bodies : List (List Stmt)} {s s' : Session} {source : String} {fuel : Nat}
      {status : Status} (h : Reached bodies s)
      (hrejected : ∀ body prepared, ¬ s.Accepts source body prepared)
      (hrun : s.run fuel source = some (status, s')) : Reached bodies s'

end Session

/-! ### Reports of a text -/

namespace Diagnostics

theorem reports_reportAll (d : Diagnostics) (rs : List Report) :
    (d.reportAll rs).reports = d.reports ++ rs := by
  induction rs generalizing d with
  | nil => simp [reportAll]
  | cons r rs ih =>
    have hnext := ih (d.report r)
    simpa [reportAll, report] using hnext

theorem hadError_reportAll (d : Diagnostics) (rs : List Report) :
    (d.reportAll rs).hadError = (d.hadError || rs.any fun r => !r.isRuntime) := by
  induction rs generalizing d with
  | nil => simp [reportAll]
  | cons r rs ih =>
    have hnext := ih (d.report r)
    simpa [reportAll, report, Bool.or_assoc] using hnext

/-- Reports that are not about the running program are reports of a fault. -/
theorem hadError_reportAll_eq_false {d : Diagnostics} {rs : List Report}
    (hrs : ∀ r ∈ rs, r.isRuntime = false) :
    (d.reportAll rs).hadError = false ↔ d.hadError = false ∧ rs = [] := by
  rw [hadError_reportAll]
  cases rs with
  | nil => simp
  | cons r rs => simp [hrs r List.mem_cons_self]

end Diagnostics

namespace Session

/-- The reports of reading a text. -/
def readReports (s : Session) (source : String) : List Report :=
  let items := Token.scan source
  let tokens := Token.tokensOf items
  let program := Program.ofTokens s.nextId tokens
  let lastLine := (tokens.find? (·.kind.isEnd)).elim 1 (·.line)
  (Token.errorsOf items).map (·.report) ++ program.errors.map (·.report lastLine)

/-- The program that is read from a text. -/
def programOf (s : Session) (source : String) : Program :=
  Program.ofTokens s.nextId (Token.tokensOf (Token.scan source))

/-- The reports about the scopes of a program. -/
def scopeReports (body : List Stmt) : List Report :=
  (Finding.errors (programFindings body)).map (·.report)

section Stages

variable {s : Session} {source : String}

theorem isRuntime_readReports : ∀ r ∈ s.readReports source, r.isRuntime = false := by
  intro r hr
  rcases List.mem_append.mp hr with hr | hr
  · obtain ⟨e, -, rfl⟩ := List.mem_map.mp hr
    rfl
  · obtain ⟨e, -, rfl⟩ := List.mem_map.mp hr
    rfl

theorem isRuntime_scopeReports (body : List Stmt) :
    ∀ r ∈ scopeReports body, r.isRuntime = false := by
  intro r hr
  obtain ⟨e, -, rfl⟩ := List.mem_map.mp hr
  rfl

/-- The machine with the distances of the program of a text recorded. -/
theorem prepare_eq (s : Session) (source : String) :
    s.prepare source = ((s.programOf source).body,
      ⟨{ s.machine with distances :=
          s.machine.distances.recordAll (programFindings (s.programOf source).body) },
        (s.programOf source).nextId,
        (Diagnostics.empty.reportAll (s.readReports source)).reportAll
          (scopeReports (s.programOf source).body)⟩) :=
  rfl

/-- A run in its stages, whatever the way in which names are looked up. -/
theorem runWith_eq (s : Session) (lookup : Lookup) (fuel : Nat) (source : String) :
    s.runWith lookup fuel source =
      if (Diagnostics.empty.reportAll (s.readReports source)).hadError then
        some (.staticError, ⟨s.machine, (s.programOf source).nextId,
          Diagnostics.empty.reportAll (s.readReports source)⟩)
      else if (s.prepare source).2.diagnostics.hadError then
        some (.staticError, (s.prepare source).2)
      else (s.prepare source).2.execute lookup fuel (s.prepare source).1 :=
  rfl

/-- A run in its stages. -/
theorem run_eq (s : Session) (fuel : Nat) (source : String) :
    s.run fuel source =
      if (Diagnostics.empty.reportAll (s.readReports source)).hadError then
        some (.staticError, ⟨s.machine, (s.programOf source).nextId,
          Diagnostics.empty.reportAll (s.readReports source)⟩)
      else if (s.prepare source).2.diagnostics.hadError then
        some (.staticError, (s.prepare source).2)
      else (s.prepare source).2.execute .resolved fuel (s.prepare source).1 :=
  s.runWith_eq .resolved fuel source

theorem reports_prepare : (s.prepare source).2.diagnostics.reports =
    s.readReports source ++ scopeReports (s.programOf source).body := by
  rw [prepare_eq, Diagnostics.reports_reportAll, Diagnostics.reports_reportAll]
  rfl

/-- A text is accepted if it has no report. -/
theorem accepts_iff {body : List Stmt} {prepared : Session} :
    s.Accepts source body prepared ↔ s.prepare source = (body, prepared) ∧
      s.readReports source = [] ∧ scopeReports (s.programOf source).body = [] := by
  constructor
  · rintro ⟨hprepare, hreports⟩
    have hprepared : (s.prepare source).2 = prepared := by rw [hprepare]
    rw [← hprepared, reports_prepare, List.append_eq_nil_iff] at hreports
    exact ⟨hprepare, hreports⟩
  · rintro ⟨hprepare, hread, hscope⟩
    refine ⟨hprepare, ?_⟩
    have hprepared : (s.prepare source).2 = prepared := by rw [hprepare]
    rw [← hprepared, reports_prepare, hread, hscope, List.append_nil]

/-- Before an accepted program is executed there are no reports, and no flag is set. -/
theorem Accepts.diagnostics_eq {body : List Stmt} {prepared : Session}
    (ha : s.Accepts source body prepared) : prepared.diagnostics = .empty := by
  obtain ⟨hprepare, hread, hscope⟩ := accepts_iff.mp ha
  have hdiagnostics : (s.prepare source).2.diagnostics = .empty := by
    rw [Session.prepare_eq, hread, hscope]
    rfl
  rwa [hprepare] at hdiagnostics

/-- A text without a fault is executed, whatever the way in which names are looked up. -/
theorem Accepts.runWith_eq {body : List Stmt} {prepared : Session}
    (ha : s.Accepts source body prepared) (lookup : Lookup) (fuel : Nat) :
    s.runWith lookup fuel source = prepared.execute lookup fuel body := by
  obtain ⟨hprepare, hread, -⟩ := accepts_iff.mp ha
  rw [Session.runWith_eq, hprepare, ha.diagnostics_eq, hread]
  rfl

/-- A text without a fault is executed. -/
theorem Accepts.run_eq {body : List Stmt} {prepared : Session}
    (ha : s.Accepts source body prepared) (fuel : Nat) :
    s.run fuel source = prepared.execute .resolved fuel body :=
  ha.runWith_eq .resolved fuel

/-- A text with a fault leaves the session as it is after reading or after recording distances. -/
theorem eq_of_not_accepts {fuel : Nat} {status : Status} {s' : Session}
    (hrejected : ∀ body prepared, ¬ s.Accepts source body prepared)
    (hrun : s.run fuel source = some (status, s')) :
    s' = ⟨s.machine, (s.programOf source).nextId,
        Diagnostics.empty.reportAll (s.readReports source)⟩ ∨ s' = (s.prepare source).2 := by
  rw [Session.run_eq] at hrun
  split at hrun
  · cases hrun
    exact .inl rfl
  split at hrun
  · cases hrun
    exact .inr rfl
  · next hread hscope =>
    have hread := eq_false_of_ne_true hread
    have hscope := eq_false_of_ne_true hscope
    rw [Diagnostics.hadError_reportAll_eq_false isRuntime_readReports] at hread
    rw [prepare_eq, Diagnostics.hadError_reportAll_eq_false (isRuntime_scopeReports _)] at hscope
    exact absurd (accepts_iff.mpr ⟨rfl, hread.2, hscope.2⟩) (hrejected _ _)

/-- An accepted program breaks no rule, has the shape of programs and has numbers of its own. -/
theorem Accepts.body_eq {body : List Stmt} {prepared : Session}
    (ha : s.Accepts source body prepared) : body = (s.programOf source).body := by
  have hprepare := ha.prepared_eq
  rw [Session.prepare_eq] at hprepare
  exact (congrArg Prod.fst hprepare).symm

theorem Accepts.proper {body : List Stmt} {prepared : Session}
    (ha : s.Accepts source body prepared) : ∀ s ∈ body, s.Proper := by
  obtain ⟨-, hread, -⟩ := accepts_iff.mp ha
  have herrors := (List.append_eq_nil_iff.mp hread).2
  have hreads := Program.ofTokens_sound (List.map_eq_nil_iff.mp herrors)
  rw [ha.body_eq]
  refine hreads.proper fun sign hsign => ?_
  obtain ⟨t, ht, rfl⟩ := List.mem_map.mp hsign
  exact Token.isFree_scan source t (List.takeWhile_subset _ ht)

theorem Accepts.clean {body : List Stmt} {prepared : Session}
    (ha : s.Accepts source body prepared) (error : ScopeError) :
    .broken error ∉ programFindings body := by
  obtain ⟨-, -, hscope⟩ := accepts_iff.mp ha
  rw [ha.body_eq]
  intro hmem
  have herror : error ∈ Finding.errors (programFindings (s.programOf source).body) :=
    List.mem_filterMap.mpr ⟨_, hmem, rfl⟩
  rw [List.map_eq_nil_iff.mp hscope] at herror
  exact absurd herror List.not_mem_nil

theorem numbered_programOf (s : Session) (source : String) :
    Numbered s.nextId (s.programOf source).nextId (Stmt.idsAll (s.programOf source).body) :=
  Program.ofTokens_numbered _ _

end Stages

/-! ### Between runs -/

/-- The visits of programs. -/
def SeenIn (bodies : List (List Stmt)) (v : Visit) : Prop :=
  ∃ body ∈ bodies, Met body v

/-- What holds between runs after some programs have been executed by runs that came to certain
moments. -/
structure Steady (bodies : List (List Stmt)) (comes : Node → Machine → Prop) (s : Session) : Prop
    where
  current : s.machine.current = globalFrame
  ordered : ∃ plan, Ordered ⟨SeenIn bodies, comes⟩ s.machine.distances plan s.machine
  resolved : ∀ body ∈ bodies, Resolved s.machine.distances body
  below : ∀ body ∈ bodies, ∀ id ∈ Stmt.idsAll body, id < s.nextId
  fresh : ∀ id, s.nextId ≤ id → s.machine.distances.get? id = none
  disjoint : bodies.Pairwise fun b b' => List.Disjoint (Stmt.idsAll b) (Stmt.idsAll b')

theorem guides_seenIn {ds : Distances} {bodies : List (List Stmt)}
    (h : ∀ body ∈ bodies, Resolved ds body) : Guides (SeenIn bodies) where
  part := fun ⟨body, hbody, hv⟩ hw => ⟨body, hbody, hv.part hw⟩
  superclass := fun ⟨body, hbody, hv⟩ => ⟨body, hbody, hv.superclassOf⟩
  fits := fun ⟨body, hbody, hv⟩ => (h body hbody).fits hv

theorem exists_native_of_get? {natives : List Native} {name : String} {v : Value}
    (h : Bindings.get? (natives.map fun n => (n.name, some (.native n))) name = some (some v)) :
    ∃ n, v = .native n := by
  induction natives with
  | nil => cases h
  | cons n natives ih =>
    rw [List.map_cons, Bindings.get?] at h
    split at h
    · cases h
      exact ⟨n, rfl⟩
    · exact ih h

/-- Before any program has run, variables hold built-in functions only. -/
theorem exists_native_of_slot? {i : Nat} {name : String} {v : Value}
    (h : initialFrames.slot? i name = some (some v)) : ∃ n, v = .native n := by
  have hholds : initialFrames.holds i name := by
    rw [Frames.holds, h]
    rfl
  obtain rfl : i = 0 := Nat.lt_one_iff.mp (Frames.lt_size_of_holds hholds)
  exact exists_native_of_get? h

theorem not_sealed_start (clock : Nat → Nat) (input : List UInt8) {i : Nat} :
    ¬ (Machine.start clock input).frames.Sealed i := by
  intro hsealed
  have hsize : i < initialFrames.size := hsealed.lt_size
  obtain rfl : i = 0 := Nat.lt_one_iff.mp hsize
  have hnot : ¬ initialFrames.holds 0 "this" ∧ ¬ initialFrames.holds 0 "super" := by decide
  exact hsealed.elim hnot.1 hnot.2

/-- A machine before any program has run is in order. -/
theorem ordered_start (W : World) (clock : Nat → Nat) (input : List UInt8) :
    Ordered W #[] ⟨fun _ => ⟨[], []⟩, 0⟩ (.start clock input) where
  global := Nat.zero_lt_one
  root := rfl
  held i hi name hname := by
    have hsize : i < initialFrames.size := Frames.lt_size_of_holds hname
    exact absurd (Nat.lt_one_iff.mp hsize) hi
  slots i name v hv := by
    obtain ⟨n, rfl⟩ := exists_native_of_slot? hv
    trivial
  fields i name v hv := nomatch hv
  methods c name f hf := nomatch hf
  distances := rfl
  classes := rfl
  descends := ⟨nofun, nofun⟩
  receivers i hi := absurd (.inl hi) (not_sealed_start clock input)
  supers i hi := absurd (.inr hi) (not_sealed_start clock input)
  offers c name f hf := nomatch hf

namespace Steady

variable {bodies : List (List Stmt)} {comes comes' : Node → Machine → Prop} {s s' : Session}

theorem start (comes : Node → Machine → Prop) (clock : Nat → Nat) (input : List UInt8) :
    Steady [] comes (.start clock input) where
  current := rfl
  ordered := ⟨_, ordered_start _ clock input⟩
  resolved _ hbody := absurd hbody List.not_mem_nil
  below _ hbody := absurd hbody List.not_mem_nil
  fresh _ _ := rfl
  disjoint := .nil

/-- More moments keep what holds between runs. -/
theorem of_comes (h : Steady bodies comes s)
    (hcomes : ∀ node m, comes node m → comes' node m) : Steady bodies comes' s := by
  obtain ⟨plan, ho⟩ := h.ordered
  exact ⟨h.current, ⟨plan, ho.of_seen (fun _ => id) hcomes⟩, h.resolved, h.below, h.fresh,
    h.disjoint⟩

/-- Reading a text keeps what holds between runs. -/
theorem read (h : Steady bodies comes s) (source : String) (d : Diagnostics) :
    Steady bodies comes ⟨s.machine, (s.programOf source).nextId, d⟩ := by
  have hle := (numbered_programOf s source).le
  refine ⟨h.current, h.ordered, h.resolved, fun body hbody id hid => ?_, fun id hid => ?_,
    h.disjoint⟩
  · exact Nat.lt_of_lt_of_le (h.below body hbody id hid) hle
  · exact h.fresh id (Nat.le_trans hle hid)

/-- The distances of a new program leave those of before as they are. -/
theorem get?_recordAll (s : Session) (source : String) {id : Nat}
    (hid : id < s.nextId ∨ (s.programOf source).nextId ≤ id) :
    (s.machine.distances.recordAll (programFindings (s.programOf source).body)).get? id =
      s.machine.distances.get? id := by
  refine Distances.get?_recordAll_of_notMem _ _ fun hops hmem => ?_
  have := (numbered_programOf s source).mem id (mem_idsAll_of_mem_programFindings hmem)
  omega

/-- Recording the distances of a text keeps what holds between runs. -/
theorem prepare (h : Steady bodies comes s) (source : String) :
    Steady bodies comes (s.prepare source).2 := by
  obtain ⟨plan, ho⟩ := h.ordered
  have hle := (numbered_programOf s source).le
  refine ⟨h.current, ⟨plan, ho.of_distances _⟩, fun body hbody => ?_, fun body hbody id hid => ?_,
    fun id hid => ?_, h.disjoint⟩
  · refine (h.resolved body hbody).of_get?_eq fun id hid => ?_
    exact get?_recordAll s source (.inl (h.below body hbody id hid))
  · exact Nat.lt_of_lt_of_le (h.below body hbody id hid) hle
  · exact (get?_recordAll s source (.inr hid)).trans (h.fresh id (Nat.le_trans hle hid))

/-- An accepted program is resolved. -/
theorem resolved_of_accepts (h : Steady bodies comes s) {source : String} {body : List Stmt}
    {prepared : Session} (ha : s.Accepts source body prepared) :
    Resolved prepared.machine.distances body := by
  have hprepared : (s.prepare source).2 = prepared := by rw [ha.prepared_eq]
  have hnumbered := numbered_programOf s source
  refine ⟨ha.proper, ha.clean, ?_⟩
  rw [← hprepared, ha.body_eq]
  refine Distances.recorded_recordAll hnumbered.nodup (fun id hid => ?_) _
  exact h.fresh id (hnumbered.mem id hid).1

/-- An accepted program can be executed. -/
theorem accept (h : Steady bodies comes s) {source : String} {body : List Stmt}
    {prepared : Session} (ha : s.Accepts source body prepared) :
    Steady (body :: bodies) comes prepared := by
  have hresolved := h.resolved_of_accepts ha
  have hprepared : (s.prepare source).2 = prepared := by rw [ha.prepared_eq]
  have hsteady := h.prepare source
  have hnumbered := numbered_programOf s source
  rw [hprepared] at hsteady
  obtain ⟨plan, ho⟩ := hsteady.ordered
  refine ⟨hsteady.current, ⟨plan, ho.of_seen (fun v => ?_) fun _ _ => id⟩,
    List.forall_mem_cons.mpr ⟨hresolved, hsteady.resolved⟩,
    List.forall_mem_cons.mpr ⟨fun id hid => ?_, hsteady.below⟩, hsteady.fresh,
    .cons (fun b hb id hid hid' => ?_) hsteady.disjoint⟩
  · rintro ⟨b, hb, hv⟩
    exact ⟨b, List.mem_cons_of_mem _ hb, hv⟩
  · rw [ha.body_eq] at hid
    rw [← hprepared]
    exact (hnumbered.mem id hid).2
  · rw [ha.body_eq] at hid
    have := (hnumbered.mem id hid).1
    have := h.below b hb id hid'
    omega

/-- The machine that an executed program leaves. -/
theorem machine_of_execute {lookup : Lookup} {fuel : Nat} {body : List Stmt} {status : Status}
    (hrun : s.execute lookup fuel body = some (status, s')) : s'.nextId = s.nextId ∧
      (interpret lookup fuel body s.machine = .ok () s'.machine ∨
        ∃ e, interpret lookup fuel body s.machine = .error e s'.machine) := by
  unfold Session.execute perform at hrun
  cases hm : interpret lookup fuel body s.machine with
  | ok a m =>
    rw [hm] at hrun
    cases hrun
    exact ⟨rfl, .inl rfl⟩
  | error e m =>
    rw [hm] at hrun
    cases e with
    | raised e =>
      cases hrun
      exact ⟨rfl, .inr ⟨_, rfl⟩⟩
    | outOfFuel => cases hrun

/-- The machine that an executed program leaves follows the one before, if the visits of the program
are among those of the programs that were executed, and its moments are known. -/
theorem follows (h : Steady bodies comes s) {body : List Stmt}
    (hseen : ∀ v ∈ Site.outermost.along body, SeenIn bodies v) {fuel : Nat} {m' : Machine}
    (hcomes : ∀ node m, ComesTo fuel body s.machine node m → comes node m)
    (hm : interpret .resolved fuel body s.machine = .ok () m' ∨
      ∃ e, interpret .resolved fuel body s.machine = .error e m') :
    ∃ plan plan', Follows ⟨SeenIn bodies, comes⟩ s.machine.distances (· = s.machine.current) plan
      s.machine plan' m' := by
  obtain ⟨plan, ho⟩ := h.ordered
  have hleaves := interpret_leaves (guides_seenIn h.resolved) hseen hcomes ho h.current
  rcases hm with hm | ⟨e, hm⟩
  · rw [hm] at hleaves
    obtain ⟨plan', hf, -⟩ := hleaves
    exact ⟨plan, plan', hf⟩
  · rw [hm] at hleaves
    exact ⟨plan, hleaves⟩

theorem seenIn_along {body : List Stmt} (hbody : body ∈ bodies) :
    ∀ v ∈ Site.outermost.along body, SeenIn bodies v :=
  fun _ hv => ⟨body, hbody, .visit (.statement hv)⟩

/-- Executing a program keeps what holds between runs. -/
theorem execute (h : Steady bodies comes s) {body : List Stmt} (hbody : body ∈ bodies) {fuel : Nat}
    {status : Status} (hcomes : ∀ node m, ComesTo fuel body s.machine node m → comes node m)
    (hrun : s.execute .resolved fuel body = some (status, s')) : Steady bodies comes s' := by
  obtain ⟨hnext, hmachine⟩ := machine_of_execute hrun
  obtain ⟨plan, plan', hf⟩ := h.follows (seenIn_along hbody) hcomes hmachine
  have hdistances := hf.ordered.distances
  refine ⟨hf.current.trans h.current, ⟨plan', hdistances ▸ hf.ordered⟩, ?_, ?_, ?_, h.disjoint⟩
  · rw [hdistances]
    exact h.resolved
  · rw [hnext]
    exact h.below
  · rw [hnext, hdistances]
    exact h.fresh

end Steady

namespace Steady

variable {bodies : List (List Stmt)} {comes : Node → Machine → Prop} {s s' : Session}
  {source : String} {fuel : Nat} {status : Status}

/-- A run that executes a program keeps what holds between runs. -/
theorem run_accepted (h : Steady bodies comes s) {body : List Stmt} {prepared : Session}
    (ha : s.Accepts source body prepared)
    (hcomes : ∀ node m, ComesTo fuel body prepared.machine node m → comes node m)
    (hrun : s.run fuel source = some (status, s')) : Steady (body :: bodies) comes s' := by
  rw [ha.run_eq] at hrun
  exact (h.accept ha).execute List.mem_cons_self hcomes hrun

/-- A run of a text with a fault keeps what holds between runs. -/
theorem run_rejected (h : Steady bodies comes s)
    (hrejected : ∀ body prepared, ¬ s.Accepts source body prepared)
    (hrun : s.run fuel source = some (status, s')) : Steady bodies comes s' := by
  rcases eq_of_not_accepts hrejected hrun with rfl | rfl
  · exact h.read _ _
  · exact h.prepare _

theorem takeOutput (h : Steady bodies comes s) : Steady bodies comes s.takeOutput.2 := by
  obtain ⟨plan, ho⟩ := h.ordered
  exact ⟨h.current, ⟨plan, ho.of_output⟩, h.resolved, h.below, h.fresh, h.disjoint⟩

theorem takeReports (h : Steady bodies comes s) : Steady bodies comes s.takeReports.2 :=
  ⟨h.current, h.ordered, h.resolved, h.below, h.fresh, h.disjoint⟩

end Steady

/-! ### Histories -/

/-- The execution of a program. -/
structure Execution where
  /-- The machine on which it begins. -/
  start : Machine
  /-- Its fuel. -/
  fuel : Nat
  /-- The program. -/
  body : List Stmt

/-- A moment of one of the executions. -/
def Came (history : List Execution) (node : Node) (m : Machine) : Prop :=
  ∃ x ∈ history, ComesTo x.fuel x.body x.start node m

theorem Came.cons (x : Execution) {history : List Execution} {node : Node} {m : Machine}
    (h : Came history node m) : Came (x :: history) node m := by
  obtain ⟨y, hy, hcomes⟩ := h
  exact ⟨y, List.mem_cons_of_mem x hy, hcomes⟩

theorem Came.of_comesTo {fuel : Nat} {body : List Stmt} {start : Machine}
    (history : List Execution) {node : Node} {m : Machine} (h : ComesTo fuel body start node m) :
    Came (⟨start, fuel, body⟩ :: history) node m :=
  ⟨_, List.mem_cons_self, h⟩

/-- The sessions after runs that ended, with the executions of programs, the last one first. Output
and reports may be handed over in between. -/
inductive After : List Execution → Session → Prop
  /-- A session before its first run. -/
  | start (clock : Nat → Nat) (input : List UInt8) : After [] (.start clock input)
  /-- A run that executes a program. -/
  | accepted {history : List Execution} {s s' prepared : Session} {source : String}
      {body : List Stmt} {fuel : Nat} {status : Status} (h : After history s)
      (ha : s.Accepts source body prepared) (hrun : s.run fuel source = some (status, s')) :
    After (⟨prepared.machine, fuel, body⟩ :: history) s'
  /-- A run of a text with a fault. -/
  | rejected {history : List Execution} {s s' : Session} {source : String} {fuel : Nat}
      {status : Status} (h : After history s)
      (hrejected : ∀ body prepared, ¬ s.Accepts source body prepared)
      (hrun : s.run fuel source = some (status, s')) : After history s'
  /-- The output handed over. -/
  | takeOutput {history : List Execution} {s : Session} (h : After history s) :
    After history s.takeOutput.2
  /-- The reports handed over. -/
  | takeReports {history : List Execution} {s : Session} (h : After history s) :
    After history s.takeReports.2

/-- What holds between runs holds after every history. -/
theorem After.steady {history : List Execution} {s : Session} (h : After history s) :
    Steady (history.map (·.body)) (Came history) s := by
  induction h with
  | start clock input => exact .start _ clock input
  | accepted _ ha hrun ih =>
    exact (ih.of_comes fun _ _ => .cons _).run_accepted ha (fun _ _ => .of_comesTo _) hrun
  | rejected _ hrejected hrun ih => exact ih.run_rejected hrejected hrun
  | takeOutput _ ih => exact ih.takeOutput
  | takeReports _ ih => exact ih.takeReports

theorem Reached.exists_after {bodies : List (List Stmt)} {s : Session} (h : Reached bodies s) :
    ∃ history, After history s ∧ history.map (·.body) = bodies := by
  induction h with
  | start clock input => exact ⟨[], .start clock input, rfl⟩
  | accepted _ ha hrun ih =>
    obtain ⟨history, hafter, rfl⟩ := ih
    exact ⟨_, hafter.accepted ha hrun, rfl⟩
  | rejected _ hrejected hrun ih =>
    obtain ⟨history, hafter, rfl⟩ := ih
    exact ⟨history, hafter.rejected hrejected hrun, rfl⟩

/-- What holds between runs of programs, whichever moments are known. -/
theorem Reached.steady {bodies : List (List Stmt)} {s : Session} (h : Reached bodies s) :
    Steady bodies (fun _ _ => True) s := by
  obtain ⟨history, hafter, rfl⟩ := h.exists_after
  exact hafter.steady.of_comes fun _ _ _ => trivial

/-- The sessions that runs lead to, with the output and the reports handed over in between. -/
inductive Reachable : Session → Prop
  /-- A session before its first run. -/
  | start (clock : Nat → Nat) (input : List UInt8) : Reachable (.start clock input)
  /-- A run that ended. -/
  | run {s s' : Session} {fuel : Nat} {source : String} {status : Status} (h : Reachable s)
      (hrun : s.run fuel source = some (status, s')) : Reachable s'
  /-- The output handed over. -/
  | takeOutput {s : Session} (h : Reachable s) : Reachable s.takeOutput.2
  /-- The reports handed over. -/
  | takeReports {s : Session} (h : Reachable s) : Reachable s.takeReports.2

theorem Reachable.exists_after {s : Session} (h : Reachable s) : ∃ history, After history s := by
  induction h with
  | start clock input => exact ⟨[], .start clock input⟩
  | @run s s' fuel source status _ hrun ih =>
    obtain ⟨history, hafter⟩ := ih
    by_cases haccepts : ∃ body prepared, s.Accepts source body prepared
    · obtain ⟨body, prepared, ha⟩ := haccepts
      exact ⟨_, hafter.accepted ha hrun⟩
    · have hrejected : ∀ body prepared, ¬ s.Accepts source body prepared :=
        fun body prepared ha => haccepts ⟨body, prepared, ha⟩
      exact ⟨history, hafter.rejected hrejected hrun⟩
  | takeOutput _ ih =>
    obtain ⟨history, hafter⟩ := ih
    exact ⟨history, hafter.takeOutput⟩
  | takeReports _ ih =>
    obtain ⟨history, hafter⟩ := ih
    exact ⟨history, hafter.takeReports⟩

/-- What holds between runs holds of every session that runs lead to. -/
theorem Reachable.steady {s : Session} (h : Reachable s) :
    ∃ bodies, Steady bodies (fun _ _ => True) s := by
  obtain ⟨history, hafter⟩ := h.exists_after
  exact ⟨_, hafter.steady.of_comes fun _ _ _ => trivial⟩

end Session

end Treewalk
