import Treewalk.Proofs.Run.Calls
import Treewalk.Proofs.Session.Storing

/-!
# Returns stay inside of their functions

In a text without a fault no `return` ends a statement of the program itself, so a run of it executes
one statement after the other until all are executed or one fails. A `return` ends the call in whose
body it stands, and the call has its value.

## Main definitions

* `Closure.Gives`: what a call gives by the first `return` of its own that is reached.

## Main results

* `invoke_eq_ok_iff`: what a call gives.
* `Session.returns_stay_inside`: runs of accepted texts, and their calls.
-/

namespace Treewalk

/-- A call gives the value of the first `return` that is reached in its body, or nil if the body ends
without one. -/
def Closure.Gives (lookup : Lookup) (fuel : Nat) (f : Closure) (arguments : List Value) (m : Machine)
    (v : Value) (m' : Machine) : Prop :=
  ∃ m₁, m' = { m₁ with current := m.current } ∧
    (ReturnsAmong lookup fuel f.decl.body (f.entered arguments m) v m₁ ∨
      v = .nil ∧ Executes (execute lookup fuel) f.decl.body (f.entered arguments m) m₁)

/-- How statements in order end with a value. -/
theorem executeAll_returned_iff {lookup : Lookup} {fuel : Nat} {ss : List Stmt} {m m' : Machine}
    {v : Value} : executeAll (execute lookup fuel) ss m = .ok (.returned v) m' ↔
      ReturnsAmong lookup fuel ss m v m' := by
  rw [executeAll_eq_iff (by rintro _ ⟨⟩)]
  simp only [execute_returned_iff, ReturnsAmong]

/-- What a call gives that does not call an initializer. -/
theorem invoke_eq_ok_iff {lookup : Lookup} {fuel : Nat} {f : Closure} (hf : f.isInitializer = false)
    {arguments : List Value} {m m' : Machine} {v : Value} :
    invoke lookup (fuel + 1) f arguments m = .ok v m' ↔ f.Gives lookup fuel arguments m v m' := by
  rw [invoke_succ_apply, hf]
  constructor
  · intro h
    split at h
    · next flow m₁ hbody =>
      cases h
      refine ⟨m₁, rfl, ?_⟩
      cases flow with
      | normal => exact .inr ⟨rfl, executeAll_ok_iff.mp hbody⟩
      | returned v => exact .inl (executeAll_returned_iff.mp hbody)
    · cases h
  · rintro ⟨m₁, rfl, hreturns | ⟨rfl, hexecutes⟩⟩
    · rw [executeAll_returned_iff.mpr hreturns]
      rfl
    · rw [executeAll_ok_iff.mpr hexecutes]
      rfl

/-- The body of an initializer that is declared in a program without broken rules ends normally or
with nil. -/
theorem FunctionDecl.DeclaredIn.initializer {bodies : List (List Stmt)} {decl : FunctionDecl}
    (h : decl.DeclaredIn bodies true) (hlawful : ∀ body ∈ bodies, Lawful body) {lookup : Lookup}
    {fuel : Nat} {m m' : Machine} {flow : Flow}
    (hbody : executeAll (execute lookup fuel) decl.body m = .ok flow m') :
    flow = .normal ∨ flow = .returned .nil := by
  cases flow with
  | normal => exact .inl rfl
  | returned v =>
    obtain ⟨before, s, after, m₁, heq, -, hs⟩ := executeAll_returned_iff.mp hbody
    have hmem : s ∈ decl.body := heq ▸ List.mem_append_right before List.mem_cons_self
    generalize hflag : true = flag at h
    cases h with
    | function h => cases hflag
    | @method above name superclass methods _ h hdecl =>
      obtain ⟨body, hin, hclass⟩ := h
      have hroutine := hclass.child (List.mem_append_right _ (List.mem_map_of_mem hdecl))
      have hstmt := hroutine.child (List.mem_map_of_mem hmem)
      obtain ⟨d, isMethod, hinnermost, hnil⟩ := hs.innermostRoutine (hlawful body hin) hstmt
      cases hinnermost
      exact .inr (congrArg Flow.returned (hnil rfl (of_decide_eq_true hflag.symm)))

namespace Session

variable {history : List Execution} {s s' prepared : Session} {source : String}
  {body : List Stmt} {fuel : Nat}

/-- After any history an accepted program and those executed before break no rule. -/
theorem After.lawful (h : After history s) (ha : s.Accepts source body prepared) :
    ∀ b ∈ body :: history.map (·.body), Lawful b := by
  intro b hb
  have hresolved := (h.steady.accept ha).resolved b hb
  have hclean : Clean b := clean_iff.mp (Finding.errors_eq_nil_iff.mpr hresolved.clean)
  exact Clean.lawful hclean

/-- How a run of an accepted text ends. -/
theorem Accepts.run_eq_executeAll (ha : s.Accepts source body prepared) (fuel : Nat) :
    s.run fuel source =
      match executeAll (Treewalk.execute .resolved fuel) body prepared.machine with
      | .ok _ m => some (.ok, { prepared with machine := m })
      | .error (.raised e) m =>
        some (.runtimeError, { prepared with machine := m }.report [.runtime e])
      | .error .outOfFuel _ => none := by
  rw [ha.run_eq, Session.execute, perform, interpret, Run.bind_apply]
  rcases executeAll (Treewalk.execute .resolved fuel) body prepared.machine with
    ⟨flow, m⟩ | ⟨_ | _, m⟩ <;> rfl

/-- A statement of a program without broken rules that ends does not return. -/
theorem normal_of_lawful (h : Lawful body) {stmt : Stmt} (hstmt : stmt ∈ body) {lookup : Lookup}
    {m m' : Machine} {flow : Flow} (hrun : Treewalk.execute lookup fuel stmt m = .ok flow m') :
    flow = .normal := by
  cases flow with
  | normal => rfl
  | returned v =>
    obtain ⟨decl, isMethod, hinnermost, -⟩ :=
      (execute_returned_iff.mp hrun).innermostRoutine h (.statement hstmt)
    cases hinnermost

/-- A `return` never escapes its function. After any history, a statement of an accepted text that
ends does so normally. So a run of the text that ends has executed all statements, and reports
nothing, or a fault of one of them has stopped it, and it reports that fault. The calls of the run are
calls of functions declared in the programs: the body of an initializer ends normally or with nil, and
any other call gives the value of the first `return` of its own that is reached, or nil if none is. -/
theorem returns_stay_inside (hs : After history s) (ha : s.Accepts source body prepared) :
    (∀ stmt ∈ body, ∀ k m flow m', Treewalk.execute .resolved k stmt m = .ok flow m' →
      flow = .normal) ∧
    (∀ status s', s.run fuel source = some (status, s') →
      (status = .ok ∧ s'.diagnostics.reports = [] ∧
        Executes (Treewalk.execute .resolved fuel) body prepared.machine s'.machine) ∨
      (status = .runtimeError ∧ ∃ before stmt after m e, body = before ++ stmt :: after ∧
        Executes (Treewalk.execute .resolved fuel) before prepared.machine m ∧
        Treewalk.execute .resolved fuel stmt m = .error (.raised e) s'.machine ∧
        s'.diagnostics.reports = [.runtime e])) ∧
    ∀ f arguments m, Calls fuel body prepared.machine f arguments m →
      f.decl.DeclaredIn (body :: history.map (·.body)) f.isInitializer ∧
      (f.isInitializer = true → ∀ k flow m', executeAll (Treewalk.execute .resolved k) f.decl.body
        (f.entered arguments m) = .ok flow m' → flow = .normal ∨ flow = .returned .nil) ∧
      (f.isInitializer = false → ∀ k v m', invoke .resolved (k + 1) f arguments m = .ok v m' ↔
        f.Gives .resolved k arguments m v m') := by
  have hlawful := hs.lawful ha
  have hbody := hlawful body List.mem_cons_self
  refine ⟨fun stmt hstmt k m flow m' => normal_of_lawful hbody hstmt, fun status s' hrun => ?_,
    fun f arguments m hcalls => ?_⟩
  · rw [ha.run_eq_executeAll] at hrun
    split at hrun
    · next flow m hall =>
      cases hrun
      refine .inl ⟨rfl, by rw [ha.diagnostics_eq]; rfl, executeAll_ok_iff.mp (hall.trans ?_)⟩
      cases flow with
      | normal => rfl
      | returned v =>
        obtain ⟨before, stmt, after, m₁, rfl, -, hstmt⟩ := executeAll_returned_iff.mp hall
        have hmem : stmt ∈ before ++ stmt :: after :=
          List.mem_append_right before List.mem_cons_self
        cases normal_of_lawful hbody hmem (execute_returned_iff.mpr hstmt)
    · next e m hall =>
      cases hrun
      refine .inr ?_
      obtain ⟨before, stmt, after, m₁, heq, hbefore, hstmt⟩ :=
        (executeAll_eq_iff (by rintro _ ⟨⟩)).mp hall
      refine ⟨rfl, before, stmt, after, m₁, e, heq, hbefore, hstmt, ?_⟩
      rw [report, Diagnostics.reports_reportAll, ha.diagnostics_eq]
      rfl
    · cases hrun
  · have hstocked := hcalls.stocked List.mem_cons_self (ha.stocks hs)
    refine ⟨hstocked, fun hf k flow m' hbody => ?_, fun hf k v m' => invoke_eq_ok_iff hf⟩
    have hdeclared : f.decl.DeclaredIn (body :: history.map (·.body)) f.isInitializer := hstocked
    rw [hf] at hdeclared
    exact hdeclared.initializer hlawful hbody

/-- A class whose initializer returns early, and a call of it. -/
def initializingText : String :=
  "class A \x7b init() \x7b return; \x7d \x7d A();"

/-- The program of `initializingText`. -/
def initializing : List Stmt :=
  [.class ⟨"A", 1⟩ none [⟨⟨"init", 1⟩, [], [.return 1 none]⟩],
    .expression (.call (.variable 0 ⟨"A", 1⟩) 1 [])]

/-- The session that executes `initializing`. -/
def initializingSession : Session :=
  ⟨{ Machine.start (fun _ => 0) [] with distances := #[] }, 1, .empty⟩

theorem accepts_initializing : (Session.start (fun _ => 0) []).Accepts initializingText
    initializing initializingSession where
  prepared_eq := by cbv
  no_reports := rfl

/-- The initializer that `initializing` calls, bound to the new object. -/
def boundInitializer : Closure :=
  ⟨1, ⟨⟨"init", 1⟩, [], [.return 1 none]⟩, 1, true⟩

/-- The machine on which `initializing` calls it. -/
def initializingMachine : Machine :=
  { Machine.start (fun _ => 0) [] with
    frames := #[⟨none, Native.all.map (fun n => (n.name, some (.native n))) ++
      [("A", some (.cls 0))]⟩, ⟨some 0, [("this", some (.object 0))]⟩]
    classes := #[⟨"A", none, [("init", ⟨0, boundInitializer.decl, 0, true⟩)]⟩]
    objects := #[⟨0, []⟩]
    closures := 2 }

theorem calls_initializing :
    Calls 3 initializing initializingSession.machine boundInitializer [] initializingMachine := by
  refine .of_stops fun stop => ?_
  obtain ⟨m', hstop⟩ : Run.Stops (tapAt boundInitializer [] initializingMachine stop
    boundInitializer []) initializingMachine stop := stops_tapAt
  generalize tapAt boundInitializer [] initializingMachine stop = tap at *
  refine ⟨m', ?_⟩
  cbv
  generalize hcall : tap _ _ _ = outcome
  obtain rfl : outcome = .error stop m' := hcall.symm.trans hstop
  rfl

theorem returns_stay_inside_initializing :
    Calls 3 initializing initializingSession.machine boundInitializer [] initializingMachine ∧
      ∀ k flow m', executeAll (Treewalk.execute .resolved k) boundInitializer.decl.body
        (boundInitializer.entered [] initializingMachine) = .ok flow m' →
          flow = .normal ∨ flow = .returned .nil :=
  ⟨calls_initializing, ((returns_stay_inside (.start (fun _ => 0) [])
    accepts_initializing).2.2 _ _ _ calls_initializing).2.1 rfl⟩

end Session

end Treewalk
