import Treewalk.Proofs.Relocation.Provenance
import Treewalk.Proofs.Run.Returning
import Treewalk.Proofs.Session.Rejection
import Treewalk.Proofs.Syntax.Joining
import Treewalk.Proofs.Token.Joining

/-!
# Texts run in pieces

Two texts that are accepted can be run one after the other, or joined by a line break and run at once.
Joining carries over from stage to stage: the tokens of the joined text are those of the two texts, on
later lines in the second one, its program is the two programs one after the other, its distances are
theirs, and it is executed as they are.

The machines on which the second program is executed are not quite the same. Where the texts are
joined, its distances have been recorded before the first program is executed. But the first program
and all earlier ones have other node numbers, so that this makes no difference.

## Main definitions

* `Session.raisedWithin`: whether the fault that ends a run is raised at a token of its text.
* `Shown.relocate`: what is shown, with reports of faults on other lines.

## Main results

* `Session.programOf_joined`: the program of a joined text.
* `Session.Accepts.join`: a joined text is accepted.
* `Session.run_joined`: running in pieces and running at once.
-/

namespace Treewalk

/-! ### Programs one after the other -/

section Programs

variable {as : List Stmt}

theorem Stmt.findingsAll_append (context : Context) (bs : List Stmt) :
    (Stmt.findingsAll context [] (as ++ bs)).1 =
      (Stmt.findingsAll context [] as).1 ++ (Stmt.findingsAll context [] bs).1 := by
  induction as with
  | nil => rfl
  | cons s as ih =>
    have hnil : (s.findings context []).2 = [] := (s.findings_snd context []).trans s.after_nil
    simp only [List.cons_append, Stmt.findingsAll, hnil, ih, List.append_assoc]

/-- Nothing that a program declares outside of its scopes matters to the next one. -/
theorem programFindings_append (as bs : List Stmt) :
    programFindings (as ++ bs) = programFindings as ++ programFindings bs :=
  Stmt.findingsAll_append .outermost bs

theorem Finding.errors_append (xs ys : List Finding) :
    Finding.errors (xs ++ ys) = Finding.errors xs ++ Finding.errors ys :=
  List.filterMap_append

theorem Distances.recordAll_append (ds : Distances) (xs ys : List Finding) :
    ds.recordAll (xs ++ ys) = (ds.recordAll xs).recordAll ys :=
  List.foldl_append

/-- On which lines the nodes are does not matter to their distances. -/
theorem Distances.get?_recordAll_ofLine (f : Nat → Nat) (ds : Distances) (findings : List Finding)
    (id : Nat) : (ds.recordAll (findings.map (Finding.relocate (.ofLine f)))).get? id =
      (ds.recordAll findings).get? id := by
  have hstays : Distances.Moved (.ofLine f) ds ds := fun _ => rfl
  exact hstays.recordAll (fun _ _ h => h) findings id

theorem Site.mem_along_append {σ : Site} {v : Visit} (h : v ∈ σ.along as) (bs : List Stmt) :
    v ∈ σ.along (as ++ bs) := by
  induction as generalizing σ with
  | nil => cases h
  | cons s as ih =>
    rcases List.mem_cons.mp h with rfl | h
    · exact List.mem_cons_self
    · exact List.mem_cons_of_mem _ (ih h)

/-- Statements that are cut short do not lead to others. -/
theorem executeAll_append_error {execute : Stmt → Run Flow} {m m' : Machine} {e : Interrupt}
    (h : executeAll execute as m = .error e m') (bs : List Stmt) :
    executeAll execute (as ++ bs) m = .error e m' := by
  induction as generalizing m with
  | nil => cases h
  | cons s as ih =>
    rw [List.cons_append, executeAll, Run.bind_apply]
    rw [executeAll, Run.bind_apply] at h
    cases hs : execute s m with
    | error e m'' =>
      rw [hs] at h
      exact h
    | ok flow m'' =>
      rw [hs] at h
      cases flow with
      | normal => exact ih h
      | returned v => cases h

variable {fuel : Nat} {m₀ m m' : Machine} {e : Interrupt} {node : Node}

theorem interpretProbed_append_error {probe : Node → Run Unit} {lookup : Lookup}
    (h : interpretProbed probe lookup fuel as m = .error e m') (bs : List Stmt) :
    interpretProbed probe lookup fuel (as ++ bs) m = .error e m' := by
  rw [interpretProbed, Run.bind_apply] at h ⊢
  cases hall : executeAll (probed probe lookup fuel).execute as m with
  | ok flow m'' =>
    rw [hall] at h
    cases h
  | error e' m'' =>
    rw [hall] at h
    rw [executeAll_append_error hall bs]
    exact h

theorem interpret_append_error {lookup : Lookup}
    (h : interpret lookup fuel as m = .error e m') (bs : List Stmt) :
    interpret lookup fuel (as ++ bs) m = .error e m' := by
  have hprobed (body : List Stmt) : interpret lookup fuel body =
      interpretProbed (fun _ => pure ()) lookup fuel body := by
    rw [interpretProbed, probed_pure]
    rfl
  rw [hprobed] at h ⊢
  exact interpretProbed_append_error h bs

/-- After a program that is cut short a run comes to no node that it does not come to within that
program. -/
theorem ComesTo.of_append {bs : List Stmt} (h : interpret .resolved fuel as m₀ = .error e m')
    (hcomes : ComesTo fuel (as ++ bs) m₀ node m) : ComesTo fuel as m₀ node m := by
  obtain ⟨stop, hstop⟩ := hcomes
  refine ⟨stop, fun hsame => hstop ?_⟩
  rw [interpretProbed_append_error (hsame.trans h) bs, interpret_append_error h bs]

end Programs

namespace Session

/-! ### Reading a joined text -/

section Reading

variable {s t : Session} {a b : String} {bodyA bodyB : List Stmt} {preparedA preparedB : Session}

theorem Accepts.prepared_snd {source : String} {body : List Stmt} {prepared : Session}
    (h : s.Accepts source body prepared) : (s.prepare source).2 = prepared := by
  rw [h.prepared_eq]

theorem Accepts.nextId_eq {source : String} {body : List Stmt} {prepared : Session}
    (h : s.Accepts source body prepared) : prepared.nextId = (s.programOf source).nextId := by
  rw [← h.prepared_snd]
  rfl

theorem Accepts.distances_eq {source : String} {body : List Stmt} {prepared : Session}
    (h : s.Accepts source body prepared) :
    prepared.machine.distances = s.machine.distances.recordAll (programFindings body) := by
  rw [← h.prepared_snd, h.body_eq]
  rfl

/-- Nothing is wrong with the tokens, the statements and the scopes of an accepted text. -/
theorem Accepts.faultless {source : String} {body : List Stmt} {prepared : Session}
    (h : s.Accepts source body prepared) : Token.errorsOf (Token.scan source) = [] ∧
      (s.programOf source).errors = [] ∧ Finding.errors (programFindings body) = [] := by
  obtain ⟨-, hread, hscope⟩ := accepts_iff.mp h
  obtain ⟨htokens, hstatements⟩ := List.append_eq_nil_iff.mp hread
  rw [← h.body_eq] at hscope
  exact ⟨List.map_eq_nil_iff.mp htokens, List.map_eq_nil_iff.mp hstatements,
    List.map_eq_nil_iff.mp hscope⟩

/-- The program of a joined text: the second program has the numbers that it is given after the first
one, and later lines. -/
theorem programOf_joined (ha : s.Accepts a bodyA preparedA) (hb : t.Accepts b bodyB preparedB)
    (hid : t.nextId = preparedA.nextId) : s.programOf (joined a b) =
      ⟨bodyA ++ bodyB.map (Stmt.relocate (.after a)), [], preparedB.nextId⟩ := by
  obtain ⟨htokens, herrors, -⟩ := ha.faultless
  obtain ⟨-, herrors', -⟩ := hb.faultless
  have hlater := @Program.ofTokens_relocate (.after a) t.nextId t.nextId (fun _ => rfl)
    (Token.tokensOf (Token.scan b))
  rw [ha.nextId_eq] at hid
  have herrorsLater : (Program.ofTokens (s.programOf a).nextId
      ((Token.tokensOf (Token.scan b)).map (Token.relocate (.after a)))).errors = [] := by
    rw [← hid, hlater.errors]
    exact List.map_eq_nil_iff.mpr herrors'
  have hall := @Token.tokensBeforeEnd_joined a b htokens
  rw [← tokensBeforeEnd_relocate] at hall
  have hprogram := Program.ofTokens_append hall (Program.ofTokens_sound herrorsLater).noElse (.inl herrors)
  refine hprogram.trans ?_
  change Program.mk (_ ++ (Program.ofTokens (s.programOf a).nextId _).body)
    ((s.programOf a).errors ++ (Program.ofTokens (s.programOf a).nextId _).errors)
    (Program.ofTokens (s.programOf a).nextId _).nextId = _
  rw [herrors, herrorsLater]
  rw [← hid, hlater.body, ha.body_eq, hb.body_eq, hb.nextId_eq]
  exact congrArg (Program.mk _ _) (hlater.id 0).symm

/-- A joined text is accepted if both texts are. -/
theorem Accepts.join (ha : s.Accepts a bodyA preparedA) (hb : t.Accepts b bodyB preparedB)
    (hid : t.nextId = preparedA.nextId) :
    s.Accepts (joined a b) (bodyA ++ bodyB.map (Stmt.relocate (.after a)))
      (s.prepare (joined a b)).2 := by
  have hprogram := programOf_joined ha hb hid
  obtain ⟨htokens, -, hscopes⟩ := ha.faultless
  obtain ⟨htokens', -, hscopes'⟩ := hb.faultless
  refine accepts_iff.mpr ⟨?_, ?_, ?_⟩
  · rw [prepare_eq, hprogram]
  · unfold Session.programOf at hprogram
    simp only [Session.readReports, hprogram, Token.errorsOf_joined htokens htokens',
      List.map_nil, List.append_nil]
  · rw [hprogram, scopeReports, programFindings_append, programFindings_relocate,
      Finding.errors_append, Finding.errors_relocate, hscopes, hscopes']
    rfl

end Reading

/-! ### Executing a joined program -/

section Executing

variable {lookup : Lookup} {fuel : Nat} {body : List Stmt} {status : Status}

theorem execute_ok {s u : Session} (h : s.execute lookup fuel body = some (.ok, u)) :
    interpret lookup fuel body s.machine = .ok () u.machine ∧ u = { s with machine := u.machine } := by
  rw [execute_eq] at h
  cases hm : interpret lookup fuel body s.machine with
  | ok a m =>
    rw [hm] at h
    cases h
    exact ⟨rfl, rfl⟩
  | error e m =>
    rw [hm] at h
    cases e <;> cases h

theorem execute_runtimeError {s u : Session}
    (h : s.execute lookup fuel body = some (.runtimeError, u)) :
    ∃ e, interpret lookup fuel body s.machine = .error (.raised e) u.machine := by
  rw [execute_eq] at h
  cases hm : interpret lookup fuel body s.machine with
  | ok a m =>
    rw [hm] at h
    cases h
  | error e m =>
    rw [hm] at h
    cases e with
    | outOfFuel => cases h
    | raised e =>
      cases h
      exact ⟨e, rfl⟩

/-- A program after one that ends normally. -/
theorem execute_append {s u : Session} {as : List Stmt}
    (has : ∀ error, .broken error ∉ programFindings as)
    (h : s.execute lookup fuel as = some (.ok, u)) (bs : List Stmt) :
    s.execute lookup fuel (as ++ bs) = u.execute lookup fuel bs := by
  obtain ⟨hm, hu⟩ := execute_ok h
  rw [execute_eq, execute_eq, interpret_append has, Run.bind_apply, hm]
  dsimp only
  generalize interpret lookup fuel bs u.machine = o
  rw [hu]
  cases o with
  | ok a m => rfl
  | error e m => cases e <;> rfl

variable {bodies : List (List Stmt)} {s t : Session} {a b : String} {bodyA bodyB : List Stmt}
  {preparedA preparedB : Session} (hs : Steady bodies (fun _ _ => True) s)
  (ha : s.Accepts a bodyA preparedA)
  (hb : t.Accepts b bodyB preparedB) (hrun : s.run fuel a = some (status, t))

include ha hrun in
theorem nextId_of_run : t.nextId = preparedA.nextId := by
  rw [ha.run_eq] at hrun
  exact (Steady.machine_of_execute hrun).1

include hs ha hrun in
theorem distances_of_run : t.machine.distances = preparedA.machine.distances := by
  rw [ha.run_eq] at hrun
  obtain ⟨plan, plan', hf⟩ := (hs.accept ha).follows (Steady.seenIn_along List.mem_cons_self)
    (fun _ _ _ => trivial) (Steady.machine_of_execute hrun).2
  exact hf.ordered.distances

include hs ha hb hrun

/-- The distances of a joined text are those that the two texts have in the end. -/
theorem get?_prepare_joined (id : Nat) :
    (s.prepare (joined a b)).2.machine.distances.get? id =
      preparedB.machine.distances.get? id := by
  rw [(ha.join hb (nextId_of_run ha hrun)).distances_eq, programFindings_append,
    Distances.recordAll_append, ← ha.distances_eq, programFindings_relocate,
    ← distances_of_run hs ha hrun, hb.distances_eq]
  exact Distances.get?_recordAll_ofLine _ _ _ id

/-- The numbers of the second program are left out. -/
theorem distances_moved_joined : Distances.Moved
    (.skip preparedA.nextId (preparedB.nextId - preparedA.nextId)) preparedA.machine.distances
    preparedB.machine.distances := by
  have hid := nextId_of_run ha hrun
  have hnumbered := numbered_programOf t b
  rw [← hb.nextId_eq, hid] at hnumbered
  have hnew (id : Nat) (h : id < preparedA.nextId ∨ preparedB.nextId ≤ id) :
      preparedB.machine.distances.get? id = preparedA.machine.distances.get? id := by
    rw [hb.distances_eq, distances_of_run hs ha hrun]
    refine Distances.get?_recordAll_of_notMem _ _ fun hops hmem => ?_
    rw [hb.body_eq] at hmem
    have := hnumbered.mem id (mem_idsAll_of_mem_programFindings hmem)
    omega
  have hfresh := (hs.accept ha).fresh
  have hle := hnumbered.le
  intro id
  by_cases hlt : id < preparedA.nextId
  · rw [Relocation.skip_of_lt hlt, hnew id (.inl hlt)]
  · have hge := Nat.le_of_not_lt hlt
    rw [Relocation.skip_of_le hge, hnew _ (.inr (by omega)), hfresh _ (by omega), hfresh id hge]

/-- The session that executes a joined program is the one that executes the first program, but for
numbers that are left out. -/
theorem moved_joined : Moved (.skip preparedA.nextId (preparedB.nextId - preparedA.nextId))
    preparedA (s.prepare (joined a b)).2 := by
  have hid := nextId_of_run ha hrun
  have hle := (numbered_programOf t b).le
  rw [← hb.nextId_eq, hid] at hle
  have hnext := (ha.join hb hid).nextId_eq
  rw [programOf_joined ha hb hid] at hnext
  have hmachine : (s.prepare (joined a b)).2.machine = { preparedA.machine with
      distances := (s.prepare (joined a b)).2.machine.distances } := by
    rw [← ha.prepared_snd]
    rfl
  refine ⟨?_, fun k => ?_⟩
  · rw [hmachine]
    refine (hs.accept ha).machine_moved Relocation.skip_keepsLines
      (fun id => Relocation.skip_of_lt) fun id => ?_
    rw [get?_prepare_joined hs ha hb hrun]
    exact distances_moved_joined hs ha hb hrun id
  · rw [Relocation.skip_of_le (Nat.le_add_right _ _), hnext]
    dsimp only
    omega

/-- The first program does in a joined text what it does alone. -/
theorem execute_joined {fuel' : Nat} (hle : fuel ≤ fuel') : ∃ u,
    (s.prepare (joined a b)).2.execute .resolved fuel' bodyA = some (status, u) ∧
      Ends (.skip preparedA.nextId (preparedB.nextId - preparedA.nextId)) (status, t)
        (status, u) := by
  have hmoved := moved_joined hs ha hb hrun
  have hjoined := ha.join hb (nextId_of_run ha hrun)
  rw [ha.run_eq] at hrun
  have hdiagnostics : (s.prepare (joined a b)).2.diagnostics = preparedA.diagnostics.relocate
      (.skip preparedA.nextId (preparedB.nextId - preparedA.nextId)) := by
    rw [Diagnostics.relocate_eq_self Relocation.skip_keepsLines, ha.diagnostics_eq,
      hjoined.diagnostics_eq]
  obtain ⟨⟨status', u⟩, hexecute, hends⟩ := hmoved.execute hdiagnostics hle hrun
  obtain rfl : status' = status := hends.status
  have hbody : bodyA.map (Stmt.relocate
      (.skip preparedA.nextId (preparedB.nextId - preparedA.nextId))) = bodyA := by
    rw [← Stmt.relocateAll_eq_map]
    refine Stmt.relocateAll_eq_self Relocation.skip_keepsLines bodyA fun id hid => ?_
    exact Relocation.skip_of_lt ((hs.accept ha).below bodyA List.mem_cons_self id hid)
  rw [hbody] at hexecute
  exact ⟨u, hexecute, hends⟩

/-- After the first program the machine is, in a joined text, the one on which the second program is
executed. -/
theorem machine_joined {f : Nat → Nat} {u : Session} {fuel' : Nat}
    (hexecute : (s.prepare (joined a b)).2.execute .resolved fuel' bodyA = some (status, u))
    (hmoved : Machine.Moved (.skip preparedA.nextId (preparedB.nextId - preparedA.nextId))
      t.machine u.machine) :
    Machine.Moved (.unmark f) (preparedB.machine.relocate .earlier) u.machine := by
  have hid := nextId_of_run ha hrun
  have hjoined := ha.join hb hid
  have hsteady := hs.run_accepted ha (fun _ _ _ => trivial) hrun
  have hmachine : preparedB.machine =
      { t.machine with distances := preparedB.machine.distances } := by
    rw [← hb.prepared_snd]
    rfl
  have hfirst : Machine.Moved (.skip preparedA.nextId (preparedB.nextId - preparedA.nextId))
      t.machine preparedB.machine := by
    rw [hmachine]
    refine hsteady.machine_moved Relocation.skip_keepsLines
      (fun id hlt => Relocation.skip_of_lt (hid ▸ hlt)) ?_
    rw [distances_of_run hs ha hrun]
    exact distances_moved_joined hs ha hb hrun
  refine (preparedB.machine.moved_unmark f).replace hfirst hmoved fun id => ?_
  -- executing the first program leaves the distances of both programs as they are
  obtain ⟨plan, plan', hf⟩ := (hs.accept hjoined).follows
    (fun v hv => Steady.seenIn_along List.mem_cons_self v (Site.mem_along_append hv _))
    (fun _ _ _ => trivial) (Steady.machine_of_execute hexecute).2
  rw [hf.ordered.distances, get?_prepare_joined hs ha hb hrun]

end Executing

/-! ### Running in pieces -/

/-- Whether the fault that ends the run of a text is raised at a token of that text, and not at one of
a text that was run before. -/
def raisedWithin (s : Session) (fuel : Nat) (source : String) : Bool :=
  Treewalk.raisedWithin fuel (s.prepare source).1 (s.prepare source).2.machine

/-- What is shown, with reports of faults on other lines. -/
def Shown.relocate (r : Relocation) (x : Shown) : Shown :=
  { x with diagnostics := x.diagnostics.relocate r }

section Pieces

variable {s t u : Session} {a b : String} {bodyA bodyB : List Stmt} {preparedA preparedB : Session}
  {fuel : Nat} {status : Status} {f : Nat → Nat}

theorem Shown.relocate_ite (within : Bool) (x : Shown) :
    x.relocate (.ofLine (if within then f else id)) =
      if within then x.relocate (.ofLine f) else x := by
  cases within with
  | true => rfl
  | false =>
    have hstays : x.diagnostics.relocate (.ofLine id) = x.diagnostics :=
      Diagnostics.relocate_eq_self (fun _ => rfl) _
    simp only [relocate, hstays, Bool.false_eq_true, if_false]

theorem shown_eq_relocate {r : Relocation} {p q : Status × Session} (hstatus : q.1 = p.1)
    (hmachine : Machine.MovedInPart f p.2.machine q.2.machine)
    (hdiagnostics : q.2.diagnostics = p.2.diagnostics.relocate r) :
    shown q = (shown p).relocate r := by
  simp only [shown, Shown.relocate, hstatus, hmachine.output, hmachine.input, hmachine.readings,
    hdiagnostics]

/-- A program that is executed on later lines shows the same, with the report of a fault on a later
line if it is raised within the program. -/
theorem shown_execute_later {body : List Stmt} (hs : s.diagnostics = .empty)
    (hu : u.diagnostics = .empty)
    (hm : Machine.Moved (.unmark f) (s.machine.relocate .earlier) u.machine) :
    (u.execute .resolved fuel (body.map (Stmt.relocate (.ofLine f)))).map shown =
      (s.execute .resolved fuel body).map fun p =>
        if Treewalk.raisedWithin fuel body s.machine then (shown p).relocate (.ofLine f)
        else shown p := by
  have hout := @interpret_later f fuel body _ _ hm
  simp only [execute_eq, ← Shown.relocate_ite]
  generalize Treewalk.raisedWithin fuel body s.machine = within,
    interpret .resolved fuel body s.machine = o,
    interpret .resolved fuel (body.map (Stmt.relocate (.ofLine f))) u.machine = o' at hout
  cases hout with
  | ok _ hmachine =>
    refine congrArg some (shown_eq_relocate rfl hmachine ?_)
    dsimp only
    rw [hs, hu]
    rfl
  | @error e e' _ _ he hmachine =>
    obtain rfl : e' = e.relocate _ := he
    cases e with
    | outOfFuel => rfl
    | raised e =>
      refine congrArg some (shown_eq_relocate rfl hmachine ?_)
      dsimp only [report]
      rw [hs, hu]
      rfl
  | free he => exact he.elim

/-- Where a joined text is run whose first program ends normally, the second program is executed as it
is when the texts are run one after the other. -/
theorem run_joined_ok {bodies : List (List Stmt)} (hs : Steady bodies (fun _ _ => True) s)
    (ha : s.Accepts a bodyA preparedA) (hb : s.Accepts b bodyB preparedB)
    (hrun : s.run fuel a = some (.ok, t)) {fuel' : Nat} (hle : fuel ≤ fuel') :
    (s.run fuel' (joined a b)).map shown = (t.run fuel' b).map fun p =>
      if t.raisedWithin fuel' b then (shown p).relocate (.after a) else shown p := by
  have hb := hb.elsewhere t
  have hjoined := ha.join hb (nextId_of_run ha hrun)
  obtain ⟨u, hexecute, hends⟩ := execute_joined hs ha hb hrun hle
  have hmachine : Machine.Moved (.unmark (· + (a.toList.count '\n' + 1)))
      ((t.prepare b).2.machine.relocate .earlier) u.machine :=
    machine_joined hs ha hb hrun hexecute hends.session.machine
  have hdiagnostics := (congrArg diagnostics (execute_ok hexecute).2).trans hjoined.diagnostics_eq
  rw [hjoined.run_eq, hb.run_eq, execute_append ha.clean hexecute]
  exact shown_execute_later hb.diagnostics_eq hdiagnostics hmachine

/-- Where a joined text is run whose first program ends with a fault, nothing else is executed. -/
theorem run_joined_runtimeError {bodies : List (List Stmt)} (hs : Steady bodies (fun _ _ => True) s)
    (ha : s.Accepts a bodyA preparedA) (hb : s.Accepts b bodyB preparedB)
    (hrun : s.run fuel a = some (.runtimeError, t)) {fuel' : Nat} (hle : fuel ≤ fuel') :
    (s.run fuel' (joined a b)).map shown = some (shown (.runtimeError, t)) ∧
      ∀ node m, ComesTo fuel' (s.prepare (joined a b)).1 (s.prepare (joined a b)).2.machine node m →
        ComesTo fuel' bodyA (s.prepare (joined a b)).2.machine node m := by
  have hb := hb.elsewhere t
  have hjoined := ha.join hb (nextId_of_run ha hrun)
  obtain ⟨u, hexecute, hends⟩ := execute_joined hs ha hb hrun hle
  obtain ⟨e, hfails⟩ := execute_runtimeError hexecute
  rw [← hends.shown_eq Relocation.skip_keepsLines, hjoined.prepared_eq, hjoined.run_eq]
  refine ⟨?_, fun node m hcomes => hcomes.of_append hfails⟩
  rw [execute_eq, interpret_append_error hfails, ← hfails, ← execute_eq, hexecute]
  rfl

/-- Running in pieces equals running at once. If the first text ends normally, the joined text shows
what the second text shows after the first one, with the report of a fault that is raised at a token of
the second text on the line where that token is in the joined text. If the first text ends with a fault,
the joined text shows the same, and executes nothing else. -/
theorem run_joined (hs : Reachable s) (ha : s.Accepts a bodyA preparedA)
    (hb : s.Accepts b bodyB preparedB) (hrun : s.run fuel a = some (status, t)) :
    (status = .ok → t.diagnostics = .empty ∧ ∀ fuel', fuel ≤ fuel' →
      (s.run fuel' (joined a b)).map shown = (t.run fuel' b).map fun p =>
        if t.raisedWithin fuel' b then (shown p).relocate (.after a) else shown p) ∧
    (status = .runtimeError → ∀ fuel', fuel ≤ fuel' →
      (s.run fuel' (joined a b)).map shown = some (shown (status, t)) ∧
      ∀ node m, ComesTo fuel' (s.prepare (joined a b)).1 (s.prepare (joined a b)).2.machine node m →
        ComesTo fuel' bodyA (s.prepare (joined a b)).2.machine node m) := by
  obtain ⟨bodies, hsteady⟩ := hs.steady
  constructor
  · rintro rfl
    have hexecute := hrun
    rw [ha.run_eq] at hexecute
    refine ⟨(congrArg diagnostics (execute_ok hexecute).2).trans ha.diagnostics_eq,
      fun fuel' hle => ?_⟩
    exact run_joined_ok hsteady ha hb hrun hle
  · rintro rfl fuel' hle
    exact run_joined_runtimeError hsteady ha hb hrun hle

/-- A call of something that cannot be called. -/
def callingText : String :=
  "nil();"

/-- The fault of the second text is reported on the second line when the texts are joined. -/
theorem run_joined_calling : ∃ u,
    (Session.start (fun _ => 0) []).run 3 "nil;" = some (.ok, u) ∧
      u.raisedWithin 3 callingText = true ∧
      ((Session.start (fun _ => 0) []).run 3 (joined "nil;" callingText)).map shown =
        (u.run 3 callingText).map fun p =>
          if u.raisedWithin 3 callingText then (shown p).relocate (.after "nil;") else shown p := by
  have hfirst : (Session.start (fun _ => 0) []).Accepts "nil;"
      ((Session.start (fun _ => 0) []).prepare "nil;").1
      ((Session.start (fun _ => 0) []).prepare "nil;").2 := ⟨rfl, by cbv⟩
  have hsecond : (Session.start (fun _ => 0) []).Accepts callingText
      ((Session.start (fun _ => 0) []).prepare callingText).1
      ((Session.start (fun _ => 0) []).prepare callingText).2 := ⟨rfl, by cbv⟩
  have hrun : (Session.start (fun _ => 0) []).run 3 "nil;" =
      some (.ok, ((Session.start (fun _ => 0) []).prepare "nil;").2) := by
    cbv
  have hjoined := (run_joined (.start _ _) hfirst hsecond hrun).1 rfl
  exact ⟨_, hrun, by cbv, hjoined.2 3 (Nat.le_refl 3)⟩

end Pieces

end Session

end Treewalk
