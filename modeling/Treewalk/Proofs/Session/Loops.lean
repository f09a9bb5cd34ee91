import Treewalk.Proofs.Session.Scoping
import Treewalk.Proofs.Trimming.Clauses
import Treewalk.Proofs.Trimming.Start

/-!
# Loops of a session

Whenever a run of an accepted text comes to a loop with clauses, the statement that the loop is read as
does what the loop means. To compare the two, a copy of the loop is run as the loop means it on a machine
on which the distances of the copy are recorded as well. The copy has numbers of its own, as functions
that the statement made earlier on have the numbers of its nodes.

## Main definitions

* `Run.Ends`: outcomes other than that the fuel did not suffice.
* `Loop.copy`, `Loop.copied`: a copy of a loop, and the distances with those of the copy.
* `Trimming.SameOutcome`: outcomes that are the same but for spare frames.
* `Loop.runCopy`: what a loop means on a machine.
* `Loop.Meant`: what is said of a loop where it stands.

## Main results

* `Loop.meant`: loops where a run comes to them.
* `Session.loop_means`: what loops mean.
-/

namespace Treewalk

/-! ### Outcomes -/

/-- An outcome other than that the fuel did not suffice. -/
def Run.Ends {α : Type} (o : EStateM.Result Interrupt Machine α) : Prop :=
  ∀ m, o ≠ .error .outOfFuel m

/-- Neither of two computations may run out of fuel. -/
def Slack.none : Slack :=
  ⟨False, False⟩

/-- Outcomes of two computations that end correspond to each other strictly. -/
theorem Run.TrimOutcome.strict {α β : Type} {S : Slack} {t : Trimming} {W : Seating} {i : Nat}
    {R : Seating → α → β → Prop} {o : EStateM.Result Interrupt Machine α}
    {o' : EStateM.Result Interrupt Machine β} (h : TrimOutcome S t W i R o o')
    (hwhole : S.whole → Ends o) (htrimmed : S.trimmed → Ends o') :
    TrimOutcome .none t W i R o o' := by
  cases h with
  | ok hW ha hm => exact .ok hW ha hm
  | raised hW hm => exact .raised hW hm
  | whole h => exact absurd rfl (hwhole h _)
  | trimmed h => exact absurd rfl (htrimmed h _)

/-- The outcomes of a statement on a machine and of what is done instead with other distances. Both end
normally, or both return values that correspond to each other, or both are the same fault. They leave
machines that are the same but for the frames: those that were there before stand for themselves, and of
those made since then each has a place of its own on the other machine, except for spare frames, which
hold nothing. -/
def Trimming.SameOutcome (t : Trimming) (m : Machine) (o o' : EStateM.Result Interrupt Machine Flow) :
    Prop :=
  Run.TrimOutcome .none t m.frames.seating m.current (Flow.Trimmed t) o o'

/-! ### Copies -/

namespace Loop

/-- A copy of a loop, with numbers from some number on. -/
def copy (l : Loop) (first : Nat) : Loop :=
  l.relocate (.ofId (first + ·))

/-- Distances without and with those of a copy of a loop. -/
def copied (l : Loop) (first : Nat) (σ : Site) (ds : Distances) : Trimming :=
  ⟨ds, ds.recordAll ((l.copy first).findings σ.context σ.scopes)⟩

/-- A copy of a loop is run as the loop means it, on a machine with the distances of the copy. -/
def runCopy (l : Loop) (first : Nat) (σ : Site) (fuel : Nat) (m : Machine) :
    EStateM.Result Interrupt Machine Flow :=
  (l.copy first).run (evaluators .resolved fuel) fuel
    { m with distances := (l.copied first σ m.distances).after }

/-- What is said of a loop that stands at a site and is executed on a machine. -/
structure Meant (l : Loop) (first : Nat) (σ : Site) (m : Machine) : Prop where
  /-- If the tree ends, so does what the loop means, in the same way. -/
  of_tree : ∀ fuel, Run.Ends (execute .resolved fuel l.tree m) →
    (l.copied first σ m.distances).SameOutcome m (execute .resolved fuel l.tree m)
      (l.runCopy first σ fuel m)
  /-- If what the loop means ends, so does the tree, in the same way. -/
  of_run : ∀ fuel, Run.Ends (l.runCopy first σ fuel m) →
    (l.copied first σ m.distances).SameOutcome m (execute .resolved (fuel + 4) l.tree m)
      (l.runCopy first σ fuel m)
  /-- The variable of the loop is all that the scope around the rounds declares. -/
  variable_alone : ∀ name e, l.initializer = some (.variable name e) → ∃ scope : Scope,
    l.scopes σ.scopes = scope :: σ.scopes ∧ ∀ other, scope.declares other ↔ other = name.text
  /-- The condition is bound from the scope around the rounds outward. -/
  condition_bound : ∀ e ∈ l.condition, ∀ x id name, e.Within x → x.occurrence? = some (id, name) →
    m.distances.get? id = (l.scopes σ.scopes).distance? name
  /-- So is the increment, which stands in one block more. -/
  increment_bound : ∀ e ∈ l.increment, ∀ x id name, e.Within x → x.occurrence? = some (id, name) →
    m.distances.get? id = ((l.scopes σ.scopes).distance? name).map (· + 1)
  /-- Nothing of the loop is declared after it. -/
  after_eq : l.tree.after σ.scopes = σ.scopes
  /-- The frames that are looked at after the loop are those before it. -/
  frames_eq : ∀ fuel flow m', execute .resolved fuel l.tree m = .ok flow m' →
    m'.current = m.current ∧ m'.frames.chain m'.current = m.frames.chain m.current

variable {l : Loop} {first : Nat} {σ : Site} {ds : Distances}

/-- The distances of other nodes stay what they are. -/
theorem get?_copied_of_lt {id : Nat} (hid : id < first) :
    (l.copied first σ ds).after.get? id = ds.get? id := by
  refine Distances.get?_recordAll_of_notMem _ _ fun hops hmem => ?_
  rw [copy, findings_relocate] at hmem
  obtain ⟨f, -, hf⟩ := List.mem_map.mp hmem
  cases f with
  | broken => cases hf
  | distance id' hops' =>
    cases hf
    exact absurd hid (Nat.not_lt.mpr (Nat.le_add_right first id'))

/-- The distances of the copy are those of a loop whose parts stand in one scope. -/
theorem get?_copied (hfresh : ∀ id, first ≤ id → ds.get? id = Option.none) (id : Nat) :
    (l.copied first σ ds).after.get? (first + id) =
      (Distances.recordAll #[] (l.findings σ.context σ.scopes)).get? id := by
  have hmoved : Distances.Moved (.ofId (first + ·)) #[] ds :=
    fun id => hfresh _ (Nat.le_add_right first id)
  have hall := hmoved.recordAll (fun _ _ => Nat.add_left_cancel) (l.findings σ.context σ.scopes)
  rw [← findings_relocate] at hall
  exact hall id

end Loop

/-! ### Loops -/

section

variable {W : World} {ds : Distances} {plan : Plan} {m : Machine} {l : Loop} {first : Nat} {σ : Site}

/-- The statement that a loop is read as does what the loop means, with the amounts of fuel that are
allowed. -/
theorem Loop.trims_copy (ho : Ordered W ds plan m) {ids : List Nat}
    (hlies : Lies m.frames plan ids m.current σ.scopes σ.closed)
    (htree : Visit.Resolved m.distances ⟨.stmt l.tree, σ⟩) (hbody : l.body.isDeclaration = false)
    (hbelow : ∀ v, W.seen v → ∀ id ∈ v.ids, id < first)
    (hfresh : ∀ id, first ≤ id → m.distances.get? id = none) {S : Slack} {fuel fuel' : Nat}
    (hfuel : S.AllowsDeeper 4 fuel fuel') :
    Run.TrimOutcome S (l.copied first σ m.distances) m.frames.seating m.current
      (Flow.Trimmed (l.copied first σ m.distances)) (execute .resolved fuel l.tree m)
      (l.runCopy first σ fuel' m) := by
  have htrimmed : l.Trimmed (l.copied first σ m.distances) (.ofId (first + ·)) :=
    Loop.trimmed htree hbody fun id _ => Loop.get?_copied hfresh id
  have hkept : ∀ v, W.seen v → ∀ id ∈ v.ids,
      (l.copied first σ m.distances).after.get? id = m.distances.get? id :=
    fun v hv id hid => Loop.get?_copied_of_lt (hbelow v hv id hid)
  have hmachine := ho.trimmed hlies hkept
  exact Loop.trims_run (fun _ => rfl) htrimmed (hlies.at_seating ho.global ho.root) hfuel _ _ hmachine

/-- A tree that ends normally leaves the frames that are looked at as they are. -/
theorem Trimming.SameOutcome.chain_eq {t : Trimming} {flow : Flow} {m' : Machine}
    {o : EStateM.Result Interrupt Machine Flow} (h : t.SameOutcome m (.ok flow m') o)
    (ho : Ordered W ds plan m) {ids : List Nat}
    (hlies : Lies m.frames plan ids m.current σ.scopes σ.closed) :
    m'.current = m.current ∧ m'.frames.chain m'.current = m.frames.chain m.current := by
  cases h with
  | ok hW _ hm' =>
    refine ⟨hm'.current, ?_⟩
    rw [hm'.current]
    refine hlies.chain_eq ho.global ho.root ?_ fun j hj => hm'.enclosing_eq hW hj
    rw [hm'.frames.size, ← m.frames.length_seating]
    exact hW.length_le
  | trimmed h => exact h.elim

/-- Loops do what they mean where a run comes to them. -/
theorem Loop.meant (ho : Ordered W ds plan m) {ids : List Nat}
    (hlies : Lies m.frames plan ids m.current σ.scopes σ.closed)
    (htree : Visit.Resolved m.distances ⟨.stmt l.tree, σ⟩) (hbody : l.body.isDeclaration = false)
    (hbelow : ∀ v, W.seen v → ∀ id ∈ v.ids, id < first)
    (hfresh : ∀ id, first ≤ id → m.distances.get? id = none) : l.Meant first σ m := by
  have hout {S : Slack} {fuel fuel' : Nat} (hfuel : S.AllowsDeeper 4 fuel fuel') :=
    Loop.trims_copy ho hlies htree hbody hbelow hfresh hfuel
  -- one of the two may run out of fuel, and the other one is known not to
  have hsame (fuel : Nat) (hends : Run.Ends (execute .resolved fuel l.tree m)) :=
    (hout (S := ⟨True, False⟩) (.inl ⟨Nat.le_refl fuel, trivial⟩)).strict (fun _ => hends) False.elim
  refine
    { of_tree := hsame
      of_run := fun fuel hends =>
        (hout (S := ⟨False, True⟩) (.inr ⟨Nat.le_refl _, trivial⟩)).strict False.elim fun _ => hends
      variable_alone := fun _ _ he => Loop.scopes_variable he σ.scopes
      condition_bound := fun _ he _ _ _ hx hname => Loop.distance?_condition htree he hx hname
      increment_bound := fun _ he _ _ _ hx hname => Loop.distance?_increment htree hbody he hx hname
      after_eq := Loop.after_tree htree hbody σ.scopes
      frames_eq := fun fuel flow m' hok => ?_ }
  have hends : Run.Ends (execute .resolved fuel l.tree m) := fun m'' heq => by
    cases hok.symm.trans heq
  have hsame := hsame fuel hends
  rw [hok] at hsame
  exact Trimming.SameOutcome.chain_eq hsame ho hlies

end

namespace Session

variable {history : List Execution} {s prepared : Session} {source : String} {body : List Stmt}
  {fuel : Nat} {stmt : Stmt} {m : Machine}

/-- The nodes of executed programs have numbers below the next one. -/
theorem Steady.lt_nextId {bodies : List (List Stmt)} {comes : Node → Machine → Prop}
    (h : Steady bodies comes s) {v : Visit} (hv : SeenIn bodies v) : ∀ id ∈ v.ids, id < s.nextId := by
  obtain ⟨b, hb, hmet⟩ := hv
  obtain ⟨σ, hvisited, -, -⟩ := hmet.visited
  intro id hid
  have hnode : v.node = (⟨v.node, σ⟩ : Visit).node := rfl
  rw [Visit.ids_eq_of_node_eq hnode] at hid
  exact h.below b hb id (hvisited.ids_subset hid)

/-- Loops mean what their clauses say. After any history, wherever the run of an accepted text comes to a
statement that is read from the word `for` on, with whichever clauses and body, this statement is made of
a loop that is read from the same signs, and it does what the loop means: as long as either of the two
ends, so does the other one, with the same output, the same value or fault, and the same frames but for
the spare ones. The first clause is run once in a frame of its own, which holds the variable that it
declares for the condition, the increment and the body, over all rounds. The condition and the increment
are bound from this frame outward, so never to a name that the body declares; in the tree the increment
is one more frame away, because of the block around it. After the loop the scopes and the frames are
those before it. -/
theorem loop_means (hs : After history s) (ha : s.Accepts source body prepared)
    (hm : ComesTo fuel body prepared.machine (.stmt stmt) m) {dangles : Bool} {ts : List Sign}
    (hreads : stmt.Reads (.statement dangles) (.keyword .forWord :: ts)) :
    ∃ l : Loop, l.Reads dangles ts ∧ stmt = l.tree ∧
      ∃ b ∈ body :: history.map (·.body), ∃ σ, Visited b ⟨.stmt stmt, σ⟩ ∧ m.Matches σ ∧
        l.Meant prepared.nextId σ m := by
  obtain ⟨l, hl, rfl⟩ := hreads.exists_loop
  have hbefore : Steady (history.map (·.body)) (fun _ _ => True) s :=
    hs.steady.of_comes fun _ _ _ => trivial
  have hsteady := hbefore.accept ha
  obtain ⟨⟨plan, σ, ho, hseen, hstands⟩, -⟩ := hbefore.aligned ha (fun _ _ _ => trivial) hm
  obtain ⟨b, hb, hmet⟩ := hseen
  have hvisited := hmet.visited_of_ne nofun
  have hmatches : m.Matches σ :=
    ⟨(hstands.map_localFrames ho).2, hstands.length_localFrames ho,
      fun _ _ _ hk hname => hstands.declares_of_holds ho hk hname⟩
  have htree : Visit.Resolved m.distances ⟨.stmt l.tree, σ⟩ := by
    rw [ho.distances]
    exact (hsteady.resolved b hb).visit hvisited
  have hfresh : ∀ id, prepared.nextId ≤ id → m.distances.get? id = none := by
    rw [ho.distances]
    exact hsteady.fresh
  exact ⟨l, hl, rfl, b, hb, σ, hvisited, hmatches, Loop.meant ho hstands.lies htree
    hl.isDeclaration_eq_false (fun _ hv => hsteady.lt_nextId hv) hfresh⟩

/-- A loop with all clauses that makes one round. -/
def oneRoundText : String :=
  "for (var a = true; a; a = false) print(a);"

/-- The loop of `oneRoundText`. -/
def oneRound : Loop where
  initializer := some (.variable ⟨"a", 1⟩ (some (.literal (.bool true))))
  condition := some (.variable 0 ⟨"a", 1⟩)
  increment := some (.assign 2 ⟨"a", 1⟩ (.literal (.bool false)))
  body := .expression (.call (.variable 3 ⟨"print", 1⟩) 1 [.variable 4 ⟨"a", 1⟩])

/-- The session that executes `oneRoundText`. -/
def oneRoundSession : Session :=
  ⟨{ Machine.start (fun _ => 0) [] with
      distances := #[some 0, none, some 1, none, some 1] }, 5, .empty⟩

theorem accepts_oneRound : (Session.start (fun _ => 0) []).Accepts oneRoundText [oneRound.tree]
    oneRoundSession where
  prepared_eq := by cbv
  no_reports := rfl

theorem comesTo_oneRound :
    ComesTo 16 [oneRound.tree] oneRoundSession.machine (.stmt oneRound.tree) oneRoundSession.machine :=
  .of_stops fun _ => .bind (.bind (.bind stops_stopAt _) _) _

/-- The signs of `oneRoundText` after the word `for`. -/
def oneRoundSigns : List Sign :=
  [.mark .leftParen, .keyword .varWord, .name "a", .mark .equal, .keyword .trueWord, .mark .semicolon,
    .name "a", .mark .semicolon, .name "a", .mark .equal, .keyword .falseWord, .mark .rightParen,
    .name "print", .mark .leftParen, .name "a", .mark .rightParen, .mark .semicolon]

theorem reads_oneRound :
    oneRound.tree.Reads (.statement false) (.keyword .forWord :: oneRoundSigns) := by
  have hlevel {ts : List Sign} {e : Expr} (h : Expr.Reads .call ts e) :
      Expr.Reads (.level .or) ts e :=
    .ofOperand .or (.ofOperand .and (.ofEquality (.ofOperand .equality (.ofOperand .comparison
      (.ofOperand .sum (.ofOperand .product (.ofCall h)))))))
  have ha (id : Nat) : Expr.Reads (.level .or) [.name "a"] (.variable id ⟨"a", 1⟩) :=
    hlevel (.ofPrimary (.variable id ⟨"a", 1⟩))
  have hbool (b : Bool) : Expr.Reads .assignment [(Literal.bool b).sign] (.literal (.bool b)) :=
    .ofOr (hlevel (.ofPrimary (.literal (.bool b))))
  have hprint := Expr.Reads.call 1 [([.name "a"], .variable 4 ⟨"a", 1⟩)]
    (.ofPrimary (.variable 3 ⟨"print", 1⟩)) (by simpa using .ofOr (ha 4)) (by decide)
  exact .loop (.variable ⟨"a", 1⟩ (.some (hbool true))) (.some (.ofOr (ha 0)))
    (.some (.assign 2 (ha 1) (hbool false))) (.expression (.ofOr (hlevel hprint)))

theorem loop_means_oneRound : ∃ (l : Loop) (σ : Site) (m m' : Machine),
    l.Reads false oneRoundSigns ∧ oneRound.tree = l.tree ∧
      Treewalk.execute .resolved 16 oneRound.tree oneRoundSession.machine = .ok .normal m ∧
      l.runCopy 5 σ 16 oneRoundSession.machine = .ok .normal m' ∧
      m.output = "true" ∧ m'.output = "true" := by
  obtain ⟨l, hl, htree, -, -, σ, -, -, hmeant⟩ :=
    loop_means (.start (fun _ => 0) []) accepts_oneRound comesTo_oneRound reads_oneRound
  obtain ⟨m, hrun, houtput⟩ : ∃ m, Treewalk.execute .resolved 16 oneRound.tree
      oneRoundSession.machine = .ok .normal m ∧ m.output = "true" := ⟨_, by cbv, rfl⟩
  rw [htree] at hrun
  have hends : Run.Ends (Treewalk.execute .resolved 16 l.tree oneRoundSession.machine) :=
    fun m'' h => by cases hrun.symm.trans h
  have hsame := hmeant.of_tree 16 hends
  rw [hrun] at hsame
  generalize hcopy : l.runCopy _ _ _ _ = o at hsame
  cases hsame with
  | ok _ hflow hm =>
    cases hflow
    exact ⟨l, σ, m, _, hl, htree, htree ▸ hrun, hcopy, houtput, hm.tables.output.trans houtput⟩
  | trimmed h => exact h.elim

end Session

end Treewalk
