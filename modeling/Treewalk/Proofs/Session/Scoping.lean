import Treewalk.Proofs.Session.History

/-!
# Scopes at run time

What the walk over a program finds out about scopes is right for every run: whenever a program that
was accepted is executed, and whenever one of its functions is called later on, the frames outward
from the current one stand for the scopes that the walk had open at the node.

So the distance of an occurrence leads to the frame of its binding and never past the local frames.

## Main definitions

* `Machine.Matches`: the frames of a machine and the scopes of a site.

## Main results

* `Session.frames_match_scopes`: frames and scopes at every moment of every run.
-/

namespace Treewalk

/-- The local frames of a machine stand for the open scopes of a site one by one, the current frame
for the innermost scope, and hold only names that these scopes declare in the end. -/
structure Machine.Matches (m : Machine) (σ : Site) : Prop where
  chain : m.frames.chain m.current = m.localFrames ++ [globalFrame]
  length : m.localFrames.length = σ.scopes.length
  declares : ∀ (k i : Nat) (name : String), m.localFrames[k]? = some i → m.frames.holds i name →
    ∃ scope : Scope, σ.closed[k]? = some scope ∧ scope.declares name

namespace Session

variable {bodies : List (List Stmt)} {s prepared : Session} {source : String} {body : List Stmt}
  {fuel : Nat} {node : Node} {m : Machine}

/-- Programs that were executed have no number in common. -/
theorem Steady.body_unique {comes : Node → Machine → Prop} (h : Steady bodies comes s)
    {b b' : List Stmt} (hb : b ∈ bodies) (hb' : b' ∈ bodies) {id : Nat}
    (hid : id ∈ Stmt.idsAll b) (hid' : id ∈ Stmt.idsAll b') : b = b' := by
  by_contra hne
  have : Std.Symm fun b b' : List Stmt => List.Disjoint (Stmt.idsAll b) (Stmt.idsAll b') :=
    ⟨fun _ _ h id hid hid' => h hid' hid⟩
  exact h.disjoint.forall hb hb' hne hid hid'

/-- Node numbers tell apart the visits of all programs that were executed. -/
theorem Steady.unique {comes : Node → Machine → Prop} (h : Steady bodies comes s)
    {b b' : List Stmt} (hb : b ∈ bodies) (hb' : b' ∈ bodies) {v w : Visit}
    (hv : Visited b v) (hw : Visited b' w) (hnode : v.node = w.node)
    (hids : v.ids ≠ []) : b = b' ∧ v = w := by
  obtain ⟨id, hid⟩ := List.exists_mem_of_ne_nil v.ids hids
  have hid' : id ∈ w.ids := Visit.ids_eq_of_node_eq hnode ▸ hid
  obtain rfl := h.body_unique hb hb' (hv.ids_subset hid) (hw.ids_subset hid')
  exact ⟨rfl, hv.unique (h.resolved b hb).recorded.nodup hw hnode hids⟩

/-- At every moment of a run of an accepted text the machine is aligned with a visit of an executed
program, and its frames are kept in those that the run leaves. -/
theorem Steady.aligned {comes : Node → Machine → Prop} (h : Steady bodies comes s)
    (ha : s.Accepts source body prepared)
    (hcomes : ∀ node m, ComesTo fuel body prepared.machine node m → comes node m)
    (hm : ComesTo fuel body prepared.machine node m) :
    Aligned ⟨SeenIn (body :: bodies), comes⟩ prepared.machine.distances node m ∧
      m.frames.KeptIn (Run.framesAfter (interpret .resolved fuel body prepared.machine)) := by
  have hsteady := h.accept ha
  obtain ⟨plan, ho⟩ := hsteady.ordered
  exact aligned_of_comesTo (guides_seenIn hsteady.resolved)
    (Steady.seenIn_along List.mem_cons_self) hcomes ho hsteady.current hm

/-- At every moment of every run the machine is aligned with a visit of an executed program. -/
theorem aligned (hs : Reached bodies s) (ha : s.Accepts source body prepared)
    (hm : ComesTo fuel body prepared.machine node m) :
    Aligned ⟨SeenIn (body :: bodies), fun _ _ => True⟩ prepared.machine.distances node m :=
  (hs.steady.aligned ha (fun _ _ _ => trivial) hm).1

/-- Frames and scopes are aligned. Whenever a run of an accepted text, after any history, comes to a
node, the node is one of an accepted program, now or in the history, and the local frames match the
scopes at a visit of the node, which is its only visit if there are occurrences in it. The distance
of an occurrence counts steps among the local frames. -/
theorem frames_match_scopes (hs : Reached bodies s) (ha : s.Accepts source body prepared)
    (hm : ComesTo fuel body prepared.machine node m) :
    ∃ b ∈ body :: bodies, ∃ σ, Visited b ⟨node, σ⟩ ∧
      (Visit.ids ⟨node, σ⟩ ≠ [] → ∀ b' ∈ body :: bodies, ∀ σ', Visited b' ⟨node, σ'⟩ →
        b' = b ∧ σ' = σ) ∧
      m.Matches σ ∧
      ∀ e id name distance, node = .expr e → e.occurrence? = some (id, name) →
        m.distances.get? id = some distance → distance < m.localFrames.length ∧
          m.localFrames[distance]? = some (m.frames.ancestor m.current distance) := by
  have hsteady := hs.steady.accept ha
  obtain ⟨plan, site, ho, ⟨b, hb, hmet⟩, hstands⟩ := aligned hs ha hm
  obtain ⟨σ, hvisited, hlength, hclosed⟩ := hmet.visited
  refine ⟨b, hb, σ, hvisited, fun hids b' hb' σ' hvisited' => ?_, ⟨?_, ?_, ?_⟩, ?_⟩
  · obtain ⟨rfl, heq⟩ := hsteady.unique hb hb' hvisited hvisited' rfl hids
    cases heq
    exact ⟨rfl, rfl⟩
  · exact (hstands.map_localFrames ho).2
  · rw [hstands.length_localFrames ho, hlength]
  · intro k i name hk hname
    rw [hclosed]
    exact hstands.declares_of_holds ho hk hname
  · rintro e id name distance rfl he hdistance
    have hrecorded := (hsteady.resolved b hb).get?_occurrence hmet he
    rw [← ho.distances, hdistance] at hrecorded
    have hlt : distance < site.scopes.length :=
      (List.findIdx?_eq_some_iff_getElem.mp hrecorded.symm).1
    exact ⟨by rwa [hstands.length_localFrames ho], hstands.getElem?_localFrames ho hlt⟩

/-- A block that assigns to its variable in the initializer of the variable. -/
def selfAssigningText : String :=
  "\x7b var a = a = nil; \x7d"

/-- The program of `selfAssigningText`. -/
def selfAssigning : List Stmt :=
  [.block [.variable ⟨"a", 1⟩ (some (.assign 1 ⟨"a", 1⟩ (.literal .nil)))]]

/-- The session that executes `selfAssigning`, with the distance of the assignment recorded. -/
def selfAssigningSession : Session :=
  ⟨{ Machine.start (fun _ => 0) [] with distances := #[none, some 0] }, 2, .empty⟩

theorem accepts_selfAssigning : (Session.start (fun _ => 0) []).Accepts selfAssigningText
    selfAssigning selfAssigningSession where
  prepared_eq := by cbv
  no_reports := rfl

/-- The machine that comes to the assignment of `selfAssigning`, in the frame of the block. -/
def selfAssigningMachine : Machine :=
  { selfAssigningSession.machine with
    frames := initialFrames.add (some globalFrame)
    current := 1 }

theorem comesTo_selfAssigning : ComesTo 3 selfAssigning selfAssigningSession.machine
    (.expr (.assign 1 ⟨"a", 1⟩ (.literal .nil))) selfAssigningMachine :=
  .initializer selfAssigningSession.machine 0 _ _ [] []

theorem frames_match_scopes_selfAssigning :
    ∃ σ, Visited selfAssigning ⟨.expr (.assign 1 ⟨"a", 1⟩ (.literal .nil)), σ⟩ ∧
      selfAssigningMachine.Matches σ ∧ 0 < selfAssigningMachine.localFrames.length := by
  obtain ⟨b, hb, σ, hvisited, -, hmatches, hdistance⟩ :=
    frames_match_scopes (.start (fun _ => 0) []) accepts_selfAssigning comesTo_selfAssigning
  obtain rfl := List.mem_singleton.mp hb
  exact ⟨σ, hvisited, hmatches, (hdistance _ 1 "a" 0 rfl rfl rfl).1⟩

end Session

end Treewalk
