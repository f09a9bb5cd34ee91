import Treewalk.Proofs.Run.Confinement
import Treewalk.Proofs.Session.History

/-!
# Local frames of a session

After any history of runs, the run of an accepted text writes local frames outward only: the
bindings of a local frame change by the first writes when it is made, and then by declarations and
assignments that are executed while the frame lies outward from the current one.

## Main results

* `Session.writes_confined`: writes to local frames are lexically confined.
-/

namespace Treewalk

namespace Session

variable {history : List Execution} {s s' prepared : Session} {source : String} {body : List Stmt}
  {fuel : Nat} {status : Status}

/-- Before an accepted program is executed the global frame is there and is the outermost one. -/
theorem After.root (hs : After history s) (ha : s.Accepts source body prepared) :
    globalFrame < prepared.machine.frames.size ∧
      prepared.machine.frames.enclosing? globalFrame = none := by
  obtain ⟨plan, ho⟩ := (hs.steady.accept ha).ordered
  exact ⟨ho.global, ho.root⟩

/-- The machine that the run of an accepted text leaves. -/
theorem Accepts.machine_eq (ha : s.Accepts source body prepared)
    (hrun : s.run fuel source = some (status, s')) :
    (interpret .resolved fuel body).after prepared.machine = s'.machine := by
  rw [ha.run_eq] at hrun
  rcases (Steady.machine_of_execute hrun).2 with hm | ⟨e, hm⟩
  · exact Run.after_of_ok hm
  · exact Run.after_of_error hm

/-- Writes to local frames are lexically confined. The run of an accepted text, as far as its fuel
lets it go, has a log of its moments in order and a course along it, in which each write is made by a
declaration or an assignment that is under way in the current frame. From any moment to a later one, a
frame keeps its enclosing frame; a local frame changes only by declarations and assignments that are
executed while it lies outward from the current frame, and by its first writes if it is made
meanwhile. Every block and every call is entered in a frame of its own that was not there before. A
call leaves the local frames of before as they are, unless it calls a function that closes over such a
frame or over one inside it. -/
theorem writes_confined (hs : After history s) (ha : s.Accepts source body prepared) (fuel : Nat) :
    ∃ log left, (interpret .resolved fuel body).after prepared.machine = left ∧
      (∀ status s', s.run fuel source = some (status, s') → s'.machine = left) ∧
      Run.Logs (fun watch => interpretWatched watch .resolved fuel body) prepared.machine log ∧
      Course ∅ prepared.machine log left ∧
      (prepared.machine :: log.map (·.machine) ++ [left]).Pairwise
        (fun m m' => Frames.Confined {p | p ∈ log} m.frames m'.frames) ∧
      (∀ p ∈ log, p.event.Enters → (p.event.next p.machine).current = p.machine.frames.size) ∧
      log.Pairwise (fun p q => p.event.Enters → p.machine.frames.size < q.machine.frames.size) ∧
      ∀ f arguments m, ⟨.call f arguments, m⟩ ∈ log → ∀ callFuel, ∃ inner,
        Run.Logs (fun watch => (watched watch .resolved callFuel).invoke f arguments) m inner ∧
        Frames.Confined {p | p ∈ inner} m.frames
          ((invoke .resolved callFuel f arguments).after m).frames ∧
        ∀ i < m.frames.size, i ≠ globalFrame → ∀ name,
          ((invoke .resolved callFuel f arguments).after m).frames.slot? i name ≠
            m.frames.slot? i name →
          ∃ (g : Closure) (vs : List Value) (m₁ : Machine), ⟨.call g vs, m₁⟩ ∈ inner ∧
            ((invoke .resolved callFuel f arguments).after m).frames.Outward g.frame i := by
  obtain ⟨log, hlog, hcourse⟩ := exists_course .resolved fuel body prepared.machine
  have hleft : ∀ status s', s.run fuel source = some (status, s') →
      s'.machine = (interpret .resolved fuel body).after prepared.machine :=
    fun status s' hrun => (ha.machine_eq hrun).symm
  generalize (interpret .resolved fuel body).after prepared.machine = left at hcourse hleft
  have hchanges := hcourse.pairwise_changes (Set.empty_subset {p | p ∈ log}) fun _ => id
  obtain ⟨hfirst, -⟩ := List.pairwise_cons.mp hchanges
  have hroot : ∀ m ∈ prepared.machine :: log.map (·.machine) ++ [left],
      globalFrame < m.frames.size ∧ m.frames.enclosing? globalFrame = none := by
    obtain ⟨hglobal, hroot⟩ := hs.root ha
    intro m hm
    rcases List.mem_cons.mp hm with rfl | hm
    · exact ⟨hglobal, hroot⟩
    · exact (Frames.Changes.linkedIn (hfirst m hm)).root hglobal hroot
  refine ⟨log, left, rfl, hleft, hlog, hcourse, ?_,
    fun p _ henters => (henters.next_eq p.machine).1, hcourse.pairwise_size_lt,
    fun f arguments m hcall callFuel => ?_⟩
  · refine hchanges.imp_of_mem fun {m m'} hm _ h => ?_
    exact h.confined (hroot m hm).1 (hroot m hm).2
  · have hmem : m ∈ log.map (·.machine) := List.mem_map_of_mem hcall
    have hm := hroot m (List.mem_cons_of_mem _ (List.mem_append_left _ hmem))
    exact invoke_confined .resolved callFuel f arguments hm.1 hm.2

/-- Two functions made by two calls of another one, each of which assigns to a variable of its
call. -/
def separateText : String :=
  "fun make() \x7b var a; fun set(v) \x7b a = v; return a; \x7d return set; \x7d " ++
    "var s = make(); var t = make(); s(true); t(false);"

/-- The session that executes `separateText`. -/
def separateSession : Session :=
  ((start (fun _ => 0) []).prepare separateText).2

theorem accepts_separate : (start (fun _ => 0) []).Accepts separateText
    ((start (fun _ => 0) []).prepare separateText).1 separateSession where
  prepared_eq := rfl
  no_reports := by decide +kernel

theorem writes_confined_separate : ∃ s' log,
    (start (fun _ => 0) []).run 16 separateText = some (.ok, s') ∧
      Course ∅ separateSession.machine log s'.machine ∧
      (separateSession.machine :: log.map (·.machine) ++ [s'.machine]).Pairwise
        (fun m m' => Frames.Confined {p | p ∈ log} m.frames m'.frames) := by
  have hstatus : ((start (fun _ => 0) []).run 16 separateText).map (·.1) = some .ok := by
    decide +kernel
  obtain ⟨⟨status, s'⟩, hrun, rfl⟩ := Option.map_eq_some_iff.mp hstatus
  obtain ⟨log, left, -, hleft, -, hcourse, hconfined, -⟩ :=
    writes_confined (.start _ _) accepts_separate 16
  obtain rfl := hleft _ _ hrun
  exact ⟨s', log, hrun, hcourse, hconfined⟩

end Session

end Treewalk
