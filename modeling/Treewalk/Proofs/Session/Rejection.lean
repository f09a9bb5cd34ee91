import Treewalk.Proofs.Session.Relocation

/-!
# Rejected texts

A text in which a fault is found before it runs leaves no trace. It uses up node numbers, and
distances may have been recorded for its nodes, but the nodes of other programs have other numbers.
So the session after it is the session before it, up to a relocation of the numbers that are yet to
be drawn, and every later run shows the same.

## Main definitions

* `Relocation.skip`: the relocation that leaves a range of node numbers out.
* `Session.Shown`, `Session.transcript`: what a run shows, and what runs one after the other show.

## Main results

* `Session.Steady.moved_rejected`: the session after a rejected text.
* `Session.transcript_rejected`: later runs show what they show without the rejected text.
-/

namespace Treewalk

/-! ### Node numbers left out -/

namespace Relocation

/-- Node numbers from `start` on move up by `count`. -/
def skip (start count : Nat) : Relocation :=
  .ofId fun id => if id < start then id else id + count

variable {start count id : Nat}

theorem skip_keepsLines : (skip start count).KeepsLines :=
  fun _ => rfl

theorem skip_of_lt (h : id < start) : (skip start count).id id = id :=
  if_pos h

theorem skip_of_le (h : start ≤ id) : (skip start count).id id = id + count :=
  if_neg (Nat.not_lt.mpr h)

theorem skip_injective : Function.Injective (skip start count).id := by
  intro id other h
  simp only [skip, ofId] at h
  split at h <;> split at h <;> omega

end Relocation

namespace Session

/-! ### The session after a rejected text -/

variable {bodies : List (List Stmt)} {s s' : Session} {source : String} {fuel : Nat}

/-- A text with a fault that is found before it runs is not accepted. -/
theorem not_accepts_of_staticError (hrun : s.run fuel source = some (.staticError, s'))
    (body : List Stmt) (prepared : Session) : ¬ s.Accepts source body prepared := by
  intro ha
  rw [ha.run_eq, execute_eq] at hrun
  cases hm : interpret .resolved fuel body prepared.machine with
  | ok a m =>
    rw [hm] at hrun
    cases hrun
  | error e m =>
    rw [hm] at hrun
    cases e <;> cases hrun

/-- A run of a text with a fault that is found before it runs changes nothing on the machine but
distances of nodes with new numbers. -/
theorem eq_of_staticError (hrun : s.run fuel source = some (.staticError, s')) :
    s'.nextId = (s.programOf source).nextId ∧
      s'.machine = { s.machine with distances := s'.machine.distances } ∧
      ∀ id, id < s.nextId ∨ s'.nextId ≤ id →
        s'.machine.distances.get? id = s.machine.distances.get? id := by
  rcases eq_of_not_accepts (not_accepts_of_staticError hrun) hrun with rfl | rfl
  · exact ⟨rfl, rfl, fun _ _ => rfl⟩
  · exact ⟨rfl, rfl, fun _ => Steady.get?_recordAll s source⟩

namespace Steady

variable {comes : Node → Machine → Prop}

/-- The nodes of programs that were executed have numbers that were drawn. -/
theorem ids_lt (h : Steady bodies comes s) {v : Visit} (hv : SeenIn bodies v) :
    ∀ id ∈ v.ids, id < s.nextId := by
  obtain ⟨body, hbody, hmet⟩ := hv
  obtain ⟨σ, hvisited, -⟩ := hmet.visited
  have hids : Visit.ids ⟨v.node, σ⟩ = v.ids := Visit.ids_eq_of_node_eq rfl
  intro id hid
  exact h.below body hbody id (hvisited.ids_subset (hids ▸ hid))

/-- What is stored on the machine stays where only numbers that are yet to be drawn move. -/
theorem machine_moved (h : Steady bodies comes s) {r : Relocation} (hr : r.KeepsLines)
    (hid : ∀ id < s.nextId, r.id id = id) {ds : Distances}
    (hds : Distances.Moved r s.machine.distances ds) :
    Machine.Moved r s.machine { s.machine with distances := ds } := by
  obtain ⟨plan, ho⟩ := h.ordered
  have hdecl {decl : FunctionDecl} {σ : Site} (hseen : SeenIn bodies ⟨.routine decl, σ⟩) :
      ∀ id ∈ decl.ids, r.id id = id := fun id hmem => hid id (h.ids_lt hseen id hmem)
  have hplaced {v : Value} (hv : v.Placed ⟨SeenIn bodies, comes⟩ s.machine.frames plan) :
      v.relocate r = v := by
    refine Value.relocate_eq_self hr fun f hf => ?_
    subst hf
    obtain ⟨σ, hseen, -⟩ := hv
    exact hdecl hseen
  refine ⟨⟨rfl, fun _ => rfl, fun i name => ?_⟩, hds, rfl, fun _ => rfl, fun _ => rfl,
    fun c name => ?_, rfl, fun _ => rfl, fun i name => ?_, rfl, rfl, rfl, rfl, rfl, rfl⟩
  · rcases hslot : s.machine.frames.slot? i name with _ | _ | v
    · rfl
    · rfl
    · exact congrArg (fun v => some (some v)) (hplaced (ho.slots i name v hslot)).symm
  · change s.machine.ownMethod? c name = _
    cases hmethod : s.machine.ownMethod? c name with
    | none => rfl
    | some f =>
      obtain ⟨σ, -, -, hseen, -⟩ := ho.methods c name f hmethod
      exact congrArg some (f.relocate_eq_self hr (hdecl hseen)).symm
  · change s.machine.field? i name = _
    cases hfield : s.machine.field? i name with
    | none => rfl
    | some v => exact congrArg some (hplaced (ho.fields i name v hfield)).symm

/-- The session after a rejected text is the session before it, up to node numbers that are yet to
be drawn. -/
theorem moved_rejected (h : Steady bodies comes s)
    (hrun : s.run fuel source = some (.staticError, s')) :
    Moved (.skip s.nextId (s'.nextId - s.nextId)) s s' := by
  obtain ⟨hnext, hmachine, hdistances⟩ := eq_of_staticError hrun
  have hle : s.nextId ≤ s'.nextId := hnext ▸ (numbered_programOf s source).le
  refine ⟨?_, fun k => ?_⟩
  · rw [hmachine]
    refine h.machine_moved Relocation.skip_keepsLines (fun id => Relocation.skip_of_lt) fun id => ?_
    by_cases hid : id < s.nextId
    · rw [Relocation.skip_of_lt hid, hdistances id (.inl hid)]
    · -- numbers that are yet to be drawn have no distance, in either session
      have hid := Nat.le_of_not_lt hid
      have hid' : s'.nextId ≤ id + (s'.nextId - s.nextId) := by omega
      rw [Relocation.skip_of_le hid, hdistances _ (.inr hid'), h.fresh _ (Nat.le_trans hle hid'),
        h.fresh id hid]
  · rw [Relocation.skip_of_le (Nat.le_add_right _ _)]
    omega

end Steady

/-! ### Transcripts -/

/-- What a run shows to the outside. -/
structure Shown where
  /-- How it ended. -/
  status : Status
  /-- What has been written and not yet been handed over. -/
  output : String
  /-- Its reports and flags. -/
  diagnostics : Diagnostics
  /-- The octets that have not been read. -/
  input : List UInt8
  /-- How many readings of the clock have been taken. -/
  readings : Nat

/-- What is shown by a run that ended. -/
def shown (p : Status × Session) : Shown :=
  ⟨p.1, p.2.machine.output, p.2.diagnostics, p.2.machine.input, p.2.machine.readings⟩

/-- What runs of texts one after the other show, each with its own fuel, up to the first one that
does not end with it. -/
def transcript (s : Session) : List (Nat × String) → List (Option Shown)
  | [] => []
  | (fuel, source) :: later =>
    match s.run fuel source with
    | none => [none]
    | some p => some (shown p) :: p.2.transcript later

theorem Ends.shown_eq {r : Relocation} (hr : r.KeepsLines) {p q : Status × Session}
    (h : Ends r p q) : shown q = shown p := by
  have hdiagnostics := h.diagnostics.trans (Diagnostics.relocate_eq_self hr _)
  simp only [shown, h.status, h.session.machine.output, hdiagnostics, h.session.machine.input,
    h.session.machine.readings]

/-- Sessions that differ in node numbers show the same from then on. -/
theorem Moved.transcript_eq {r : Relocation} (hr : r.KeepsLines)
    (hinjective : Function.Injective r.id) {s t : Session} (h : Moved r s t)
    (later : List (Nat × String)) : t.transcript later = s.transcript later := by
  induction later generalizing s t with
  | nil => rfl
  | cons call later ih =>
    obtain ⟨fuel, source⟩ := call
    have hruns := h.run hr hinjective fuel source
    rw [transcript, transcript]
    generalize s.run fuel source = p, t.run fuel source = q at hruns
    cases hruns with
    | none => rfl
    | some hends => exact congrArg₂ (some · :: ·) (hends.shown_eq hr) (ih hends.session)

/-- A rejected text is invisible. Its run changes nothing on the machine but recorded distances, so
that it writes, reads and computes nothing, and all later runs show what they show when the text is
left out. -/
theorem transcript_rejected (hs : Reachable s)
    (hrun : s.run fuel source = some (.staticError, s')) :
    s'.machine = { s.machine with distances := s'.machine.distances } ∧
      ∀ later, s'.transcript later = s.transcript later := by
  obtain ⟨bodies, hsteady⟩ := hs.steady
  obtain ⟨-, hmachine, -⟩ := eq_of_staticError hrun
  refine ⟨hmachine, fun later => ?_⟩
  exact (hsteady.moved_rejected hrun).transcript_eq Relocation.skip_keepsLines
    Relocation.skip_injective later

/-- A block that uses its variable, before a statement that may not stand outside of functions. -/
def returningText : String :=
  "\x7b var a = nil; a; \x7d return;"

/-- The distance of the variable in `returningText` has been recorded when its fault is found. -/
theorem transcript_rejected_returning : ∃ s', ((Session.start (fun _ => 0) []).run 0 returningText =
      some (.staticError, s')) ∧
    s'.machine.distances.get? 0 = some 0 ∧
    ∀ later, s'.transcript later = (Session.start (fun _ => 0) []).transcript later := by
  have hrun : (Session.start (fun _ => 0) []).run 0 returningText =
      some (.staticError, ((Session.start (fun _ => 0) []).prepare returningText).2) := by
    cbv
  exact ⟨_, hrun, by cbv, (transcript_rejected (.start _ _) hrun).2⟩

end Session

end Treewalk
