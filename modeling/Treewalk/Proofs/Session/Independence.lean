import Treewalk.Proofs.Scope.Balance
import Treewalk.Proofs.Session.Joining

/-!
# Statements resolved one by one

What is found out about a statement outside of all scopes does not depend on the statements before
it, even if these break rules, since no scope and no mark is left behind. So the reports about a
program are those about its statements one after the other. Each node has a number of its own, so
that of all the statements only the one with the node can record its distance, and the distances of
the program are those of its statements put together.

## Main results

* `Distances.get?_recordAll_flatMap`: distances recorded by findings about different nodes.
* `Session.resolve_separately`: a program is resolved as its statements are, each alone.
-/

namespace Treewalk

/-- A program finds what its statements find, each alone. -/
theorem programFindings_eq_flatMap (body : List Stmt) :
    programFindings body = body.flatMap fun s => programFindings [s] := by
  induction body with
  | nil => rfl
  | cons s body ih => rw [List.flatMap_cons, ← ih, ← programFindings_append, List.singleton_append]

/-! ### Distances of different nodes -/

namespace Distances

/-- What is recorded takes the place of what was there before. -/
theorem get?_recordAll_or (ds : Distances) (findings : List Finding) (id : Nat) :
    (ds.recordAll findings).get? id = ((recordAll #[] findings).get? id).or (ds.get? id) := by
  induction findings using List.reverseRecOn with
  | nil => rfl
  | append_singleton findings f ih =>
    rw [recordAll_append, recordAll_append]
    cases f with
    | broken error => exact ih
    | distance id' hops =>
      change ((ds.recordAll findings).record id' hops).get? id =
        (((recordAll #[] findings).record id' hops).get? id).or (ds.get? id)
      rw [get?_record, get?_record]
      split
      · rfl
      · exact ih

/-- What is recorded at a number comes from the findings. -/
theorem exists_of_get?_recordAll {findings : List Finding} {id hops : Nat}
    (h : (recordAll #[] findings).get? id = some hops) : .distance id hops ∈ findings := by
  rcases get?_recordAll findings #[] h with hnone | hmem
  · cases hnone
  · exact hmem

/-- If no two parts of the findings are about the same number, a distance is recorded if one of the
parts records it, or if none of them is about its number and it was there before. -/
theorem get?_recordAll_flatMap {α : Type} (findings : α → List Finding) {ids : α → List Nat}
    {xs : List α} (hids : ∀ x ∈ xs, ∀ id hops, .distance id hops ∈ findings x → id ∈ ids x)
    (hnodup : (xs.flatMap ids).Nodup) (ds : Distances) (id hops : Nat) :
    (ds.recordAll (xs.flatMap findings)).get? id = some hops ↔
      (∃ x ∈ xs, (recordAll #[] (findings x)).get? id = some hops) ∨
        (∀ x ∈ xs, (recordAll #[] (findings x)).get? id = none) ∧ ds.get? id = some hops := by
  induction xs generalizing ds with
  | nil => simp [recordAll]
  | cons x xs ih =>
    obtain ⟨hx, hxs⟩ := List.forall_mem_cons.mp hids
    obtain ⟨-, htail, hdisjoint⟩ := List.nodup_append.mp hnodup
    rw [List.flatMap_cons, recordAll_append, ih hxs htail (ds.recordAll (findings x)),
      get?_recordAll_or ds (findings x) id]
    cases hget : (recordAll #[] (findings x)).get? id with
    | none => simp [hget]
    | some hops' =>
      -- the number belongs to the first part, so that the others do not record it
      have hid := hx id hops' (exists_of_get?_recordAll hget)
      have hnone : ∀ y ∈ xs, (recordAll #[] (findings y)).get? id = none := by
        intro y hy
        refine Option.eq_none_iff_forall_ne_some.mpr fun hops'' hy' => ?_
        have hid' := hxs y hy id hops'' (exists_of_get?_recordAll hy')
        exact hdisjoint id hid id (List.mem_flatMap.mpr ⟨y, hy, hid'⟩) rfl
      have hlater : ¬ ∃ y ∈ xs, (recordAll #[] (findings y)).get? id = some hops := by
        rintro ⟨y, hy, hsome⟩
        rw [hnone y hy] at hsome
        cases hsome
      simpa [hget, hlater] using fun _ => hnone

end Distances

theorem Stmt.idsAll_eq_flatMap (body : List Stmt) : Stmt.idsAll body = body.flatMap Stmt.ids := by
  induction body with
  | nil => rfl
  | cons s body ih => rw [Stmt.idsAll, List.flatMap_cons, ih]

/-- The distances that a statement records alone are those of its own nodes. -/
theorem Stmt.mem_ids_of_mem_programFindings {s : Stmt} {id hops : Nat}
    (h : .distance id hops ∈ programFindings [s]) : id ∈ s.ids := by
  have hid := mem_idsAll_of_mem_programFindings h
  rwa [Stmt.idsAll, Stmt.idsAll, List.append_nil] at hid

namespace Session

/-- What a session reports that resolves statements. -/
theorem reports_resolve (s : Session) (body : List Stmt) :
    (s.resolve body).diagnostics.reports = s.diagnostics.reports ++ scopeReports body :=
  Diagnostics.reports_reportAll _ _

theorem scopeReports_eq_flatMap (body : List Stmt) :
    scopeReports body = body.flatMap fun s => scopeReports [s] := by
  rw [scopeReports, programFindings_eq_flatMap, Finding.errors, List.filterMap_flatMap,
    List.map_flatMap]
  rfl

/-- The statements that are read from tokens, whether or not some of these do not fit, are resolved
independently. The reports about them are the reports about each statement alone, in order. Their
distances are those that the statements record, each alone. However many of them have been walked
over, and whichever rules these break, the stack of scopes is empty and neither a function nor a
class is marked. -/
theorem resolve_separately (s : Session) (clock : Nat → Nat) (input : List UInt8) (first : Nat)
    (tokens : List Token) :
    let body := (Program.ofTokens first tokens).body
    (s.resolve body).diagnostics.reports = s.diagnostics.reports ++
        body.flatMap (fun st => ((start clock input).resolve [st]).diagnostics.reports) ∧
      (∀ id hops, (s.resolve body).machine.distances.get? id = some hops ↔
        (∃ st ∈ body, ((start clock input).resolve [st]).machine.distances.get? id = some hops) ∨
          (∀ st ∈ body, ((start clock input).resolve [st]).machine.distances.get? id = none) ∧
            s.machine.distances.get? id = some hops) ∧
      ∀ count, Stmt.walkAll .start (body.take count) =
        ⟨[], .nothing, .nothing, programFindings (body.take count)⟩ := by
  intro body
  refine ⟨?_, fun id hops => ?_, fun count => Stmt.walkAll_start (body.take count)⟩
  · rw [reports_resolve, scopeReports_eq_flatMap]
    simp only [reports_resolve]
    rfl
  · have hnumbered : (Stmt.idsAll body).Nodup := (Program.ofTokens_numbered first tokens).nodup
    rw [Stmt.idsAll_eq_flatMap] at hnumbered
    have hids : ∀ st ∈ body, ∀ id hops, .distance id hops ∈ programFindings [st] → id ∈ st.ids :=
      fun st _ id hops => Stmt.mem_ids_of_mem_programFindings
    have hrecorded := Distances.get?_recordAll_flatMap _ hids hnumbered s.machine.distances id hops
    rwa [← programFindings_eq_flatMap] at hrecorded

end Session

end Treewalk
