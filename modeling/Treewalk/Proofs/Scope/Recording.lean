import Treewalk.Machine
import Treewalk.Proofs.Scope.Walk

/-!
# Recorded distances

The distances that a walk finds out are recorded under the numbers of the nodes. Since no two nodes
share a number, a look-up of the number of an occurrence gives just what the walk found out there:
the way outward to the scope that declares the name, and nothing for a name that is in no scope.

## Main definitions

* `Recorded`: findings are all that is recorded about certain numbers.

## Main results

* `Recorded.visited`: what is recorded about a program is recorded about each of its visits.
* `Recorded.get?_occurrence`: what is recorded about an occurrence.
* `Distances.recorded_recordAll`: recording findings about fresh numbers.
-/

namespace Treewalk

/-- What is recorded about the given numbers, each of which belongs to one node only, is what the
findings say. -/
structure Recorded (ds : Distances) (ids : List Nat) (findings : List Finding) : Prop where
  nodup : ids.Nodup
  found : ∀ id ∈ ids, ∀ hops, ds.get? id = some hops → .distance id hops ∈ findings
  isSome : ∀ id hops, .distance id hops ∈ findings → (ds.get? id).isSome

/-! ### Distances of a node itself -/

theorem Scopes.mem_occurrence {scopes : Scopes} {id : Nat} {name : String} {f : Finding} :
    f ∈ scopes.occurrence id name ↔
      ∃ hops, scopes.distance? name = some hops ∧ f = .distance id hops := by
  unfold Scopes.occurrence
  cases scopes.distance? name <;> simp

theorem Scopes.mem_declaration {scopes : Scopes} {name : Name} {f : Finding} :
    f ∈ scopes.declaration name ↔
      scopes.innermostDeclares name.text ∧ f = .at name (.declaredTwice name.text) := by
  unfold Scopes.declaration
  split <;> simp_all

theorem mem_parameterFindings {scopes : Scopes} {names : List Name} {f : Finding}
    (h : f ∈ (parameterFindings scopes names).1) : ∃ error, f = .broken error := by
  induction names generalizing scopes with
  | nil => exact absurd h List.not_mem_nil
  | cons name names ih =>
    rcases List.mem_append.mp h with h | h
    · exact ⟨_, (Scopes.mem_declaration.mp h).2⟩
    · exact ih h

theorem Expr.mem_own_distance {cls : EnclosingClass} {scopes : Scopes} {e : Expr} {id hops : Nat}
    (h : .distance id hops ∈ e.own cls scopes) :
    ∃ name, e.occurrence? = some (id, name) ∧ scopes.distance? name = some hops := by
  cases e with
  | «variable» number name =>
    have h : .distance id hops ∈ scopes.occurrence number name.text := by
      simpa [Expr.own, Expr.findings, Finding.at] using h
    obtain ⟨_, hhops, heq⟩ := Scopes.mem_occurrence.mp h
    cases heq
    exact ⟨name.text, rfl, hhops⟩
  | assign number name value =>
    obtain ⟨_, hhops, heq⟩ := Scopes.mem_occurrence.mp h
    cases heq
    exact ⟨name.text, rfl, hhops⟩
  | this number line =>
    have h : .distance id hops ∈ scopes.occurrence number "this" := by
      cases cls <;> simp_all [Expr.own, Expr.findings, Finding.at]
    obtain ⟨_, hhops, heq⟩ := Scopes.mem_occurrence.mp h
    cases heq
    exact ⟨"this", rfl, hhops⟩
  | super number line method =>
    have h : .distance id hops ∈ scopes.occurrence number "super" := by
      cases cls <;> simp_all [Expr.own, Expr.findings, Finding.at]
    obtain ⟨_, hhops, heq⟩ := Scopes.mem_occurrence.mp h
    cases heq
    exact ⟨"super", rfl, hhops⟩
  | _ => exact absurd h List.not_mem_nil

/-- An occurrence has the distance of its name in any scopes, if it breaks no rule in some. -/
theorem Expr.distance_mem_own {cls : EnclosingClass} {scopes other : Scopes} {e : Expr}
    {id hops : Nat} {name : String} (hclean : ∀ error, .broken error ∉ e.own cls other)
    (he : e.occurrence? = some (id, name)) (hhops : scopes.distance? name = some hops) :
    .distance id hops ∈ e.own cls scopes := by
  have hmem : .distance id hops ∈ scopes.occurrence id name :=
    Scopes.mem_occurrence.mpr ⟨hops, hhops, rfl⟩
  cases e with
  | «variable» =>
    cases he
    exact List.mem_append_right _ hmem
  | assign =>
    cases he
    exact hmem
  | this =>
    cases he
    cases cls <;> simp_all [Expr.own, Expr.findings, Finding.at]
  | super =>
    cases he
    cases cls <;> simp_all [Expr.own, Expr.findings, Finding.at]
  | _ => cases he

theorem Stmt.distance_notMem_own {σ : Site} {s : Stmt} {id hops : Nat} :
    .distance id hops ∉ s.own σ := by
  intro h
  cases s with
  | «class» name superclass methods =>
    rcases List.mem_append.mp h with h | h
    · cases (Scopes.mem_declaration.mp h).2
    · cases superclass <;> simp [Finding.at] at h
  | «variable» => cases (Scopes.mem_declaration.mp h).2
  | function => cases (Scopes.mem_declaration.mp h).2
  | «return» => simp [Stmt.own, Finding.at] at h
  | _ => exact absurd h List.not_mem_nil

/-- A distance that a node has itself belongs to the number of the node. -/
theorem Visit.mem_ownIds {v : Visit} {id hops : Nat} (h : .distance id hops ∈ v.own) :
    id ∈ v.ownIds := by
  match v with
  | ⟨.expr e, σ⟩ =>
    obtain ⟨name, he, _⟩ := Expr.mem_own_distance h
    simp [Visit.ownIds, he]
  | ⟨.stmt s, σ⟩ => exact absurd h Stmt.distance_notMem_own
  | ⟨.routine decl, σ⟩ =>
    obtain ⟨_, heq⟩ := mem_parameterFindings h
    cases heq

/-- The distances of a node belong to numbers of the node. -/
theorem Visit.mem_ids {v : Visit} {id hops : Nat} (h : .distance id hops ∈ v.findings) :
    id ∈ v.ids := by
  induction v using Visit.induct with
  | step v ih =>
    refine v.ids_perm.mem_iff.mpr (List.mem_append.mpr ?_)
    rcases Visit.mem_findings.mp h with h | ⟨w, hw, h⟩
    · exact .inl (Visit.mem_ownIds h)
    · exact .inr (List.mem_flatMap.mpr ⟨w, hw, ih w hw h⟩)

/-- The distances of a program belong to numbers of the program. -/
theorem mem_idsAll_of_mem_programFindings {body : List Stmt} {id hops : Nat}
    (h : .distance id hops ∈ programFindings body) : id ∈ Stmt.idsAll body := by
  obtain ⟨v, hv, hmem⟩ := mem_programFindings_along.mp h
  rw [← Site.ids_along Site.outermost body]
  exact List.mem_flatMap.mpr ⟨v, hv, Visit.mem_ids hmem⟩

/-! ### From a node to its parts -/

namespace Recorded

variable {ds : Distances} {findings own : List Finding} {ids ownIds : List Nat}
  {vs : List Visit} {w : Visit}

theorem of_perm (h : Recorded ds ids findings) {ids' : List Nat} (hp : ids.Perm ids') :
    Recorded ds ids' findings where
  nodup := hp.nodup h.nodup
  found id hid := h.found id (hp.mem_iff.mpr hid)
  isSome := h.isSome

/-- Only the distances of the given numbers matter. -/
theorem of_get?_eq (h : Recorded ds ids findings) {ds' : Distances}
    (hids : ∀ id hops, .distance id hops ∈ findings → id ∈ ids)
    (heq : ∀ id ∈ ids, ds'.get? id = ds.get? id) : Recorded ds' ids findings where
  nodup := h.nodup
  found id hid hops hget := h.found id hid hops (by rwa [← heq id hid])
  isSome id hops hf := by
    rw [heq id (hids id hops hf)]
    exact h.isSome id hops hf

/-- What is recorded about visits, besides what a node has itself, is recorded about each of
them. -/
theorem of_mem (h : Recorded ds (ownIds ++ vs.flatMap Visit.ids) findings)
    (hfindings : ∀ f, f ∈ findings ↔ f ∈ own ∨ ∃ v ∈ vs, f ∈ v.findings)
    (hown : ∀ id hops, .distance id hops ∈ own → id ∈ ownIds) (hw : w ∈ vs) :
    Recorded ds w.ids w.findings := by
  obtain ⟨_, hvs, hdisjoint⟩ := List.nodup_append.mp h.nodup
  refine ⟨(List.nodup_flatMap.mp hvs).1 w hw, fun id hid hops hget => ?_, fun id hops hf => ?_⟩
  · have hid' : id ∈ vs.flatMap Visit.ids := List.mem_flatMap.mpr ⟨w, hw, hid⟩
    rcases (hfindings _).mp (h.found id (List.mem_append_right _ hid') hops hget) with hf | hf
    · exact absurd rfl (hdisjoint id (hown id hops hf) id hid')
    · obtain ⟨v, hv, hf⟩ := hf
      obtain rfl := Visit.eq_of_mem_ids hvs hv hw (Visit.mem_ids hf) hid
      exact hf
  · exact h.isSome id hops ((hfindings _).mpr (.inr ⟨w, hw, hf⟩))

theorem part {v : Visit} (h : Recorded ds v.ids v.findings) (hw : w ∈ v.parts) :
    Recorded ds w.ids w.findings :=
  (h.of_perm v.ids_perm).of_mem (fun _ => Visit.mem_findings) (fun _ _ => Visit.mem_ownIds) hw

/-- What is recorded about a program is recorded about each of its visits. -/
theorem visited {body : List Stmt} (h : Recorded ds (Stmt.idsAll body) (programFindings body))
    {v : Visit} (hv : Visited body v) : Recorded ds v.ids v.findings := by
  induction hv with
  | statement hv =>
    rw [← Site.ids_along Site.outermost body] at h
    have hfindings : ∀ f, f ∈ programFindings body ↔
        f ∈ ([] : List Finding) ∨ ∃ v ∈ Site.outermost.along body, f ∈ v.findings :=
      fun f => by simp [mem_programFindings_along]
    have hown : ∀ id hops, .distance id hops ∈ ([] : List Finding) → id ∈ ([] : List Nat) :=
      fun _ _ h => absurd h List.not_mem_nil
    exact of_mem h hfindings hown hv
  | part _ hw ih => exact ih.part hw

/-- What is recorded about an occurrence is the way outward to the scope that declares its name, if
it breaks no rule in some scopes. -/
theorem get?_occurrence {e : Expr} {σ : Site} {id : Nat} {name : String} {other : Scopes}
    (h : Recorded ds (Visit.ids ⟨.expr e, σ⟩) (Visit.findings ⟨.expr e, σ⟩))
    (hclean : ∀ error, .broken error ∉ e.own σ.context.cls other)
    (he : e.occurrence? = some (id, name)) : ds.get? id = σ.scopes.distance? name := by
  have hids := (h.of_perm (Visit.ids_perm _)).nodup
  have hid : id ∈ Visit.ownIds ⟨.expr e, σ⟩ := by simp [Visit.ownIds, he]
  cases hget : ds.get? id with
  | none =>
    cases hhops : σ.scopes.distance? name with
    | none => rfl
    | some hops =>
      have hmem := Expr.distance_mem_own hclean he hhops
      have hsome := h.isSome id hops (Visit.mem_findings.mpr (.inl hmem))
      rw [hget] at hsome
      cases hsome
  | some hops =>
    have hfound := h.found id ((Visit.ids_perm _).mem_iff.mpr (List.mem_append_left _ hid)) hops hget
    rcases Visit.mem_findings.mp hfound with hf | ⟨w, hw, hf⟩
    · obtain ⟨name', he', hhops⟩ := Expr.mem_own_distance hf
      rw [he] at he'
      cases he'
      exact hhops.symm
    · have hw' := List.mem_flatMap.mpr ⟨w, hw, Visit.mem_ids hf⟩
      exact absurd rfl ((List.nodup_append.mp hids).2.2 id hid id hw')

end Recorded

/-! ### Recording -/

namespace Distances

theorem get?_recordAll (findings : List Finding) (ds : Distances) {id hops : Nat}
    (h : (ds.recordAll findings).get? id = some hops) :
    ds.get? id = some hops ∨ .distance id hops ∈ findings := by
  induction findings generalizing ds with
  | nil => exact .inl h
  | cons f fs ih =>
    cases f with
    | broken error => exact (ih ds h).imp_right (List.mem_cons_of_mem _)
    | distance id' hops' =>
      rcases ih (ds.record id' hops') h with hget | hmem
      · rw [get?_record] at hget
        split at hget
        · cases hget
          simp_all
        · exact .inl hget
      · exact .inr (List.mem_cons_of_mem _ hmem)

theorem isSome_recordAll (findings : List Finding) (ds : Distances) {id : Nat}
    (h : (ds.get? id).isSome ∨ ∃ hops, .distance id hops ∈ findings) :
    ((ds.recordAll findings).get? id).isSome := by
  induction findings generalizing ds with
  | nil => simpa [recordAll] using h
  | cons f fs ih =>
    cases f with
    | broken error => exact ih ds (by simpa using h)
    | distance id' hops' =>
      refine ih (ds.record id' hops') ?_
      rw [get?_record]
      by_cases heq : id' = id
      · exact .inl (by simp [heq])
      · simpa [heq, Ne.symm heq] using h

/-- Recording changes nothing about numbers that have no distance among the findings. -/
theorem get?_recordAll_of_notMem (findings : List Finding) (ds : Distances) {id : Nat}
    (h : ∀ hops, .distance id hops ∉ findings) : (ds.recordAll findings).get? id = ds.get? id := by
  induction findings generalizing ds with
  | nil => rfl
  | cons f fs ih =>
    have hfs := fun hops hmem => h hops (List.mem_cons_of_mem _ hmem)
    cases f with
    | broken error => exact ih ds hfs
    | distance id' hops' =>
      have hne : id' ≠ id := fun heq => h hops' (by simp [heq])
      exact (ih (ds.record id' hops') hfs).trans (by rw [get?_record, if_neg hne])

/-- Findings about numbers that have no distances yet are all that is recorded about them. -/
theorem recorded_recordAll {ds : Distances} {ids : List Nat} (hnodup : ids.Nodup)
    (hfresh : ∀ id ∈ ids, ds.get? id = none) (findings : List Finding) :
    Recorded (ds.recordAll findings) ids findings where
  nodup := hnodup
  found id hid hops hget := by
    rcases get?_recordAll _ ds hget with h | h
    · rw [hfresh id hid] at h
      cases h
    · exact h
  isSome id hops hmem := isSome_recordAll _ ds (.inr ⟨hops, hmem⟩)

end Distances

end Treewalk
