import Treewalk.Proofs.Scope.Recording

/-!
# Distances that a walk finds out

The walk over a program visits every node once, and a node has at most one distance, under its own
number. So the numbers that get a distance are among those of the nodes, each as often as there: in a
program whose nodes have numbers of their own every number gets at most one distance.

## Main definitions

* `Finding.recordedIds`: the numbers that get a distance.

## Main results

* `Visit.findings_perm`: the findings of a node are its own and those of its parts, in another order.
* `recordedIds_subperm`: the numbers of a program that get a distance.
* `Distances.get?_eq_none_of_split`: a distance of a new number is recorded where there was none.
* `Distances.get?_recordAll_of_nodup`: what is recorded about other nodes.
-/

namespace Treewalk

/-- The number that a finding gives a distance, if it gives one. -/
def Finding.recordedId? : Finding → Option Nat
  | .distance id _ => some id
  | .broken _ => none

/-- The numbers that findings give distances, in the order in which these are recorded. -/
def Finding.recordedIds (findings : List Finding) : List Nat :=
  findings.filterMap recordedId?

theorem Finding.mem_recordedIds {findings : List Finding} {id : Nat} :
    id ∈ recordedIds findings ↔ ∃ hops, .distance id hops ∈ findings := by
  constructor
  · intro h
    obtain ⟨f, hf, hid⟩ := List.mem_filterMap.mp h
    cases f with
    | distance id' hops =>
      cases hid
      exact ⟨hops, hf⟩
    | broken => cases hid
  · rintro ⟨hops, h⟩
    exact List.mem_filterMap.mpr ⟨_, h, rfl⟩

/-! ### The findings of a node and of its parts -/

theorem Expr.findingsAll_eq_flatMap (cls : EnclosingClass) (scopes : Scopes) (es : List Expr) :
    Expr.findingsAll cls scopes es = es.flatMap (Expr.findings cls scopes) := by
  induction es with
  | nil => rfl
  | cons e es ih => rw [Expr.findingsAll, ih, List.flatMap_cons]

theorem Stmt.methodFindings_eq_flatMap (cls : EnclosingClass) (scopes : Scopes)
    (ms : List FunctionDecl) : Stmt.methodFindings cls scopes ms =
      ms.flatMap fun m => m.findings ⟨.ofMethod m.name.text, cls⟩ scopes := by
  induction ms with
  | nil => rfl
  | cons m ms ih => rw [Stmt.methodFindings, ih, List.flatMap_cons]

theorem Site.findings_along (σ : Site) (ss : List Stmt) :
    (σ.along ss).flatMap Visit.findings = (Stmt.findingsAll σ.context σ.scopes ss).1 := by
  induction ss generalizing σ with
  | nil => rfl
  | cons s ss ih =>
    rw [Site.along, List.flatMap_cons, ih]
    simp only [Stmt.findingsAll, Stmt.findings_snd, Visit.findings]

theorem Stmt.findings_eq_parts (σ : Site) (s : Stmt) : (s.findings σ.context σ.scopes).1 =
    s.own σ ++ (s.parts σ).flatMap Visit.findings := by
  cases s with
  | block body => exact (Site.findings_along (σ.inBlock body) body).symm
  | «variable» name initializer =>
    cases initializer <;>
      simp [Stmt.findings, Stmt.own, Stmt.parts, Expr.findingsOf, Visit.findings]
  | «return» line value =>
    cases value <;>
      simp [Stmt.findings, Stmt.own, Stmt.parts, returnFindings, Expr.findingsOf, Visit.findings]
  | function decl =>
    simp [Stmt.findings, Stmt.own, Stmt.parts, Visit.findings, Site.ofFunction, Scopes.introduce]
  | «class» name superclass methods =>
    cases superclass <;>
      simp [Stmt.findings, Stmt.own, Stmt.parts, superclassFindings, Stmt.methodFindings_eq_flatMap,
        Visit.findings, Site.ofMethod, Site.ofSuperclass, Site.classScopes, Scopes.introduce,
        List.flatMap_map]
  | _ => simp [Stmt.findings, Stmt.own, Stmt.parts, Visit.findings]

/-- The findings of a node are its own and those of its parts; only those of an assignment come after
those of its value. -/
theorem Visit.findings_perm (v : Visit) :
    v.findings.Perm (v.own ++ v.parts.flatMap Visit.findings) := by
  match v with
  | ⟨.expr e, σ⟩ =>
    have hparts : (Visit.parts ⟨.expr e, σ⟩).flatMap Visit.findings =
        e.parts.flatMap (Expr.findings σ.context.cls σ.scopes) := by
      simp [Visit.parts, Visit.findings, List.flatMap_map]
    rw [hparts]
    cases e <;> simp [Visit.findings, Visit.own, Expr.own, Expr.findings, Expr.parts,
      Expr.findingsAll_eq_flatMap, List.perm_append_comm]
  | ⟨.stmt s, σ⟩ => exact .of_eq (s.findings_eq_parts σ)
  | ⟨.routine ⟨name, params, body⟩, σ⟩ =>
    have hbody := Site.findings_along (σ.inRoutine ⟨name, params, body⟩) body
    refine .of_eq ?_
    simp only [Visit.findings, FunctionDecl.findings, parameterFindings_snd, Visit.own, Visit.parts]
    exact congrArg _ hbody.symm

/-! ### At most one distance for each node -/

theorem recordedIds_occurrence (scopes : Scopes) (id : Nat) (name : String) :
    (Finding.recordedIds (scopes.occurrence id name)).Subperm [id] := by
  unfold Scopes.occurrence
  cases scopes.distance? name with
  | none => exact List.nil_subperm
  | some hops => exact .refl _

theorem recordedIds_parameterFindings (scopes : Scopes) (names : List Name) :
    Finding.recordedIds (parameterFindings scopes names).1 = [] := by
  refine List.filterMap_eq_nil_iff.mpr fun f hf => ?_
  obtain ⟨error, rfl⟩ := mem_parameterFindings hf
  rfl

/-- A node itself has a distance for its own number at most, and at most one. -/
theorem Visit.recordedIds_own (v : Visit) : (Finding.recordedIds v.own).Subperm v.ownIds := by
  match v with
  | ⟨.expr e, σ⟩ =>
    have hbroken (b : Prop) [Decidable b] (error : ScopeError) :
        (if b then [Finding.broken error] else []).filterMap Finding.recordedId? = [] := by
      split <;> rfl
    cases e with
    | «variable» id name =>
      have hown := recordedIds_occurrence σ.scopes id name.text
      rw [Visit.own, Expr.own, Expr.findings, Finding.recordedIds, List.filterMap_append, Finding.at,
        hbroken]
      exact hown
    | assign id name value => exact recordedIds_occurrence σ.scopes id name.text
    | this id line =>
      have hown := recordedIds_occurrence σ.scopes id "this"
      simp only [Visit.own, Expr.own, Expr.findings]
      cases σ.context.cls with
      | nothing => exact List.nil_subperm
      | _ => exact hown
    | super id line method =>
      have hown := recordedIds_occurrence σ.scopes id "super"
      simp only [Visit.own, Expr.own, Expr.findings]
      cases σ.context.cls with
      | derived => exact hown
      | _ => exact List.nil_subperm
    | _ => exact List.nil_subperm
  | ⟨.stmt s, σ⟩ =>
    have hnone : Finding.recordedIds (Visit.own ⟨.stmt s, σ⟩) = [] := by
      refine List.eq_nil_iff_forall_not_mem.mpr fun id hid => ?_
      obtain ⟨hops, hmem⟩ := Finding.mem_recordedIds.mp hid
      exact Stmt.distance_notMem_own hmem
    rw [hnone]
    exact List.nil_subperm
  | ⟨.routine decl, σ⟩ =>
    rw [Visit.own, recordedIds_parameterFindings]
    exact List.nil_subperm

theorem subperm_flatMap {α β : Type} {f g : α → List β} {l : List α}
    (h : ∀ a ∈ l, (f a).Subperm (g a)) : (l.flatMap f).Subperm (l.flatMap g) := by
  induction l with
  | nil => exact .refl _
  | cons a l ih =>
    obtain ⟨ha, hl⟩ := List.forall_mem_cons.mp h
    exact ha.append (ih hl)

/-- The numbers of a node and its parts that get a distance. -/
theorem Visit.recordedIds_subperm (v : Visit) : (Finding.recordedIds v.findings).Subperm v.ids := by
  induction v using Visit.induct with
  | step v ih =>
    have hfindings := v.findings_perm.filterMap Finding.recordedId?
    rw [List.filterMap_append, List.filterMap_flatMap] at hfindings
    exact hfindings.subperm.trans
      ((v.recordedIds_own.append (subperm_flatMap ih)).trans v.ids_perm.symm.subperm)

/-- The numbers of a program that get a distance are numbers of its nodes, each as often as there. -/
theorem recordedIds_subperm (body : List Stmt) :
    (Finding.recordedIds (programFindings body)).Subperm (Stmt.idsAll body) := by
  have hfindings : programFindings body = (Site.outermost.along body).flatMap Visit.findings :=
    (Site.findings_along Site.outermost body).symm
  rw [hfindings, Finding.recordedIds, List.filterMap_flatMap, ← Site.ids_along Site.outermost body]
  exact subperm_flatMap fun v _ => v.recordedIds_subperm

/-- A distance is recorded where there was none, if its number is new and gets no other one. -/
theorem Distances.get?_eq_none_of_split {ds : Distances} {findings front back : List Finding}
    {id hops : Nat} (hnodup : (Finding.recordedIds findings).Nodup) (hnew : ds.get? id = none)
    (hsplit : findings = front ++ .distance id hops :: back) :
    (ds.recordAll front).get? id = none := by
  refine (get?_recordAll_of_notMem front ds fun hops' hmem => ?_).trans hnew
  rw [hsplit, Finding.recordedIds, List.filterMap_append] at hnodup
  exact (List.nodup_append.mp hnodup).2.2 id (Finding.mem_recordedIds.mpr ⟨hops', hmem⟩) id
    List.mem_cons_self rfl

/-- Findings about other nodes leave the distance of a number as it is. -/
theorem Distances.get?_recordAll_of_nodup (ds : Distances) {findings : List Finding}
    {ids others : List Nat} (hnodup : (ids ++ others).Nodup)
    (hothers : (Finding.recordedIds findings).Subperm others) {id : Nat} (hid : id ∈ ids) :
    (ds.recordAll findings).get? id = ds.get? id := by
  refine get?_recordAll_of_notMem _ _ fun hops hmem => ?_
  have hother := hothers.subset (Finding.mem_recordedIds.mpr ⟨hops, hmem⟩)
  exact (List.nodup_append.mp hnodup).2.2 id hid id hother rfl

end Treewalk
