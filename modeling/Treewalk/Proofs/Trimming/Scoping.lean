import Treewalk.Proofs.Scope.Resolution
import Treewalk.Proofs.Trimming.Trees

/-!
# Scopes with one of them left out

The walk over a program comes to the same nodes when a scope around it is left out in which nothing is
declared. At each of them the open scopes are the same ones except for the spare one, so an occurrence is
bound to the same scope both times.

## Main definitions

* `Scopes.Spares`: scopes with a spare one among them and without it.
* `Visit.Spares`: visits of one node with a spare scope around it and without.

## Main results

* `Scopes.Spares.distance?`: where a name is declared.
* `Visit.Spares.part`: the parts of a node.
* `Visit.Spares.trimmed`: the node, if the distances of both visits are recorded.
-/

namespace Treewalk

/-! ### Scopes -/

/-- Scopes with a spare one so many scopes outward, if there is one, and without it. -/
inductive Scopes.Spares : Option Nat → Scopes → Scopes → Prop
  | none (scopes : Scopes) : Spares none scopes scopes
  | here (outer : Scopes) : Spares (some 0) ([] :: outer) outer
  | inside {spare : Option Nat} {scopes scopes' : Scopes} (scope : Scope)
      (h : Spares spare scopes scopes') :
    Spares (spare.map (· + 1)) (scope :: scopes) (scope :: scopes')

/-- A declared name changes the innermost scope alone. -/
theorem Scopes.exists_declare (scope : Scope) (name : Name) :
    ∃ inner, ∀ outer, Scopes.declare (scope :: outer) name = inner :: outer :=
  ⟨_, fun outer => declare_cons scope outer name⟩

theorem Scopes.exists_introduce (scope : Scope) (name : Name) :
    ∃ inner, ∀ outer, Scopes.introduce (scope :: outer) name = inner :: outer :=
  ⟨_, fun outer => by rw [introduce, declare_cons]; rfl⟩

/-- A statement changes the innermost scope alone. -/
theorem Stmt.exists_after (s : Stmt) (scope : Scope) :
    ∃ inner, ∀ outer, s.after (scope :: outer) = inner :: outer := by
  match s with
  | .variable name _ | .class name _ _ => exact Scopes.exists_introduce scope name
  | .function decl => exact Scopes.exists_introduce scope decl.name
  | .ifThen _ thenBranch => exact thenBranch.exists_after scope
  | .ifElse _ thenBranch elseBranch =>
    obtain ⟨middle, hthen⟩ := thenBranch.exists_after scope
    obtain ⟨inner, helse⟩ := elseBranch.exists_after middle
    exact ⟨inner, fun outer => by rw [Stmt.after, hthen, helse]⟩
  | .while _ body => exact body.exists_after scope
  | .expression _ | .block _ | .return _ _ => exact ⟨scope, fun _ => rfl⟩

/-- A statement that declares nothing changes no scope. -/
theorem Stmt.after_of_declared {s : Stmt} (h : s.declared = []) (scopes : Scopes) :
    s.after scopes = scopes := by
  match s with
  | .ifThen _ thenBranch => exact Stmt.after_of_declared (s := thenBranch) h scopes
  | .ifElse _ thenBranch elseBranch =>
    obtain ⟨hthen, helse⟩ := List.append_eq_nil_iff.mp h
    rw [Stmt.after, Stmt.after_of_declared hthen, Stmt.after_of_declared helse]
  | .while _ body => exact Stmt.after_of_declared (s := body) h scopes
  | .expression _ | .block _ | .return _ _ => rfl

namespace Scopes.Spares

variable {spare : Option Nat} {scopes scopes' : Scopes}

/-- Where a name is declared: never in the spare scope, and without that in the same scope. -/
theorem distance? (h : Spares spare scopes scopes') (name : String) :
    scopes'.distance? name = (scopes.distance? name).map (hopsWithout spare) ∧
      ∀ hops, scopes.distance? name = some hops → spare ≠ some hops := by
  induction h with
  | none scopes => exact ⟨Option.map_id'.symm, fun _ _ h => nomatch h⟩
  | here outer =>
    have hnot : ¬ Scope.declares [] name := Bool.false_ne_true
    rw [distance?_cons, if_neg hnot, Option.map_map]
    refine ⟨Option.map_id'.symm, fun hops hhops heq => ?_⟩
    obtain ⟨outward, -, rfl⟩ := Option.map_eq_some_iff.mp hhops
    cases heq
  | @inside spare scopes scopes' scope _ ih =>
    obtain ⟨hdistance, hne⟩ := ih
    rw [distance?_cons, distance?_cons]
    by_cases hdeclares : scope.declares name
    · rw [if_pos hdeclares, if_pos hdeclares]
      refine ⟨congrArg some (hopsWithout_zero _).symm, fun hops hhops heq => ?_⟩
      cases hhops
      obtain ⟨k, -, hk⟩ := Option.map_eq_some_iff.mp heq
      cases hk
    · rw [if_neg hdeclares, if_neg hdeclares, hdistance]
      cases hhops : scopes.distance? name with
      | none => exact ⟨rfl, fun _ h => nomatch h⟩
      | some hops =>
        have hne := hne hops hhops
        refine ⟨congrArg some (hopsWithout_succ hne).symm, fun _ heq heq' => hne ?_⟩
        cases heq
        obtain ⟨k, rfl, hk⟩ := Option.map_eq_some_iff.mp heq'
        rw [Nat.succ.inj hk]

/-- Nothing is declared in the spare scope. -/
theorem getElem? (h : Spares spare scopes scopes') {k : Nat} (hk : spare = some k) :
    scopes[k]? = some [] := by
  induction h generalizing k with
  | none => cases hk
  | here =>
    cases hk
    rfl
  | inside scope _ ih =>
    obtain ⟨outward, hspare, rfl⟩ := Option.map_eq_some_iff.mp hk
    exact ih hspare

/-- What changes the innermost scope alone does so with the spare scope further out and without it. -/
theorem change {f : Scopes → Scopes} (h : Spares spare scopes scopes') (hne : spare ≠ some 0)
    (hf : ∀ scope, ∃ inner, ∀ outer, f (scope :: outer) = inner :: outer) :
    Spares spare (f scopes) (f scopes') := by
  cases h with
  | none => exact .none _
  | here => exact absurd rfl hne
  | inside scope h =>
    obtain ⟨inner, hinner⟩ := hf scope
    rw [hinner, hinner]
    exact .inside inner h

theorem introduceAll (h : Spares spare scopes scopes') (hne : spare ≠ some 0) (names : List Name) :
    Spares spare (scopes.introduceAll names) (scopes'.introduceAll names) := by
  induction names generalizing scopes scopes' with
  | nil => exact h
  | cons name names ih =>
    exact ih (h.change (f := (Scopes.introduce · name)) hne fun scope => exists_introduce scope name)

/-- The scopes after a statement, which declares nothing in the spare scope. -/
theorem after (h : Spares spare scopes scopes') {s : Stmt} (hs : spare = some 0 → s.declared = []) :
    Spares spare (s.after scopes) (s.after scopes') := by
  by_cases hne : spare = some 0
  · rwa [Stmt.after_of_declared (hs hne), Stmt.after_of_declared (hs hne)]
  · exact h.change hne s.exists_after

/-- The scopes around the methods of a class. -/
theorem classScopes (h : Spares spare scopes scopes') (superclass : Option Superclass) :
    Spares (spare.map (· + superclass.elim 1 fun _ => 2)) (Site.classScopes superclass ++ scopes)
      (Site.classScopes superclass ++ scopes') := by
  cases superclass with
  | none => exact .inside _ h
  | some s =>
    have hinside := Spares.inside [("this", true)] (.inside [("super", true)] h)
    rwa [Option.map_map] at hinside

end Scopes.Spares

/-! ### Visits -/

/-- Visits of one node with a spare scope around it and without. A statement that stands in the spare
scope declares nothing. -/
structure Visit.Spares (spare : Option Nat) (v v' : Visit) : Prop where
  node : v'.node = v.node
  context : v'.site.context = v.site.context
  scopes : Scopes.Spares spare v.site.scopes v'.site.scopes
  declared : spare = some 0 → ∀ s, v.node = .stmt s → s.declared = []

/-- The statements of a block or of a function. -/
theorem Site.spares_along {spare : Option Nat} (hne : spare ≠ some 0) {ss : List Stmt} {s : Stmt}
    (hs : s ∈ ss) {σ σ' : Site} (hcontext : σ'.context = σ.context)
    (hscopes : Scopes.Spares spare σ.scopes σ'.scopes) :
    ∃ w ∈ σ.along ss, ∃ w' ∈ σ'.along ss, w.node = .stmt s ∧ Visit.Spares spare w w' := by
  induction ss generalizing σ σ' with
  | nil => cases hs
  | cons first ss ih =>
    cases hs with
    | head =>
      exact ⟨_, List.mem_cons_self, _, List.mem_cons_self, rfl, rfl, hcontext, hscopes,
        fun h => absurd h hne⟩
    | tail _ hs =>
      obtain ⟨w, hw, w', hw', hrest⟩ := @ih hs { σ with scopes := first.after σ.scopes }
        { σ' with scopes := first.after σ'.scopes } hcontext (hscopes.after fun h => absurd h hne)
      exact ⟨w, List.mem_cons_of_mem _ hw, w', List.mem_cons_of_mem _ hw', hrest⟩

namespace Visit.Spares

variable {spare : Option Nat} {v v' : Visit}

/-- A node in the same scope. -/
theorem of_part {w w' : Visit} {inner : Node} (hw : w ∈ v.parts) (hw' : w' ∈ v'.parts)
    (hnode : w.node = inner) (hopened : v.node.opened inner = 0) (h : Visit.Spares spare w w') :
    ∃ w ∈ v.parts, ∃ w' ∈ v'.parts, w.node = inner ∧
      Visit.Spares (spare.map (· + v.node.opened inner)) w w' := by
  refine ⟨w, hw, w', hw', hnode, ?_⟩
  rw [hopened]
  cases spare <;> exact h

/-- An expression declares nothing. -/
theorem expr (e : Expr) {σ σ' : Site} (hcontext : σ'.context = σ.context)
    (hscopes : Scopes.Spares spare σ.scopes σ'.scopes) :
    Visit.Spares spare ⟨.expr e, σ⟩ ⟨.expr e, σ'⟩ :=
  ⟨rfl, hcontext, hscopes, fun _ _ h => nomatch h⟩

theorem stmt (s : Stmt) (hdeclared : spare = some 0 → s.declared = []) {σ σ' : Site}
    (hcontext : σ'.context = σ.context) (hscopes : Scopes.Spares spare σ.scopes σ'.scopes) :
    Visit.Spares spare ⟨.stmt s, σ⟩ ⟨.stmt s, σ'⟩ := by
  refine ⟨rfl, hcontext, hscopes, fun hspare _ heq => ?_⟩
  cases heq
  exact hdeclared hspare

/-- Each node inside of a statement is visited with the spare scope around it and without. -/
theorem part_stmt {s : Stmt} (hdeclared : spare = some 0 → s.declared = []) {σ σ' : Site}
    (hcontext : σ'.context = σ.context) (hscopes : Scopes.Spares spare σ.scopes σ'.scopes)
    {inner : Node} (hinner : inner ∈ (Node.stmt s).children) :
    ∃ w ∈ Visit.parts ⟨.stmt s, σ⟩, ∃ w' ∈ Visit.parts ⟨.stmt s, σ'⟩, w.node = inner ∧
      Visit.Spares (spare.map (· + (Node.stmt s).opened inner)) w w' := by
  have hne (hs : s.declared ≠ []) : spare ≠ some 0 := fun h => hs (hdeclared h)
  cases s with
  | expression e =>
    obtain rfl := List.mem_singleton.mp hinner
    exact of_part List.mem_cons_self List.mem_cons_self rfl rfl (expr e hcontext hscopes)
  | «variable» name initializer =>
    obtain ⟨e, he, rfl⟩ := List.mem_map.mp hinner
    have hscopes := hscopes.change (f := (Scopes.declare · name)) (hne (List.cons_ne_nil _ _))
      fun scope => Scopes.exists_declare scope name
    exact of_part (List.mem_map_of_mem he) (List.mem_map_of_mem he) rfl rfl
      (expr e hcontext hscopes)
  | block body =>
    obtain ⟨s, hs, rfl⟩ := List.mem_map.mp hinner
    exact Site.spares_along (map_succ_ne_zero spare) hs hcontext (.inside [] hscopes)
  | ifThen condition thenBranch =>
    rcases List.mem_pair.mp hinner with rfl | rfl
    · exact of_part List.mem_cons_self List.mem_cons_self rfl rfl
        (expr condition hcontext hscopes)
    · exact of_part (List.mem_cons_of_mem _ List.mem_cons_self)
        (List.mem_cons_of_mem _ List.mem_cons_self) rfl rfl
        (stmt thenBranch hdeclared hcontext hscopes)
  | ifElse condition thenBranch elseBranch =>
    have hthen (h : spare = some 0) : thenBranch.declared = [] :=
      (List.append_eq_nil_iff.mp (hdeclared h)).1
    have helse (h : spare = some 0) : elseBranch.declared = [] :=
      (List.append_eq_nil_iff.mp (hdeclared h)).2
    rcases List.mem_cons.mp hinner with rfl | hinner
    · exact of_part List.mem_cons_self List.mem_cons_self rfl rfl
        (expr condition hcontext hscopes)
    rcases List.mem_pair.mp hinner with rfl | rfl
    · exact of_part (List.mem_cons_of_mem _ List.mem_cons_self)
        (List.mem_cons_of_mem _ List.mem_cons_self) rfl rfl
        (stmt thenBranch hthen hcontext hscopes)
    · have hlast {α : Type} (a b c : α) : c ∈ [a, b, c] := by simp
      exact of_part (hlast _ _ _) (hlast _ _ _) rfl rfl
        (stmt elseBranch helse hcontext (hscopes.after hthen))
  | «while» condition body =>
    rcases List.mem_pair.mp hinner with rfl | rfl
    · exact of_part List.mem_cons_self List.mem_cons_self rfl rfl
        (expr condition hcontext hscopes)
    · exact of_part (List.mem_cons_of_mem _ List.mem_cons_self)
        (List.mem_cons_of_mem _ List.mem_cons_self) rfl rfl
        (stmt body hdeclared hcontext hscopes)
  | function decl =>
    obtain rfl := List.mem_singleton.mp hinner
    have hscopes := hscopes.change (f := (Scopes.introduce · decl.name))
      (hne (List.cons_ne_nil _ _)) fun scope => Scopes.exists_introduce scope decl.name
    have hcontext : (σ'.ofFunction decl).context = (σ.ofFunction decl).context :=
      congrArg (fun c : Context => { c with routine := .function }) hcontext
    exact of_part List.mem_cons_self List.mem_cons_self rfl rfl
      ⟨rfl, hcontext, hscopes, fun _ _ h => nomatch h⟩
  | «return» line value =>
    obtain ⟨e, he, rfl⟩ := List.mem_map.mp hinner
    exact of_part (List.mem_map_of_mem he) (List.mem_map_of_mem he) rfl rfl
      (expr e hcontext hscopes)
  | «class» name superclass methods =>
    have hscopes := hscopes.change (f := (Scopes.introduce · name)) (hne (List.cons_ne_nil _ _))
      fun scope => Scopes.exists_introduce scope name
    rcases List.mem_append.mp hinner with hinner | hinner
    · obtain ⟨s, hs, rfl⟩ := List.mem_map.mp hinner
      have hcontext : (σ'.ofSuperclass name).context = (σ.ofSuperclass name).context :=
        congrArg (fun c : Context => { c with cls := .derived }) hcontext
      exact of_part (List.mem_append_left _ (List.mem_map_of_mem hs))
        (List.mem_append_left _ (List.mem_map_of_mem hs)) rfl rfl (expr s.expr hcontext hscopes)
    · obtain ⟨m, hm, rfl⟩ := List.mem_map.mp hinner
      exact ⟨_, List.mem_append_right _ (List.mem_map_of_mem hm), _,
        List.mem_append_right _ (List.mem_map_of_mem hm), rfl, rfl, rfl,
        hscopes.classScopes superclass, fun _ _ h => nomatch h⟩

/-- Each node inside of a node is visited with the spare scope around it and without. -/
theorem part (h : Visit.Spares spare v v') {inner : Node} (hinner : inner ∈ v.node.children) :
    ∃ w ∈ v.parts, ∃ w' ∈ v'.parts, w.node = inner ∧
      Visit.Spares (spare.map (· + v.node.opened inner)) w w' := by
  obtain ⟨node, σ⟩ := v
  obtain ⟨node', σ'⟩ := v'
  obtain ⟨hnode, hcontext, hscopes, hdeclared⟩ := h
  obtain rfl : node' = node := hnode
  cases node' with
  | expr e =>
    obtain ⟨part, hpart, rfl⟩ := List.mem_map.mp hinner
    exact of_part (List.mem_map_of_mem hpart) (List.mem_map_of_mem hpart) rfl rfl
      (expr part hcontext hscopes)
  | routine decl =>
    obtain ⟨s, hs, rfl⟩ := List.mem_map.mp hinner
    have hne := map_succ_ne_zero spare
    exact Site.spares_along hne hs hcontext ((Scopes.Spares.inside [] hscopes).introduceAll hne _)
  | stmt s =>
    exact part_stmt (fun h => hdeclared h s rfl) hcontext hscopes hinner

/-- What is recorded for the two visits of a node is recorded for two visits of each expression in
it. -/
theorem reach {t : Trimming} {ds : Distances} {n : Nat} {e : Expr} {node : Node}
    (hreach : node.Reaches n e) (h : Visit.Spares spare v v') (hnode : v.node = node)
    (hbefore : v.Resolved t.before) (hafter : Recorded ds v'.ids v'.findings) :
    ∃ σ σ', Visit.Spares (spare.map (· + n)) ⟨.expr e, σ⟩ ⟨.expr e, σ'⟩ ∧
      Visit.Resolved t.before ⟨.expr e, σ⟩ ∧
      Recorded ds (Visit.ids ⟨.expr e, σ'⟩) (Visit.findings ⟨.expr e, σ'⟩) := by
  induction hreach generalizing spare v v' with
  | here e =>
    obtain ⟨node, σ⟩ := v
    obtain ⟨node', σ'⟩ := v'
    obtain rfl : node = .expr e := hnode
    obtain rfl : node' = .expr e := h.node
    refine ⟨σ, σ', ?_, hbefore, hafter⟩
    cases spare <;> exact h
  | @inside node inner n e hinner _ ih =>
    rw [← hnode] at hinner
    obtain ⟨w, hw, w', hw', hinner', hspares⟩ := h.part hinner
    have hfound := ih hspares hinner' (hbefore.part hw) (hafter.part hw')
    rw [Option.map_map, hnode] at hfound
    have hdeeper : ((· + n) ∘ fun k => k + node.opened inner) = (· + (node.opened inner + n)) :=
      funext fun k => Nat.add_assoc k _ n
    rwa [hdeeper] at hfound

/-- A node whose occurrences are bound to the same scopes when the spare scope is left out. -/
theorem trimmed {t : Trimming} {r : Relocation} {ds : Distances} (h : Visit.Spares spare v v')
    (hbefore : v.Resolved t.before) (hafter : Recorded ds v'.ids v'.findings)
    (hmoved : ∀ id ∈ v.ids, t.after.get? (r.id id) = ds.get? id) : v.node.Trimmed t r spare where
  refers := by
    intro n e id name hreach he
    obtain ⟨σ, σ', hspares, hresolved, hrecorded⟩ := reach hreach h rfl hbefore hafter
    have hown (error : ScopeError) : .broken error ∉ e.own σ'.context.cls σ.scopes := by
      rw [show σ'.context = σ.context from hspares.context]
      exact fun herror => hresolved.clean error (Visit.mem_findings.mpr (.inl herror))
    obtain ⟨hdistance, hne⟩ := hspares.scopes.distance? name
    have hget := hresolved.get?_occurrence he
    refine ⟨?_, fun hops hhops => hne hops (hget.symm.trans hhops)⟩
    rw [hmoved id (hreach.mem_ids he v.site), hrecorded.get?_occurrence hown he, hget]
    exact hdistance
  receiver := by
    intro n id line method hops hreach hhops heq
    obtain ⟨σ, σ', hspares, hresolved, -⟩ := reach hreach h rfl hbefore hafter
    rw [hresolved.get?_occurrence rfl] at hhops
    cases hresolved.fits with
    | expr hpaired _ _ _ =>
      obtain ⟨inward, inner, rfl, hinner, hthis⟩ := hpaired.this_of_super hhops
      have hnone : σ.scopes[inward]? = some [] := hspares.scopes.getElem? heq
      cases hinner.symm.trans hnone
      exact Scope.not_isReady_nil _ hthis

end Visit.Spares

end Treewalk
