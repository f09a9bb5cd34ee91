import Treewalk.Proofs.Scope.Resolution

/-!
# Initializers of local variables

A name is declared before its initializer and gets ready after it. As there are no functions within
expressions, the only nodes at which a name is declared and not ready are the expressions within the
initializer of a local variable of that name. Of the occurrences of the name only assignments may
stand there.

## Main definitions

* `Expr.Within`: the expressions within an expression.
* `Expr.InOwnInitializer`: assignments to a local variable in its own initializer.

## Main results

* `Visited.initializer_of_isPending`: where a name is pending.
* `Resolved.isPending_iff_inOwnInitializer`: which assignments are to a pending name.
-/

namespace Treewalk

/-- An expression and all expressions within it. -/
inductive Expr.Within (e : Expr) : Expr → Prop
  | self : Within e e
  | part {inner part : Expr} (h : Within e inner) (hpart : part ∈ inner.parts) : Within e part

/-- An assignment to a local variable within the initializer in the declaration of that variable. -/
def Expr.InOwnInitializer (body : List Stmt) (e : Expr) : Prop :=
  ∃ id target value declared initializer σ, e = .assign id target value ∧
    Visited body ⟨.stmt (.variable declared (some initializer)), σ⟩ ∧ σ.scopes ≠ [] ∧
    declared.text = target.text ∧ initializer.Within e

/-- The site of the initializer of a variable. -/
def Site.ofInitializer (σ : Site) (declared : Name) : Site :=
  { σ with scopes := σ.scopes.declare declared }

section Within

variable {body : List Stmt} {e inner : Expr} {σ : Site}

/-- The walk visits all expressions within an expression at its site. -/
theorem Expr.Within.visited (h : e.Within inner) (hv : Visited body ⟨.expr e, σ⟩) :
    Visited body ⟨.expr inner, σ⟩ := by
  induction h with
  | self => exact hv
  | @part inner part _ hpart ih =>
    have hmem : (⟨.expr part, σ⟩ : Visit) ∈ Visit.parts ⟨.expr inner, σ⟩ :=
      List.mem_map.mpr ⟨part, hpart, rfl⟩
    exact ih.part hmem

/-- The walk visits the initializer of a variable where its name is declared. -/
theorem Visited.initializer {declared : Name} {initializer : Expr}
    (h : Visited body ⟨.stmt (.variable declared (some initializer)), σ⟩) :
    Visited body ⟨.expr initializer, σ.ofInitializer declared⟩ :=
  h.part (List.mem_singleton_self _)

theorem Expr.InOwnInitializer.visited (h : e.InOwnInitializer body) :
    ∃ σ, Visited body ⟨.expr e, σ⟩ := by
  obtain ⟨id, target, value, declared, initializer, σ, rfl, hvisited, -, -, hwithin⟩ := h
  exact ⟨_, hwithin.visited hvisited.initializer⟩

end Within

/-- Only statements stand in order. -/
theorem Site.exists_stmt_of_mem_along {σ : Site} {ss : List Stmt} {v : Visit}
    (hv : v ∈ σ.along ss) : ∃ s τ, v = ⟨.stmt s, τ⟩ := by
  induction ss generalizing σ with
  | nil => cases hv
  | cons s ss ih =>
    rcases List.mem_cons.mp hv with rfl | hv
    · exact ⟨s, σ, rfl⟩
    · exact ih hv

/-- Of the expressions that are parts of a statement, only the initializer of a local variable stands
where a name is pending. -/
theorem Stmt.variable_of_isPending {s : Stmt} {e : Expr} {σ τ : Site} {name : String}
    (hsettled : σ.scopes.Settled) (he : ⟨.expr e, τ⟩ ∈ s.parts σ)
    (hpending : τ.scopes.isPending name) :
    ∃ declared : Name, s = .variable declared (some e) ∧ declared.text = name ∧ σ.scopes ≠ [] := by
  match s with
  | .variable declared initializer =>
    obtain ⟨e', hinitializer, heq⟩ := List.mem_map.mp he
    cases heq
    obtain rfl := Option.mem_toList.mp hinitializer
    refine ⟨declared, rfl, (hsettled.isPending_declare hpending).symm, fun hnil => ?_⟩
    rw [hnil] at hpending
    exact absurd hpending Bool.false_ne_true
  | .expression condition | .return _ (some condition) =>
    cases List.mem_singleton.mp he
    exact absurd hpending (hsettled.not_isPending name)
  | .return _ none => cases he
  | .block body =>
    obtain ⟨s, τ, heq⟩ := Site.exists_stmt_of_mem_along he
    cases heq
  | .ifThen condition thenBranch | .while condition thenBranch =>
    rcases List.mem_cons.mp he with heq | he
    · cases heq
      exact absurd hpending (hsettled.not_isPending name)
    · cases List.mem_singleton.mp he
  | .ifElse condition thenBranch elseBranch =>
    rcases List.mem_cons.mp he with heq | he
    · cases heq
      exact absurd hpending (hsettled.not_isPending name)
    rcases List.mem_cons.mp he with heq | he
    · cases heq
    · cases List.mem_singleton.mp he
  | .function decl => cases List.mem_singleton.mp he
  | .class declared superclass methods =>
    rcases List.mem_append.mp he with he | he
    · obtain ⟨s, -, heq⟩ := List.mem_map.mp he
      cases heq
      exact absurd hpending ((hsettled.introduce declared).not_isPending name)
    · obtain ⟨m, -, heq⟩ := List.mem_map.mp he
      cases heq

/-- Around a statement or a function all names are ready. -/
def Visit.ReadyAround : Visit → Prop
  | ⟨.expr _, _⟩ => True
  | ⟨_, σ⟩ => σ.scopes.Settled

theorem Site.readyAround_along {σ : Site} {ss : List Stmt} (h : σ.scopes.Settled) :
    ∀ v ∈ σ.along ss, v.ReadyAround := by
  induction ss generalizing σ with
  | nil => exact fun v hv => absurd hv List.not_mem_nil
  | cons s ss ih => exact List.forall_mem_cons.mpr ⟨h, ih (h.after s)⟩

theorem Visit.ReadyAround.part {v w : Visit} (h : v.ReadyAround) (hw : w ∈ v.parts) :
    w.ReadyAround := by
  match v with
  | ⟨.expr e, σ⟩ =>
    obtain ⟨part, -, rfl⟩ := List.mem_map.mp hw
    trivial
  | ⟨.routine decl, σ⟩ =>
    have h : σ.scopes.Settled := h
    exact Site.readyAround_along ((h.cons Scope.settled_nil).introduceAll decl.params) w hw
  | ⟨.stmt s, σ⟩ =>
    have h : σ.scopes.Settled := h
    match s with
    | .expression _ =>
      cases List.mem_singleton.mp hw
      trivial
    | .variable _ _ | .return _ _ =>
      obtain ⟨e, -, rfl⟩ := List.mem_map.mp hw
      trivial
    | .block body => exact Site.readyAround_along (h.cons Scope.settled_nil) w hw
    | .ifThen _ _ | .while _ _ =>
      rcases List.mem_pair.mp hw with rfl | rfl
      · trivial
      · exact h
    | .ifElse _ thenBranch _ =>
      rcases List.mem_cons.mp hw with rfl | hw
      · trivial
      rcases List.mem_pair.mp hw with rfl | rfl
      · exact h
      · exact h.after thenBranch
    | .function decl =>
      cases List.mem_singleton.mp hw
      exact h.introduce decl.name
    | .class name superclass methods =>
      rcases List.mem_append.mp hw with hw | hw
      · obtain ⟨s, -, rfl⟩ := List.mem_map.mp hw
        trivial
      · obtain ⟨m, -, rfl⟩ := List.mem_map.mp hw
        exact (Site.settled_classScopes superclass).append (h.introduce name)

theorem Visited.readyAround {body : List Stmt} {v : Visit} (hv : Visited body v) :
    v.ReadyAround := by
  induction hv with
  | statement hv => exact Site.readyAround_along Scopes.settled_nil _ hv
  | part _ hw ih => exact ih.part hw

/-- A name is pending only within the initializer of a local variable of that name. -/
theorem Visited.initializer_of_isPending {body : List Stmt} {v : Visit} (hv : Visited body v)
    {e : Expr} (he : v.node = .expr e) {name : String}
    (hpending : v.site.scopes.isPending name) :
    ∃ declared initializer σ, Visited body ⟨.stmt (.variable declared (some initializer)), σ⟩ ∧
      σ.scopes ≠ [] ∧ declared.text = name ∧ initializer.Within e := by
  induction hv generalizing e with
  | statement hv =>
    obtain ⟨s, τ, rfl⟩ := Site.exists_stmt_of_mem_along hv
    cases he
  | @part v w hv hw ih =>
    obtain ⟨node, σ⟩ := v
    obtain ⟨node', τ⟩ := w
    obtain rfl : node' = .expr e := he
    cases node with
    | expr outer =>
      obtain ⟨part, hpart, heq⟩ := List.mem_map.mp hw
      cases heq
      obtain ⟨declared, initializer, ρ, hvisited, hlocal, htext, hwithin⟩ := ih rfl hpending
      exact ⟨declared, initializer, ρ, hvisited, hlocal, htext, hwithin.part hpart⟩
    | stmt s =>
      obtain ⟨declared, rfl, htext, hlocal⟩ :=
        Stmt.variable_of_isPending hv.readyAround hw hpending
      exact ⟨declared, e, σ, hv, hlocal, htext, .self⟩
    | routine decl =>
      obtain ⟨s, ρ, heq⟩ := Site.exists_stmt_of_mem_along hw
      cases heq

/-- A name that is declared in a local scope for the first time is pending. -/
theorem Scopes.isPending_declare {scopes : Scopes} (hlocal : scopes ≠ []) {name : Name}
    (hnew : ¬ scopes.innermostDeclares name.text) : (scopes.declare name).isPending name.text := by
  obtain ⟨scope, outer, rfl⟩ := List.exists_cons_of_ne_nil hlocal
  rw [Scopes.declare, if_neg hnew, Scopes.enter]
  change Scope.isPending _ _ = true
  rw [Scope.isPending, Scope.lookup_enter, if_pos rfl]
  rfl

/-- Within the initializer of a local variable its name is pending. -/
theorem Resolved.isPending_initializer {ds : Distances} {body : List Stmt} (h : Resolved ds body)
    {declared : Name} {initializer : Expr} {σ : Site}
    (hv : Visited body ⟨.stmt (.variable declared (some initializer)), σ⟩) (hlocal : σ.scopes ≠ []) :
    (σ.ofInitializer declared).scopes.isPending declared.text := by
  refine Scopes.isPending_declare hlocal fun hdeclares => ?_
  refine h.not_mem_own hv ⟨declared, .declaredTwice declared.text⟩ ?_
  exact Scopes.mem_declaration.mpr ⟨hdeclares, rfl⟩

/-- The assignments to a pending name are those in the initializer of their own variable. -/
theorem Resolved.isPending_iff_inOwnInitializer {ds : Distances} {body : List Stmt}
    (h : Resolved ds body) {id : Nat} {target : Name} {value : Expr} {σ : Site}
    (hv : Visited body ⟨.expr (.assign id target value), σ⟩) :
    σ.scopes.isPending target.text ↔ (Expr.assign id target value).InOwnInitializer body := by
  constructor
  · intro hpending
    obtain ⟨declared, initializer, τ, hvisited, hlocal, htext, hwithin⟩ :=
      hv.initializer_of_isPending rfl hpending
    exact ⟨id, target, value, declared, initializer, τ, rfl, hvisited, hlocal, htext, hwithin⟩
  · rintro ⟨id', target', value', declared, initializer, τ, heq, hvisited, hlocal, htext, hwithin⟩
    cases heq
    have hv' := hwithin.visited hvisited.initializer
    have hids : Visit.ids ⟨.expr (.assign id target value), σ⟩ ≠ [] := by
      simp [Visit.ids, Expr.ids]
    cases hv.unique h.recorded.nodup hv' rfl hids
    rw [← htext]
    exact h.isPending_initializer hvisited hlocal

end Treewalk
