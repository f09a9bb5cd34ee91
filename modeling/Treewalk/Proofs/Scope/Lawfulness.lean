import Treewalk.Proofs.Scope.Rules

/-!
# The walk finds what breaks a rule

The walk over a program finds no broken rule if and only if the program is lawful. What it knows at a
node says just what the rules ask for: the innermost function and class, whether the node is in a
local scope, and which names this scope has so far. No name is declared twice in a scope if and only
if every declaration in it comes to a scope that does not have its name.

## Main definitions

* `FreshIn`: names that can be declared one after the other.
* `Clean`: programs in which the walk finds no broken rule.

## Main results

* `FreshIn.append_iff`: names declared after other ones.
* `errors_programFindings_eq_nil_iff`: the walk accepts just the lawful programs.
-/

namespace Treewalk

/-! ### Names declared one after the other -/

/-- Names that differ from one another and from those that the innermost scope declares. -/
def FreshIn (scopes : Scopes) (names : List Name) : Prop :=
  (names.map Name.text).Nodup ∧ ∀ name ∈ names.map Name.text, ¬ scopes.innermostDeclares name

/-- The innermost scope after a name is introduced. -/
theorem Scopes.innermostDeclares_introduce {scopes : Scopes} (hlocal : scopes ≠ []) (name : Name)
    (other : String) : (scopes.introduce name).innermostDeclares other ↔
      other ∈ [name].map Name.text ∨ scopes.innermostDeclares other := by
  obtain ⟨scope, outer, rfl⟩ := List.exists_cons_of_ne_nil hlocal
  obtain ⟨inner, heq, hdeclares, -⟩ := introduce_cons scope outer name
  rw [heq, List.map_singleton, List.mem_singleton]
  exact hdeclares other

/-- The innermost scope after a statement. -/
theorem Stmt.innermostDeclares_after (s : Stmt) {scopes : Scopes} (hlocal : scopes ≠ [])
    (other : String) : (s.after scopes).innermostDeclares other ↔
      other ∈ s.declared.map Name.text ∨ scopes.innermostDeclares other := by
  match s with
  | .variable name _ | .class name _ _ => exact Scopes.innermostDeclares_introduce hlocal name other
  | .function decl => exact Scopes.innermostDeclares_introduce hlocal decl.name other
  | .ifThen _ thenBranch => exact thenBranch.innermostDeclares_after hlocal other
  | .ifElse _ thenBranch elseBranch =>
    have hlocal' : thenBranch.after scopes ≠ [] :=
      (Scopes.ne_nil_of_length_eq (thenBranch.length_after scopes)).mpr hlocal
    rw [Stmt.after, elseBranch.innermostDeclares_after hlocal' other,
      thenBranch.innermostDeclares_after hlocal other, Stmt.declared, List.map_append,
      List.mem_append, or_left_comm, or_assoc]
  | .while _ body => exact body.innermostDeclares_after hlocal other
  | .expression _ | .block _ | .return _ _ => simp [Stmt.after, Stmt.declared]

namespace FreshIn

variable {scopes scopes' : Scopes} {names others : List Name}

theorem nil (scopes : Scopes) : FreshIn scopes [] :=
  ⟨List.nodup_nil, fun _ h => absurd h List.not_mem_nil⟩

/-- Names declared after other ones, which the innermost scope has then. -/
theorem append_iff (h : ∀ name, scopes'.innermostDeclares name ↔
      name ∈ names.map Name.text ∨ scopes.innermostDeclares name) :
    FreshIn scopes (names ++ others) ↔ FreshIn scopes names ∧ FreshIn scopes' others := by
  simp only [FreshIn, List.map_append, List.nodup_append, List.mem_append, h]
  constructor
  · rintro ⟨⟨hnames, hothers, hne⟩, hnew⟩
    refine ⟨⟨hnames, fun name hname => hnew name (.inl hname)⟩, hothers, fun name hname => ?_⟩
    rintro (hmem | hdeclares)
    · exact hne name hmem name hname rfl
    · exact hnew name (.inr hname) hdeclares
  · rintro ⟨⟨hnames, hnew⟩, hothers, hnew'⟩
    refine ⟨⟨hnames, hothers, ?_⟩, ?_⟩
    · rintro name hname _ hother rfl
      exact hnew' name hother (.inl hname)
    · rintro name (hname | hother)
      · exact hnew name hname
      · exact fun hdeclares => hnew' name hother (.inr hdeclares)

/-- A name that is declared in a local scope for the first time. -/
theorem declaration_iff {name : Name} : scopes.declaration name = [] ↔ FreshIn scopes [name] := by
  rw [Scopes.declaration]
  split
  · next h => simp [FreshIn, h]
  · next h => simp [FreshIn, h]

/-- Parameters that are declared for the first time. -/
theorem parameterFindings_iff (hlocal : scopes ≠ []) :
    (parameterFindings scopes names).1 = [] ↔ FreshIn scopes names := by
  induction names generalizing scopes with
  | nil => exact iff_of_true rfl (.nil scopes)
  | cons name names ih =>
    have hlocal' : scopes.introduce name ≠ [] :=
      (Scopes.ne_nil_of_length_eq (scopes.length_introduce name)).mpr hlocal
    rw [← List.singleton_append,
      append_iff (scopes.innermostDeclares_introduce hlocal name), ← declaration_iff, ← ih hlocal']
    exact List.append_eq_nil_iff

end FreshIn

/-- The innermost scope after names are introduced. -/
theorem Scopes.innermostDeclares_introduceAll (names : List Name) (other : String)
    (scopes : Scopes) : (Scopes.introduceAll ([] :: scopes) names).innermostDeclares other ↔
      other ∈ names.map Name.text ∨ innermostDeclares ([] :: scopes) other := by
  obtain ⟨inner, heq, hdeclares, -⟩ := introduceAll_cons names [] scopes
  rw [heq]
  exact hdeclares other

/-- The names of the scope of a function: the parameters, and then those declared in its body. -/
theorem FreshIn.routine_iff {σ : Site} {decl : FunctionDecl} :
    FreshIn ([] :: σ.scopes) (Node.routine decl).declared ↔
      FreshIn ([] :: σ.scopes) decl.params ∧
        FreshIn (σ.inRoutine decl).scopes (decl.body.flatMap Stmt.declared) :=
  append_iff fun name => Scopes.innermostDeclares_introduceAll decl.params name σ.scopes

/-! ### Programs in which nothing is found -/

/-- The walk finds no broken rule at any node. -/
def Clean (body : List Stmt) : Prop :=
  ∀ {v}, Visited body v → ∀ error, .broken error ∉ v.own

theorem Finding.errors_eq_nil_iff {findings : List Finding} :
    Finding.errors findings = [] ↔ ∀ error, .broken error ∉ findings := by
  rw [Finding.errors, List.filterMap_eq_nil_iff]
  constructor
  · intro h error hmem
    cases h _ hmem
  · intro h f hf
    cases f with
    | distance => rfl
    | broken error => exact absurd hf (h error)

theorem clean_iff {body : List Stmt} :
    Finding.errors (programFindings body) = [] ↔ Clean body := by
  rw [Finding.errors_eq_nil_iff]
  constructor
  · exact fun h v hv error hmem => h error (mem_programFindings.mpr ⟨v, hv, hmem⟩)
  · intro h error hmem
    obtain ⟨v, hv, hown⟩ := mem_programFindings.mp hmem
    exact h hv error hown

section Names

variable {body : List Stmt}

theorem Clean.declaration_eq_nil (h : Clean body) {v : Visit} (hv : Visited body v) {name : Name}
    (hown : v.site.scopes.declaration name ⊆ v.own) : v.site.scopes.declaration name = [] := by
  refine List.eq_nil_iff_forall_not_mem.mpr fun f hf => ?_
  obtain ⟨-, rfl⟩ := Scopes.mem_declaration.mp hf
  exact h hv _ (hown hf)

/-- If nothing is found, what a statement declares is new. -/
theorem Clean.freshIn (h : Clean body) (s : Stmt) {σ : Site} (hv : Visited body ⟨.stmt s, σ⟩)
    (hlocal : σ.scopes ≠ []) : FreshIn σ.scopes s.declared := by
  match s with
  | .variable name _ =>
    exact FreshIn.declaration_iff.mp (h.declaration_eq_nil hv (List.Subset.refl _))
  | .function decl =>
    exact FreshIn.declaration_iff.mp (h.declaration_eq_nil hv (List.Subset.refl _))
  | .class name _ _ =>
    exact FreshIn.declaration_iff.mp (h.declaration_eq_nil hv (List.subset_append_left _ _))
  | .ifThen _ thenBranch =>
    exact h.freshIn thenBranch (hv.part (List.mem_cons_of_mem _ List.mem_cons_self)) hlocal
  | .ifElse _ thenBranch elseBranch =>
    rw [Stmt.declared, FreshIn.append_iff (thenBranch.innermostDeclares_after hlocal)]
    refine ⟨h.freshIn thenBranch (hv.part (List.mem_cons_of_mem _ List.mem_cons_self)) hlocal, ?_⟩
    refine h.freshIn elseBranch (hv.part (List.mem_cons_of_mem _ (List.mem_cons_of_mem _
      List.mem_cons_self))) ?_
    exact (Scopes.ne_nil_of_length_eq (thenBranch.length_after σ.scopes)).mpr hlocal
  | .while _ loop =>
    exact h.freshIn loop (hv.part (List.mem_cons_of_mem _ List.mem_cons_self)) hlocal
  | .expression _ | .block _ | .return _ _ => exact .nil _

theorem Clean.freshIn_along (h : Clean body) {σ : Site} {ss : List Stmt}
    (hv : ∀ v ∈ σ.along ss, Visited body v) (hlocal : σ.scopes ≠ []) :
    FreshIn σ.scopes (ss.flatMap Stmt.declared) := by
  induction ss generalizing σ with
  | nil => exact .nil _
  | cons s ss ih =>
    obtain ⟨hs, hss⟩ := List.forall_mem_cons.mp hv
    rw [List.flatMap_cons, FreshIn.append_iff (s.innermostDeclares_after hlocal)]
    refine ⟨h.freshIn s hs hlocal, ih hss ?_⟩
    exact (Scopes.ne_nil_of_length_eq (s.length_after σ.scopes)).mpr hlocal

/-- If nothing is found, no scope declares a name twice. -/
theorem Clean.nodup_declared (h : Clean body) {node : Node} {σ : Site}
    (hv : Visited body ⟨node, σ⟩) : (node.declared.map Name.text).Nodup := by
  match node with
  | .stmt (.block inner) =>
    have hinner : ∀ v ∈ (σ.inBlock inner).along inner, Visited body v := fun _ => hv.part
    exact (h.freshIn_along hinner (List.cons_ne_nil _ _)).1
  | .routine decl =>
    have hparams : FreshIn ([] :: σ.scopes) decl.params := by
      refine (FreshIn.parameterFindings_iff (List.cons_ne_nil _ _)).mp ?_
      refine List.eq_nil_iff_forall_not_mem.mpr fun f hf => ?_
      obtain ⟨error, rfl⟩ := mem_parameterFindings hf
      exact h hv error hf
    have hinner : ∀ v ∈ (σ.inRoutine decl).along decl.body, Visited body v := fun _ => hv.part
    have hbody := h.freshIn_along hinner (σ.inRoutine_scopes_ne_nil decl)
    exact (FreshIn.routine_iff.mpr ⟨hparams, hbody⟩).1
  | .expr _ | .stmt (.expression _) | .stmt (.variable _ _) | .stmt (.ifThen _ _)
  | .stmt (.ifElse _ _ _) | .stmt (.while _ _) | .stmt (.function _) | .stmt (.return _ _)
  | .stmt (.class _ _ _) => exact List.nodup_nil

/-- If no scope declares a name twice, what the statements of a scope declare is new. -/
theorem FreshIn.along {σ : Site} {ss : List Stmt} (h : FreshIn σ.scopes (ss.flatMap Stmt.declared))
    (hlocal : σ.scopes ≠ []) :
    ∀ v ∈ σ.along ss, ∀ s, v.node = .stmt s → FreshIn v.site.scopes s.declared := by
  induction ss generalizing σ with
  | nil => exact fun v hv => absurd hv List.not_mem_nil
  | cons s ss ih =>
    rw [List.flatMap_cons, FreshIn.append_iff (s.innermostDeclares_after hlocal)] at h
    refine List.forall_mem_cons.mpr ⟨?_, ih h.2 ?_⟩
    · rintro _ ⟨⟩
      exact h.1
    · exact (Scopes.ne_nil_of_length_eq (s.length_after σ.scopes)).mpr hlocal

/-- A list of distinct names is new in a scope without names. -/
theorem FreshIn.of_nodup {names : List Name} (h : (names.map Name.text).Nodup) (outer : Scopes) :
    FreshIn ([] :: outer) names :=
  ⟨h, fun _ _ hdeclares => absurd hdeclares Bool.false_ne_true⟩

/-- What the statements directly inside of a statement declare is new, if it is new what the statement
itself declares, and what it declares in its own scope differs. -/
theorem FreshIn.part_of_stmt {s inner : Stmt} {σ τ : Site}
    (hinside : ((Node.stmt s).declared.map Name.text).Nodup)
    (h : σ.scopes ≠ [] → FreshIn σ.scopes s.declared) (hw : ⟨.stmt inner, τ⟩ ∈ s.parts σ)
    (hlocal : τ.scopes ≠ []) : FreshIn τ.scopes inner.declared := by
  match s with
  | .block body =>
    have hbody : FreshIn (σ.inBlock body).scopes (body.flatMap Stmt.declared) :=
      .of_nodup hinside σ.scopes
    exact hbody.along (List.cons_ne_nil _ _) _ hw inner rfl
  | .ifThen _ _ | .while _ _ =>
    rcases List.mem_pair.mp hw with hw | hw
    · cases hw
    · cases hw
      exact h hlocal
  | .ifElse _ thenBranch _ =>
    have hlocal' : σ.scopes ≠ [] := by
      rcases List.mem_cons.mp hw with hw | hw
      · cases hw
      rcases List.mem_pair.mp hw with hw | hw
      · cases hw
        exact hlocal
      · cases hw
        exact (Scopes.ne_nil_of_length_eq (thenBranch.length_after σ.scopes)).mp hlocal
    have hbranches := h hlocal'
    rw [Stmt.declared, append_iff (thenBranch.innermostDeclares_after hlocal')] at hbranches
    rcases List.mem_cons.mp hw with hw | hw
    · cases hw
    rcases List.mem_pair.mp hw with hw | hw
    · cases hw
      exact hbranches.1
    · cases hw
      exact hbranches.2
  | .expression _ | .function _ => cases List.mem_singleton.mp hw
  | .variable _ _ | .return _ _ =>
    obtain ⟨e, -, heq⟩ := List.mem_map.mp hw
    cases heq
  | .class _ _ _ =>
    rcases List.mem_append.mp hw with hw | hw
    · obtain ⟨_, -, heq⟩ := List.mem_map.mp hw
      cases heq
    · obtain ⟨_, -, heq⟩ := List.mem_map.mp hw
      cases heq

/-- If no scope declares a name twice, what a statement in a local scope declares is new. -/
theorem Lawful.freshIn (h : Lawful body) {v : Visit} (hv : Visited body v) :
    ∀ s, v.node = .stmt s → v.site.scopes ≠ [] → FreshIn v.site.scopes s.declared := by
  induction hv with
  | @statement v hv =>
    intro s hs hlocal
    have hlies := Visit.LiesIn.outermost body v hv
    exact absurd ((hlies.isLocal s hs).mp hlocal) Bool.false_ne_true
  | @part v w hv hw ih =>
    rintro inner hinner hlocal
    obtain ⟨above, hoccurs, -⟩ := hv.exists_occurs
    have hinside := h.declaredOnce hoccurs
    obtain ⟨_, τ⟩ := w
    obtain rfl := hinner
    match v with
    | ⟨.expr e, σ⟩ =>
      obtain ⟨_, -, heq⟩ := List.mem_map.mp hw
      cases heq
    | ⟨.stmt s, σ⟩ => exact FreshIn.part_of_stmt hinside (ih s rfl) hw hlocal
    | ⟨.routine decl, σ⟩ =>
      have hbody : FreshIn (σ.inRoutine decl).scopes (decl.body.flatMap Stmt.declared) :=
        (FreshIn.routine_iff.mp (.of_nodup hinside σ.scopes)).2
      exact hbody.along (σ.inRoutine_scopes_ne_nil decl) _ hw inner rfl

end Names

/-! ### What a node needs -/

section Needs

variable {cls : EnclosingClass} {scopes : Scopes} {σ : Site} {id line : Nat}

theorem Scopes.broken_not_mem_occurrence (scopes : Scopes) (id : Nat) (name : String)
    (error : ScopeError) : .broken error ∉ scopes.occurrence id name := by
  intro h
  obtain ⟨hops, -, heq⟩ := mem_occurrence.mp h
  cases heq

/-- The walk accepts a variable that is not read in its own initializer. -/
theorem Expr.variable_clean_iff {name : Name} :
    (∀ error, .broken error ∉ (Expr.variable id name).own cls scopes) ↔
      ¬ scopes.isPending name.text := by
  simp [Expr.own, Expr.findings, Scopes.broken_not_mem_occurrence, Finding.at]

/-- The walk accepts `this` in a class. -/
theorem Expr.this_clean_iff :
    (∀ error, .broken error ∉ (Expr.this id line).own cls scopes) ↔ cls ≠ .nothing := by
  cases cls <;> simp [Expr.own, Expr.findings, Scopes.broken_not_mem_occurrence, Finding.at]

/-- The walk accepts `super` in a class with a superclass. -/
theorem Expr.super_clean_iff {method : Name} :
    (∀ error, .broken error ∉ (Expr.super id line method).own cls scopes) ↔ cls = .derived := by
  cases cls <;> simp [Expr.own, Expr.findings, Scopes.broken_not_mem_occurrence, Finding.at]

/-- The walk accepts a return from a function, without a value from an initializer. -/
theorem Stmt.return_clean_iff {value : Option Expr} :
    (∀ error, .broken error ∉ (Stmt.return line value).own σ) ↔
      σ.context.routine ≠ .nothing ∧ (σ.context.routine = .initializer → value = none) := by
  cases hroutine : σ.context.routine <;> cases value <;>
    simp [Stmt.own, hroutine, Finding.at]

/-- The walk accepts a class with a name of its own. -/
theorem Stmt.class_clean_iff {name : Name} {superclass : Option Superclass}
    {methods : List FunctionDecl} :
    (∀ error, .broken error ∉ (Stmt.class name superclass methods).own σ) ↔
      σ.scopes.declaration name = [] ∧ ∀ s ∈ superclass, s.name.text ≠ name.text := by
  simp only [Stmt.own, List.mem_append, not_or, forall_and]
  refine and_congr ?_ ?_
  · by_cases h : σ.scopes.innermostDeclares name.text <;> simp [Scopes.declaration, h, Finding.at]
  · cases superclass with
    | none => simp
    | some s => by_cases h : s.name.text = name.text <;> simp [h, Finding.at]

end Needs

theorem Enclosing.ofRoutine_iff {routine : Option (FunctionDecl × Bool)} {value : Option Expr} :
    (ofRoutine routine ≠ .nothing ∧ (ofRoutine routine = .initializer → value = none)) ↔
      ∃ decl isMethod, routine = some (decl, isMethod) ∧
        (isMethod = true → decl.name.text = initializerName → value = none) := by
  match routine with
  | none => simp [ofRoutine]
  | some (decl, false) => simp [ofRoutine]
  | some (decl, true) =>
    by_cases h : decl.name.text = initializerName <;> simp [ofRoutine, ofMethod, h]

theorem EnclosingClass.ofClass_ne_nothing_iff {superclass : Option (Option Superclass)} :
    ofClass superclass ≠ .nothing ↔ superclass ≠ none := by
  match superclass with
  | none | some none | some (some _) => simp [ofClass]

theorem EnclosingClass.ofClass_eq_derived_iff {superclass : Option (Option Superclass)} :
    ofClass superclass = .derived ↔ ∃ s, superclass = some (some s) := by
  match superclass with
  | none | some none | some (some _) => simp [ofClass]

/-! ### The walk and the rules -/

section Accepts

variable {body : List Stmt}

theorem Clean.expr (h : Clean body) {e : Expr} {σ : Site} (hv : Visited body ⟨.expr e, σ⟩) :
    ∀ error, .broken error ∉ e.own σ.context.cls σ.scopes :=
  h hv

theorem Clean.stmt (h : Clean body) {s : Stmt} {σ : Site} (hv : Visited body ⟨.stmt s, σ⟩) :
    ∀ error, .broken error ∉ s.own σ :=
  h hv

/-- A program in which nothing is found breaks no rule. -/
theorem Clean.lawful (h : Clean body) : Lawful body where
  declaredOnce hoccurs := by
    obtain ⟨σ, hv, -⟩ := hoccurs.exists_visited
    exact h.nodup_declared hv
  notReadEarly := by
    intro above name initializer id read hoccurs hlocal hwithin heq
    obtain ⟨σ, hv, hlies⟩ := hoccurs.exists_visited
    have hlocal : σ.scopes ≠ [] := (hlies.isLocal _ rfl).mpr hlocal
    have hread : Visited body ⟨.expr (.variable id read), σ.ofInitializer name⟩ :=
      hwithin.visited hv.initializer
    refine Expr.variable_clean_iff.mp (h.expr hread) ?_
    have hnew := h.declaration_eq_nil hv (List.Subset.refl _)
    rw [heq]
    refine Scopes.isPending_declare hlocal fun hdeclares => ?_
    rw [Scopes.declaration, if_pos hdeclares] at hnew
    cases hnew
  returns hoccurs := by
    obtain ⟨σ, hv, hlies⟩ := hoccurs.exists_visited
    have hclean := Stmt.return_clean_iff.mp (h.stmt hv)
    rw [hlies.routine] at hclean
    exact Enclosing.ofRoutine_iff.mp hclean
  this hoccurs := by
    obtain ⟨σ, hv, hlies⟩ := hoccurs.exists_visited
    have hclean := Expr.this_clean_iff.mp (h.expr hv)
    rw [hlies.cls] at hclean
    exact EnclosingClass.ofClass_ne_nothing_iff.mp hclean
  super hoccurs := by
    obtain ⟨σ, hv, hlies⟩ := hoccurs.exists_visited
    have hclean := Expr.super_clean_iff.mp (h.expr hv)
    rw [hlies.cls] at hclean
    exact EnclosingClass.ofClass_eq_derived_iff.mp hclean
  inherits hoccurs := by
    obtain ⟨σ, hv, -⟩ := hoccurs.exists_visited
    exact (Stmt.class_clean_iff.mp (h.stmt hv)).2 _ rfl

/-- In a program that breaks no rule every declaration is the first of its name in its scope. -/
theorem Lawful.declaration_eq_nil (h : Lawful body) {s : Stmt} {σ : Site}
    (hv : Visited body ⟨.stmt s, σ⟩) {name : Name} (hdeclared : s.declared = [name]) :
    σ.scopes.declaration name = [] := by
  by_cases hlocal : σ.scopes = []
  · rw [hlocal]
    rfl
  · have hfresh := h.freshIn hv s rfl hlocal
    rw [hdeclared] at hfresh
    exact FreshIn.declaration_iff.mpr hfresh

/-- Nothing is found at an expression of a program that breaks no rule. -/
theorem Lawful.expr_clean (h : Lawful body) {e : Expr} {σ : Site}
    (hv : Visited body ⟨.expr e, σ⟩) : ∀ error, .broken error ∉ e.own σ.context.cls σ.scopes := by
  obtain ⟨above, hoccurs, hlies⟩ := hv.exists_occurs
  cases e with
  | «variable» id name =>
    refine Expr.variable_clean_iff.mpr fun hpending => ?_
    obtain ⟨declared, initializer, τ, hdeclaration, hlocal, htext, hwithin⟩ :=
      hv.initializer_of_isPending rfl hpending
    obtain ⟨above, hoccurs, hlies⟩ := hdeclaration.exists_occurs
    exact h.notReadEarly hoccurs ((hlies.isLocal _ rfl).mp hlocal) hwithin htext.symm
  | this id line =>
    rw [Expr.this_clean_iff, hlies.cls, EnclosingClass.ofClass_ne_nothing_iff]
    exact h.this hoccurs
  | super id line method =>
    rw [Expr.super_clean_iff, hlies.cls, EnclosingClass.ofClass_eq_derived_iff]
    exact h.super hoccurs
  | assign id name _ => exact Scopes.broken_not_mem_occurrence σ.scopes id name.text
  | literal _ | grouping _ | unary _ _ _ | binary _ _ _ _ | logical _ _ _ _ | ternary _ _ _
  | call _ _ _ | get _ _ | set _ _ _ => exact fun _ => List.not_mem_nil

/-- Nothing is found at a statement of a program that breaks no rule. -/
theorem Lawful.stmt_clean (h : Lawful body) {s : Stmt} {σ : Site}
    (hv : Visited body ⟨.stmt s, σ⟩) : ∀ error, .broken error ∉ s.own σ := by
  obtain ⟨above, hoccurs, hlies⟩ := hv.exists_occurs
  cases s with
  | «variable» _ _ | function _ =>
    rw [Stmt.own, h.declaration_eq_nil hv rfl]
    exact fun _ => List.not_mem_nil
  | «return» line value =>
    have hroutine : σ.context.routine = .ofRoutine (innermostRoutine? above) := hlies.routine
    rw [Stmt.return_clean_iff, hroutine]
    exact Enclosing.ofRoutine_iff.mpr (h.returns hoccurs)
  | «class» name superclass methods =>
    refine Stmt.class_clean_iff.mpr ⟨h.declaration_eq_nil hv rfl, fun s hs => ?_⟩
    obtain rfl : superclass = some s := hs
    exact h.inherits hoccurs
  | expression _ | block _ | ifThen _ _ | ifElse _ _ _ | «while» _ _ =>
    exact fun _ => List.not_mem_nil

/-- Nothing is found in a program that breaks no rule. -/
theorem Lawful.clean (h : Lawful body) : Clean body := by
  intro v hv
  match v with
  | ⟨.expr e, σ⟩ => exact h.expr_clean hv
  | ⟨.stmt s, σ⟩ => exact h.stmt_clean hv
  | ⟨.routine decl, σ⟩ =>
    obtain ⟨above, hoccurs, -⟩ := hv.exists_occurs
    have hparams := (FreshIn.routine_iff.mp (.of_nodup (h.declaredOnce hoccurs) σ.scopes)).1
    rw [Visit.own, (FreshIn.parameterFindings_iff (List.cons_ne_nil _ _)).mpr hparams]
    exact fun _ => List.not_mem_nil

end Accepts

/-- **The rules about scopes.** The walk over a program finds no broken rule if and only if the
program is lawful: no local scope declares a name twice, no local variable is read in its own
initializer, every `return` stands in a function and has no value in an initializer, every `this`
stands in a class, every `super` in a class with a superclass, and no class is its own superclass. -/
theorem errors_programFindings_eq_nil_iff (body : List Stmt) :
    Finding.errors (programFindings body) = [] ↔ Lawful body := by
  rw [clean_iff]
  exact ⟨Clean.lawful, Lawful.clean⟩

-- A global name may be declared again, an inner scope may declare the name of an outer one, and a
-- plain function named `init` may return a value.
example : Finding.errors (programFindings
    [.variable ⟨"a", 1⟩ none, .variable ⟨"a", 1⟩ none,
      .block [.variable ⟨"a", 2⟩ none, .block [.variable ⟨"a", 2⟩ none]],
      .function ⟨⟨"init", 3⟩, [⟨"a", 3⟩], [.return 3 (some (.variable 0 ⟨"a", 3⟩))]⟩]) = [] := by
  decide

end Treewalk
