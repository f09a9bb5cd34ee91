import Treewalk.Proofs.Scope.Shape
import Treewalk.Proofs.Scope.Walk

/-!
# Scopes at the nodes of a program

What the open scopes look like where the walk comes to a node of a program that breaks no rule. All
declared names are ready, except the one whose initializer the node stands in; a scope that declares
`super` stands just around one that declares `this`; and what a statement declares is declared when
the walk leaves its scope.

These facts rest on the shape of programs.

## Main definitions

* `Scope.isReady`, `Scopes.Settled`, `Scopes.Paired`: facts about scopes.
* `Visit.Fits`: what holds of the scopes at a node.

## Main results

* `Scopes.Paired.this_of_super`: where `this` lies for an occurrence of `super`.
* `Visit.Fits.part`: what holds at a node holds at its parts.
* `Visited.fits`: it holds at all visits of a program.
-/

namespace Treewalk

/-! ### Names of a scope -/

namespace Scope

/-- Whether a scope declares a name that is ready. -/
def isReady (scope : Scope) (name : String) : Bool :=
  scope.lookup name == some true

/-- Whether all names of a scope are ready. -/
def Settled (scope : Scope) : Prop :=
  ∀ name, scope.declares name → scope.isReady name

/-- Whether a scope declares all names of another one. -/
def Covers (scope other : Scope) : Prop :=
  ∀ name, other.declares name → scope.declares name

theorem lookup_enter (scope : Scope) (name other : String) (ready : Bool) :
    (scope.enter name ready).lookup other =
      if other = name then some ready else scope.lookup other := by
  by_cases h : other = name
  · subst h
    simp [enter]
  · have hne : (other == name) = false := by simpa using h
    simp only [enter, List.lookup_cons, hne, h, if_false]
    induction scope with
    | nil => rfl
    | cons p rest ih =>
      obtain ⟨key, flag⟩ := p
      by_cases hkey : key = name
      · subst hkey
        simp [List.lookup_cons, hne, ih]
      · simp [List.lookup_cons, hkey, ih]

theorem declares_eq_isSome (scope : Scope) (name : String) :
    scope.declares name = (scope.lookup name).isSome := by
  induction scope with
  | nil => rfl
  | cons p rest ih =>
    obtain ⟨key, flag⟩ := p
    by_cases hkey : key = name
    · subst hkey
      simp [declares]
    · have hne : (name == key) = false := by simpa using Ne.symm hkey
      have hne' : (key == name) = false := by simpa using hkey
      simpa [declares, List.lookup_cons, hne, hne'] using ih

variable {scope : Scope} {name other : String} {ready : Bool}

theorem declares_of_isReady (h : scope.isReady name) : scope.declares name := by
  rw [isReady, beq_iff_eq] at h
  rw [declares_eq_isSome, h]
  rfl

/-- A declared name is either ready or pending. -/
theorem isReady_or_isPending (h : scope.declares name) :
    scope.isReady name ∨ scope.isPending name := by
  rw [declares_eq_isSome, Option.isSome_iff_exists] at h
  obtain ⟨flag, h⟩ := h
  cases flag with
  | false => exact .inr (by rw [isPending, h]; rfl)
  | true => exact .inl (by rw [isReady, h]; rfl)

theorem declares_of_isPending (h : scope.isPending name) : scope.declares name := by
  rw [isPending, beq_iff_eq] at h
  rw [declares_eq_isSome, h]
  rfl

theorem not_isReady_of_isPending (h : scope.isPending name) : ¬ scope.isReady name := by
  rw [isPending, beq_iff_eq] at h
  rw [isReady, h]
  decide

theorem declares_enter :
    (scope.enter name ready).declares other ↔ other = name ∨ scope.declares other := by
  rw [declares_eq_isSome, declares_eq_isSome, lookup_enter]
  split <;> simp_all

theorem isReady_enter :
    (scope.enter name ready).isReady other ↔
      if other = name then ready = true else scope.isReady other := by
  rw [isReady, isReady, lookup_enter]
  split <;> simp

theorem Settled.enter (h : scope.Settled) (name : String) : (scope.enter name true).Settled := by
  intro other hother
  rw [isReady_enter]
  split
  · rfl
  · next hne => exact h other ((declares_enter.mp hother).resolve_left hne)

theorem settled_nil : Settled [] :=
  fun _ h => absurd h Bool.false_ne_true

theorem not_isReady_nil (name : String) : ¬ isReady [] name :=
  Bool.false_ne_true

/-- In a scope with one name that is ready no other one is. -/
theorem eq_of_isReady_single {name other : String} (h : isReady [(name, true)] other) :
    other = name := by
  by_contra hne
  have hne' : (other == name) = false := by simpa using hne
  simp [isReady, List.lookup_cons, hne'] at h

/-- A name that is not ready gets no readier by being declared. -/
theorem isReady_enter_false (h : ¬ scope.isReady name) :
    (scope.enter name false).isReady other ↔ scope.isReady other := by
  rw [isReady_enter]
  split
  · next heq =>
    subst heq
    simp [h]
  · exact Iff.rfl

end Scope

/-! ### Open scopes -/

namespace Scopes

/-- Whether all names of all open scopes are ready. -/
def Settled (scopes : Scopes) : Prop :=
  ∀ scope ∈ scopes, scope.Settled

/-- Every scope that declares `super` stands just around one in which `this` is ready. -/
inductive Paired : Scopes → Prop
  | nil : Paired []
  | plain {scope : Scope} {outer : Scopes} (hscope : ¬ scope.declares "super")
      (houter : Paired outer) : Paired (scope :: outer)
  | derived {inner scope : Scope} {outer : Scopes} (hinner : ¬ inner.declares "super")
      (hthis : inner.isReady "this") (houter : Paired outer) : Paired (inner :: scope :: outer)

/-- A name is declared in the innermost scope or in one further out. -/
theorem distance?_cons (scope : Scope) (outer : Scopes) (name : String) :
    distance? (scope :: outer) name =
      if scope.declares name then some 0 else (distance? outer name).map (· + 1) := by
  rw [distance?, List.findIdx?_cons]
  rfl

theorem settled_nil : Settled [] :=
  fun _ h => absurd h List.not_mem_nil

theorem Settled.cons {scope : Scope} {scopes : Scopes} (h : Settled scopes)
    (hscope : scope.Settled) : Settled (scope :: scopes) :=
  List.forall_mem_cons.mpr ⟨hscope, h⟩

theorem Settled.append {inner outer : Scopes} (hinner : Settled inner) (houter : Settled outer) :
    Settled (inner ++ outer) :=
  List.forall_mem_append.mpr ⟨hinner, houter⟩

theorem Settled.tail {scopes : Scopes} (h : Settled scopes) : Settled scopes.tail :=
  fun scope hscope => h scope (List.mem_of_mem_tail hscope)

theorem tail_enter (scopes : Scopes) (name : String) (ready : Bool) :
    (scopes.enter name ready).tail = scopes.tail := by
  cases scopes <;> rfl

theorem tail_declare (scopes : Scopes) (name : Name) : (scopes.declare name).tail = scopes.tail := by
  unfold declare
  split
  · rfl
  · exact tail_enter ..

theorem tail_introduce (scopes : Scopes) (name : Name) :
    (scopes.introduce name).tail = scopes.tail :=
  (tail_enter ..).trans (tail_declare ..)

/-- The innermost scope after a name is declared. -/
theorem declare_cons (scope : Scope) (outer : Scopes) (name : Name) :
    Scopes.declare (scope :: outer) name =
      (if scope.declares name.text then scope else scope.enter name.text false) :: outer := by
  have hinnermost : innermostDeclares (scope :: outer) name.text = scope.declares name.text := rfl
  by_cases h : scope.declares name.text
  · rw [declare, hinnermost, if_pos h, if_pos h]
  · rw [declare, hinnermost, if_neg h, if_neg h, enter]

/-- The innermost scope after a name is introduced. -/
theorem introduce_cons (scope : Scope) (outer : Scopes) (name : Name) :
    ∃ inner : Scope, Scopes.introduce (scope :: outer) name = inner :: outer ∧
      (∀ other, inner.declares other ↔ other = name.text ∨ scope.declares other) ∧
      ∀ other, inner.isReady other ↔ other = name.text ∨ scope.isReady other := by
  refine ⟨_, by rw [introduce, declare_cons]; rfl, fun other => ?_, fun other => ?_⟩
  · rw [Scope.declares_enter]
    split
    · exact Iff.rfl
    · rw [Scope.declares_enter]
      exact ⟨fun h => h.elim .inl id, fun h => .inr h⟩
  · rw [Scope.isReady_enter]
    by_cases heq : other = name.text
    · simp [heq]
    · rw [if_neg heq]
      split
      · simp [heq]
      · rw [Scope.isReady_enter, if_neg heq]
        simp [heq]

/-- The innermost scope after names are introduced. -/
theorem introduceAll_cons (names : List Name) (scope : Scope) (outer : Scopes) :
    ∃ inner : Scope, Scopes.introduceAll (scope :: outer) names = inner :: outer ∧
      (∀ other, inner.declares other ↔ other ∈ names.map (·.text) ∨ scope.declares other) ∧
      ∀ other, inner.isReady other ↔ other ∈ names.map (·.text) ∨ scope.isReady other := by
  induction names generalizing scope with
  | nil => exact ⟨scope, rfl, fun _ => by simp, fun _ => by simp⟩
  | cons name names ih =>
    obtain ⟨middle, hmiddle, hdeclares, hready⟩ := introduce_cons scope outer name
    obtain ⟨inner, hinner, hdeclares', hready'⟩ := ih middle
    refine ⟨inner, ?_, fun other => ?_, fun other => ?_⟩
    · rw [← hinner, ← hmiddle]
      rfl
    · rw [hdeclares', hdeclares, List.map_cons, List.mem_cons, or_assoc, or_left_comm]
    · rw [hready', hready, List.map_cons, List.mem_cons, or_assoc, or_left_comm]

theorem Settled.introduce {scopes : Scopes} (h : Settled scopes) (name : Name) :
    Settled (scopes.introduce name) := by
  cases scopes with
  | nil => exact h
  | cons scope outer =>
    obtain ⟨hscope, houter⟩ := List.forall_mem_cons.mp h
    obtain ⟨inner, heq, hdeclares, hready⟩ := introduce_cons scope outer name
    rw [heq]
    refine Settled.cons houter fun other hother => ?_
    exact (hready other).mpr (((hdeclares other).mp hother).imp_right (hscope other))

theorem Settled.introduceAll (names : List Name) {scopes : Scopes} (h : Settled scopes) :
    Settled (scopes.introduceAll names) := by
  induction names generalizing scopes with
  | nil => exact h
  | cons name names ih => exact ih (h.introduce name)

/-- Nothing is pending in scopes whose names are all ready. -/
theorem Settled.not_isPending {scopes : Scopes} (h : Settled scopes) (name : String) :
    ¬ scopes.isPending name := by
  cases scopes with
  | nil => exact Bool.false_ne_true
  | cons scope outer =>
    intro hpending
    have hpending : scope.isPending name := hpending
    have hdeclares := Scope.declares_of_isPending hpending
    exact Scope.not_isReady_of_isPending hpending (h scope List.mem_cons_self name hdeclares)

/-- Only a name that has just been declared is pending. -/
theorem Settled.isPending_declare {scopes : Scopes} (h : Settled scopes) {name : Name}
    {other : String} (hpending : (scopes.declare name).isPending other) : other = name.text := by
  by_contra hne
  refine h.not_isPending other ?_
  unfold declare at hpending
  split at hpending
  · exact hpending
  · cases scopes with
    | nil => exact hpending
    | cons scope outer =>
      have hpending : (scope.enter name.text false).isPending other := hpending
      rw [Scope.isPending, Scope.lookup_enter, if_neg hne] at hpending
      exact hpending

end Scopes

/-! ### Scopes around `this` and `super` -/

namespace Scopes.Paired

variable {scopes : Scopes} {name : Name}

/-- Changing the innermost scope at a name that is not reserved keeps scopes paired. -/
theorem of_innermost {scope inner : Scope} {outer : Scopes} (h : Paired (scope :: outer))
    (hsuper : inner.declares "super" → scope.declares "super")
    (hthis : scope.isReady "this" → inner.isReady "this") : Paired (inner :: outer) := by
  cases h with
  | plain hscope houter => exact .plain (fun h => hscope (hsuper h)) houter
  | derived hinner h houter => exact .derived (fun h => hinner (hsuper h)) (hthis h) houter

theorem introduce (h : scopes.Paired) (hfree : name.IsFree) : (scopes.introduce name).Paired := by
  cases scopes with
  | nil => exact h
  | cons scope outer =>
    obtain ⟨inner, heq, hdeclares, hready⟩ := introduce_cons scope outer name
    rw [heq]
    refine h.of_innermost (fun hsuper => ?_) fun hthis => (hready _).mpr (.inr hthis)
    exact ((hdeclares _).mp hsuper).resolve_left (hfree.ne_text .superWord).symm

theorem introduceAll (names : List Name) {scopes : Scopes} (h : scopes.Paired)
    (hfree : ∀ name ∈ names, name.IsFree) : (scopes.introduceAll names).Paired := by
  induction names generalizing scopes with
  | nil => exact h
  | cons name names ih =>
    obtain ⟨hname, hnames⟩ := List.forall_mem_cons.mp hfree
    exact ih (h.introduce hname) hnames

theorem declare (h : scopes.Paired) (hfree : name.IsFree) : (scopes.declare name).Paired := by
  cases scopes with
  | nil => exact h
  | cons scope outer =>
    rw [declare_cons]
    split
    · exact h
    · refine h.of_innermost (fun hsuper => ?_) fun hthis => ?_
      · exact (Scope.declares_enter.mp hsuper).resolve_left (hfree.ne_text .superWord).symm
      · have hne : "this" ≠ name.text := (hfree.ne_text .thisWord).symm
        rw [Scope.isReady_enter, if_neg hne]
        exact hthis

theorem push (h : scopes.Paired) : Paired ([] :: scopes) :=
  .plain (fun h => absurd h Bool.false_ne_true) h

theorem classScopes (h : scopes.Paired) (superclass : Option Superclass) :
    Paired (Site.classScopes superclass ++ scopes) := by
  cases superclass with
  | none => exact .plain (by decide) h
  | some s => exact .derived (by decide) (by decide) h

/-- Just inside the scope that declares `super`, `this` is ready. -/
theorem this_of_super (h : scopes.Paired) {hops : Nat} (hhops : scopes.distance? "super" = some hops) :
    ∃ inward inner, hops = inward + 1 ∧ scopes[inward]? = some inner ∧ inner.isReady "this" := by
  induction h generalizing hops with
  | nil => cases hhops
  | @plain scope outer hscope _ ih =>
    rw [distance?_cons, if_neg hscope, Option.map_eq_some_iff] at hhops
    obtain ⟨outward, houtward, rfl⟩ := hhops
    obtain ⟨inward, inner, rfl, hinner, hthis⟩ := ih houtward
    exact ⟨inward + 1, inner, rfl, hinner, hthis⟩
  | @derived inner scope outer hinner hthis _ ih =>
    rw [distance?_cons, if_neg hinner, distance?_cons] at hhops
    split at hhops
    · cases hhops
      exact ⟨0, inner, rfl, rfl, hthis⟩
    · simp only [Option.map_map, Option.map_eq_some_iff] at hhops
      obtain ⟨outward, houtward, rfl⟩ := hhops
      obtain ⟨inward, further, rfl, hfurther, hready⟩ := ih houtward
      exact ⟨inward + 2, further, rfl, hfurther, hready⟩

end Scopes.Paired

/-! ### Scopes at nodes -/

/-- The parts of an expression that has the shape of expressions have it as well. -/
theorem Expr.Proper.part {e part : Expr} (h : e.Proper) (hpart : part ∈ e.parts) :
    part.Proper := by
  cases e with
  | literal _ | «variable» _ _ | this _ _ | super _ _ _ => cases hpart
  | grouping _ | unary _ _ _ | get _ _ =>
    obtain rfl := List.mem_singleton.mp hpart
    exact h
  | assign _ _ _ =>
    obtain rfl := List.mem_singleton.mp hpart
    exact h.2
  | binary _ _ _ _ | logical _ _ _ _ =>
    rcases List.mem_pair.mp hpart with rfl | rfl
    · exact h.1
    · exact h.2
  | set _ _ _ =>
    rcases List.mem_pair.mp hpart with rfl | rfl
    · exact h.2
    · exact h.1
  | ternary _ _ _ =>
    obtain ⟨hc, ht, hf⟩ := h
    rcases List.mem_cons.mp hpart with rfl | hpart
    · exact hc
    rcases List.mem_pair.mp hpart with rfl | rfl
    · exact ht
    · exact hf
  | call _ _ _ =>
    rcases List.mem_cons.mp hpart with rfl | hpart
    · exact h.1
    · exact Expr.properAll_iff.mp h.2 part hpart

namespace Scope.Covers

theorem refl (scope : Scope) : scope.Covers scope :=
  fun _ h => h

theorem trans {a b c : Scope} (h : a.Covers b) (h' : b.Covers c) : a.Covers c :=
  fun name hname => h name (h' name hname)

end Scope.Covers

theorem Scopes.innermost_introduce (scopes : Scopes) (name : Name) :
    (scopes.introduce name).innermost.Covers scopes.innermost := by
  cases scopes with
  | nil => exact Scope.Covers.refl _
  | cons scope outer =>
    obtain ⟨inner, heq, hdeclares, -⟩ := Scopes.introduce_cons scope outer name
    rw [heq]
    exact fun other hother => (hdeclares other).mpr (.inr hother)

/-- A statement takes no name away from the innermost scope. -/
theorem Stmt.innermost_after (s : Stmt) (scopes : Scopes) :
    (s.after scopes).innermost.Covers scopes.innermost := by
  match s with
  | .variable name _ => exact scopes.innermost_introduce name
  | .function decl => exact scopes.innermost_introduce decl.name
  | .class name _ _ => exact scopes.innermost_introduce name
  | .ifThen _ thenBranch => exact thenBranch.innermost_after scopes
  | .ifElse _ thenBranch elseBranch =>
    exact (elseBranch.innermost_after _).trans (thenBranch.innermost_after scopes)
  | .while _ body => exact body.innermost_after scopes
  | .expression _ | .block _ | .return _ _ => exact Scope.Covers.refl _

theorem Stmt.innermost_afterAll (body : List Stmt) (scopes : Scopes) :
    (Stmt.afterAll body scopes).innermost.Covers scopes.innermost := by
  induction body generalizing scopes with
  | nil => exact Scope.Covers.refl _
  | cons s ss ih => exact (ih (s.after scopes)).trans (s.innermost_after scopes)

/-- Outside of all scopes nothing is declared. -/
theorem Stmt.after_nil (s : Stmt) : s.after [] = [] := by
  match s with
  | .ifThen _ thenBranch => exact thenBranch.after_nil
  | .ifElse _ thenBranch elseBranch => rw [after, thenBranch.after_nil, elseBranch.after_nil]
  | .while _ body => exact body.after_nil
  | .variable .. | .function _ | .class .. | .expression _ | .block _ | .return _ _ => rfl

theorem Stmt.afterAll_nil (body : List Stmt) : Stmt.afterAll body [] = [] := by
  induction body with
  | nil => rfl
  | cons s ss ih => exact (congrArg (Stmt.afterAll ss) s.after_nil).trans ih

/-- What is no declaration leaves the scopes as they are. -/
theorem Stmt.after_of_not_isDeclaration {s : Stmt} (hproper : s.Proper)
    (h : s.isDeclaration = false) (scopes : Scopes) : s.after scopes = scopes := by
  match s with
  | .variable .. | .function _ | .class .. => cases h
  | .ifThen _ thenBranch =>
    exact thenBranch.after_of_not_isDeclaration hproper.2.2 hproper.2.1 scopes
  | .ifElse _ thenBranch elseBranch =>
    obtain ⟨-, ⟨hthen, hthen'⟩, helse, helse'⟩ := hproper
    exact (elseBranch.after_of_not_isDeclaration helse' helse _).trans
      (thenBranch.after_of_not_isDeclaration hthen' hthen scopes)
  | .while _ body => exact body.after_of_not_isDeclaration hproper.2.2 hproper.2.1 scopes
  | .expression _ | .block _ | .return _ _ => rfl

theorem Scopes.Settled.after {scopes : Scopes} (h : scopes.Settled) (s : Stmt) :
    (s.after scopes).Settled := by
  match s with
  | .variable name _ => exact h.introduce name
  | .function decl => exact h.introduce decl.name
  | .class name _ _ => exact h.introduce name
  | .ifThen _ thenBranch => exact h.after thenBranch
  | .ifElse _ thenBranch elseBranch => exact (h.after thenBranch).after elseBranch
  | .while _ body => exact h.after body
  | .expression _ | .block _ | .return _ _ => exact h

theorem Scopes.Paired.after {scopes : Scopes} (h : scopes.Paired) (s : Stmt) (hproper : s.Proper) :
    (s.after scopes).Paired := by
  match s with
  | .variable name _ => exact h.introduce hproper.1
  | .function ⟨name, params, body⟩ => exact h.introduce hproper.1
  | .class name _ _ => exact h.introduce hproper.1
  | .ifThen _ thenBranch => exact h.after thenBranch hproper.2.2
  | .ifElse _ thenBranch elseBranch =>
    obtain ⟨-, ⟨-, hthen⟩, -, helse⟩ := hproper
    exact (h.after thenBranch hthen).after elseBranch helse
  | .while _ body => exact h.after body hproper.2.2
  | .expression _ | .block _ | .return _ _ => exact h

/-- What holds of the open scopes where the walk comes to a node. -/
inductive Visit.Fits : Visit → Prop
  /-- At an expression, a name of the innermost scope may still be pending. -/
  | expr {e : Expr} {σ : Site} (hpaired : σ.scopes.Paired)
      (houter : Scopes.Settled σ.scopes.tail)
      (hwords : ∀ k : Keyword, ¬ σ.scopes.isPending k.text) (hproper : e.Proper) : Fits ⟨.expr e, σ⟩
  /-- What a statement declares is declared when the walk leaves the innermost scope. -/
  | stmt {s : Stmt} {σ : Site} (hpaired : σ.scopes.Paired) (hsettled : σ.scopes.Settled)
      (hproper : s.Proper)
      (hcovers : σ.closed.innermost.Covers (s.after σ.scopes).innermost) : Fits ⟨.stmt s, σ⟩
  /-- All names around a function are ready. -/
  | routine {decl : FunctionDecl} {σ : Site} (hpaired : σ.scopes.Paired)
      (hsettled : σ.scopes.Settled) (hproper : decl.Proper) : Fits ⟨.routine decl, σ⟩

theorem Visit.Fits.ofSettled {e : Expr} {σ : Site} (hpaired : σ.scopes.Paired)
    (hsettled : σ.scopes.Settled) (hproper : e.Proper) : Visit.Fits ⟨.expr e, σ⟩ :=
  .expr hpaired hsettled.tail (fun k => hsettled.not_isPending k.text) hproper

theorem Visit.Fits.of_expr {e : Expr} {σ : Site} (h : Visit.Fits ⟨.expr e, σ⟩) : e.Proper := by
  cases h with
  | expr _ _ _ hproper => exact hproper

theorem Visit.Fits.of_stmt {s : Stmt} {σ : Site} (h : Visit.Fits ⟨.stmt s, σ⟩) :
    s.Proper ∧ σ.closed.innermost.Covers (s.after σ.scopes).innermost := by
  cases h with
  | stmt _ _ hproper hcovers => exact ⟨hproper, hcovers⟩

/-- The parameters of a function are not reserved. -/
theorem Visit.Fits.of_routine {decl : FunctionDecl} {σ : Site} (h : Visit.Fits ⟨.routine decl, σ⟩) :
    ∀ p ∈ decl.params, p.IsFree := by
  obtain ⟨name, params, body⟩ := decl
  cases h with
  | routine _ _ hproper => exact hproper.2.1

namespace Site

/-- It holds at statements in order if it holds of the scopes at the first one and the scopes after
the last one are those that the walk leaves. -/
theorem fits_along {σ : Site} {ss : List Stmt} (hpaired : σ.scopes.Paired)
    (hsettled : σ.scopes.Settled) (hproper : ∀ s ∈ ss, s.Proper)
    (hcovers : σ.closed.innermost.Covers (Stmt.afterAll ss σ.scopes).innermost) :
    ∀ v ∈ σ.along ss, v.Fits := by
  induction ss generalizing σ with
  | nil => exact fun v hv => absurd hv List.not_mem_nil
  | cons s ss ih =>
    obtain ⟨hs, hss⟩ := List.forall_mem_cons.mp hproper
    refine List.forall_mem_cons.mpr ⟨.stmt hpaired hsettled hs ?_, ?_⟩
    · exact hcovers.trans (Stmt.innermost_afterAll ss (s.after σ.scopes))
    · exact ih (hpaired.after s hs) (hsettled.after s) hss hcovers

theorem settled_classScopes (superclass : Option Superclass) :
    Scopes.Settled (classScopes superclass) := by
  have hthis : Scope.Settled [("this", true)] := Scope.settled_nil.enter "this"
  have hsuper : Scope.Settled [("super", true)] := Scope.settled_nil.enter "super"
  cases superclass with
  | none => exact Scopes.settled_nil.cons hthis
  | some s => exact (Scopes.settled_nil.cons hsuper).cons hthis

end Site

/-- What holds at a node holds at its parts. -/
theorem Visit.Fits.part {v w : Visit} (h : v.Fits) (hw : w ∈ v.parts) : w.Fits := by
  cases h with
  | expr hpaired houter hwords hproper =>
    obtain ⟨part, hpart, rfl⟩ := List.mem_map.mp hw
    exact .expr hpaired houter hwords (hproper.part hpart)
  | @routine decl σ hpaired hsettled hproper =>
    obtain ⟨name, params, body⟩ := decl
    obtain ⟨_, hparams, hbody⟩ := hproper
    refine Site.fits_along (hpaired.push.introduceAll params hparams) ?_
      (Stmt.properAll_iff.mp hbody) (Scope.Covers.refl _) w hw
    exact (hsettled.cons Scope.settled_nil).introduceAll params
  | @stmt s σ hpaired hsettled hproper hcovers =>
    match s with
    | .expression e =>
      obtain rfl := List.mem_singleton.mp hw
      exact .ofSettled hpaired hsettled hproper
    | .variable name initializer =>
      obtain ⟨hfree, hinitializer⟩ := hproper
      obtain ⟨e, he, rfl⟩ := List.mem_map.mp hw
      refine .expr (hpaired.declare hfree) ?_ (fun k hpending => ?_)
        (hinitializer e (Option.mem_toList.mp he))
      · rw [Scopes.tail_declare]
        exact hsettled.tail
      · exact hfree.ne_text k (hsettled.isPending_declare hpending).symm
    | .block body =>
      exact Site.fits_along hpaired.push (hsettled.cons Scope.settled_nil)
        (Stmt.properAll_iff.mp hproper) (Scope.Covers.refl _) w hw
    | .ifThen condition thenBranch =>
      rcases List.mem_cons.mp hw with rfl | hw
      · exact .ofSettled hpaired hsettled hproper.1
      · obtain rfl := List.mem_singleton.mp hw
        exact .stmt hpaired hsettled hproper.2.2 hcovers
    | .ifElse condition thenBranch elseBranch =>
      obtain ⟨hcondition, ⟨hthen, hthen'⟩, helse, helse'⟩ := hproper
      have hafter := Stmt.after_of_not_isDeclaration hthen' hthen σ.scopes
      rcases List.mem_cons.mp hw with rfl | hw
      · exact .ofSettled hpaired hsettled hcondition
      rcases List.mem_cons.mp hw with rfl | hw
      · refine .stmt hpaired hsettled hthen' (hcovers.trans ?_)
        exact elseBranch.innermost_after (thenBranch.after σ.scopes)
      · obtain rfl := List.mem_singleton.mp hw
        exact .stmt (hpaired.after thenBranch hthen') (hsettled.after thenBranch) helse' hcovers
    | .while condition body =>
      rcases List.mem_cons.mp hw with rfl | hw
      · exact .ofSettled hpaired hsettled hproper.1
      · obtain rfl := List.mem_singleton.mp hw
        exact .stmt hpaired hsettled hproper.2.2 hcovers
    | .function ⟨name, params, body⟩ =>
      obtain rfl := List.mem_singleton.mp hw
      exact .routine (hpaired.introduce hproper.1) (hsettled.introduce name) hproper
    | .return line value =>
      obtain ⟨e, he, rfl⟩ := List.mem_map.mp hw
      exact .ofSettled hpaired hsettled (hproper e (Option.mem_toList.mp he))
    | .class name superclass methods =>
      have hpaired' := hpaired.introduce hproper.1
      have hsettled' := hsettled.introduce name
      rcases List.mem_append.mp hw with hw | hw
      · obtain ⟨s, _, rfl⟩ := List.mem_map.mp hw
        exact .ofSettled hpaired' hsettled' trivial
      · obtain ⟨m, hm, rfl⟩ := List.mem_map.mp hw
        exact .routine (hpaired'.classScopes superclass)
          ((Site.settled_classScopes superclass).append hsettled')
          (Stmt.properMethods_iff.mp hproper.2 m hm)

/-- It holds at all visits of a program. -/
theorem Visited.fits {body : List Stmt} (hproper : ∀ s ∈ body, s.Proper) {v : Visit}
    (hv : Visited body v) : v.Fits := by
  induction hv with
  | statement hv =>
    refine Site.fits_along .nil Scopes.settled_nil hproper ?_ _ hv
    change Scope.Covers [] (Stmt.afterAll body []).innermost
    rw [Stmt.afterAll_nil]
    exact Scope.Covers.refl _
  | part _ hw ih => exact ih.part hw

end Treewalk
