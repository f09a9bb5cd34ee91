import Treewalk.Proofs.Scope.Recording
import Treewalk.Proofs.Scope.Sites

/-!
# Programs whose distances are found out

A program that breaks no rule, all of whose distances are recorded, is *resolved*. At each of its
nodes the open scopes are in order, and the recorded distance of an occurrence leads to the scope
that declares its name.

A running program comes to the nodes of a resolved program at the sites of its visits, with one
exception: the superclass of a class declaration is evaluated before the name of the class is bound,
while the walk visits it afterwards. Since no class inherits from itself, that makes no difference to
the distance of the superclass.

## Main definitions

* `Resolved`, `Visit.Resolved`: programs and visits whose distances are found out.
* `Met`: the visits of a program, with superclasses where a running program comes to them.

## Main results

* `Visit.Resolved.part`, `Resolved.visit`: the parts of a visit and the visits of a program.
* `Resolved.get?_occurrence`: the distance that is recorded for an occurrence.
* `Met.part`, `Resolved.fits`: what is known of visits is known wherever the running program comes.
* `Met.visited`: the walk visits the same node, in as many scopes.
-/

namespace Treewalk

/-- A program that has the shape of programs and breaks no rule, with its distances recorded. -/
structure Resolved (ds : Distances) (body : List Stmt) : Prop where
  proper : ∀ s ∈ body, s.Proper
  clean : ∀ error, .broken error ∉ programFindings body
  recorded : Recorded ds (Stmt.idsAll body) (programFindings body)

/-- A visit that breaks no rule, with its distances recorded, where the scopes are in order. -/
structure Visit.Resolved (ds : Distances) (v : Visit) : Prop where
  recorded : Recorded ds v.ids v.findings
  clean : ∀ error, .broken error ∉ v.findings
  fits : v.Fits

/-- The visits of a program, and its superclasses at the sites of the classes. -/
inductive Met (body : List Stmt) : Visit → Prop
  /-- The walk visits the node just there. -/
  | visit {v : Visit} (h : Visited body v) : Met body v
  /-- A superclass before the name of the class is introduced. -/
  | superclass {name : Name} {s : Superclass} {methods : List FunctionDecl} {σ : Site}
      (h : Visited body ⟨.stmt (.class name (some s) methods), σ⟩) : Met body ⟨.expr s.expr, σ⟩

/-! ### Visits -/

namespace Visit.Resolved

variable {ds : Distances} {v w : Visit}

theorem part (h : v.Resolved ds) (hw : w ∈ v.parts) : w.Resolved ds where
  recorded := h.recorded.part hw
  clean error herror := h.clean error (Visit.mem_findings.mpr (.inr ⟨w, hw, herror⟩))
  fits := h.fits.part hw

theorem within (h : v.Resolved ds) (hw : v.Within w) : w.Resolved ds := by
  induction hw with
  | self => exact h
  | part hw _ ih => exact ih (h.part hw)

/-- What is recorded for an occurrence is the way outward to the scope that declares its name. -/
theorem get?_occurrence {e : Expr} {σ : Site} {id : Nat} {name : String}
    (h : Visit.Resolved ds ⟨.expr e, σ⟩) (he : e.occurrence? = some (id, name)) :
    ds.get? id = σ.scopes.distance? name :=
  h.recorded.get?_occurrence (fun error herror => h.clean error (Visit.mem_findings.mpr (.inl herror)))
    he

end Visit.Resolved

theorem Resolved.visit {ds : Distances} {body : List Stmt} {v : Visit} (h : Resolved ds body)
    (hv : Visited body v) : v.Resolved ds where
  recorded := h.recorded.visited hv
  clean error herror := h.clean error (hv.findings_subset herror)
  fits := hv.fits h.proper

/-! ### Names other than the introduced one -/

namespace Scopes

theorem length_introduce (scopes : Scopes) (name : Name) :
    (scopes.introduce name).length = scopes.length := by
  cases scopes with
  | nil => rfl
  | cons scope outer =>
    obtain ⟨inner, heq, -⟩ := introduce_cons scope outer name
    rw [heq, List.length_cons, List.length_cons]

theorem distance?_introduce (scopes : Scopes) {name : Name} {other : String}
    (hne : other ≠ name.text) : (scopes.introduce name).distance? other = scopes.distance? other := by
  cases scopes with
  | nil => rfl
  | cons scope outer =>
    obtain ⟨inner, heq, hdeclares, -⟩ := introduce_cons scope outer name
    have hinner : inner.declares other = scope.declares other :=
      Bool.eq_iff_iff.mpr ((hdeclares other).trans (or_iff_right hne))
    rw [heq, distance?_cons, distance?_cons, hinner]

end Scopes

/-! ### Where the running program comes -/

namespace Met

variable {body : List Stmt} {v w : Visit}

theorem part (h : Met body v) (hw : w ∈ v.parts) : Met body w := by
  cases h with
  | visit h => exact .visit (h.part hw)
  | superclass => exact absurd hw List.not_mem_nil

theorem superclassOf {name : Name} {s : Superclass} {methods : List FunctionDecl} {σ : Site}
    (h : Met body ⟨.stmt (.class name (some s) methods), σ⟩) : Met body ⟨.expr s.expr, σ⟩ := by
  cases h with
  | visit h => exact .superclass h

/-- The walk visits the same node in as many scopes, which declare the same names when the walk
leaves them. -/
theorem visited (h : Met body v) : ∃ σ, Visited body ⟨v.node, σ⟩ ∧
    σ.scopes.length = v.site.scopes.length ∧ σ.closed = v.site.closed := by
  cases h with
  | visit h => exact ⟨_, h, rfl, rfl⟩
  | @superclass name s methods σ h =>
    have hpart : ⟨.expr s.expr, σ.ofSuperclass name⟩ ∈
        Visit.parts ⟨.stmt (.class name (some s) methods), σ⟩ := List.mem_cons_self
    exact ⟨_, h.part hpart, Scopes.length_introduce .., rfl⟩

/-- What is no variable is met only where the walk visits it. -/
theorem visited_of_ne (h : Met body v) (hne : ∀ id name, v.node ≠ .expr (.variable id name)) :
    Visited body v := by
  cases h with
  | visit h => exact h
  | @superclass _ s => exact absurd rfl (hne s.id s.name)

end Met

namespace Resolved

variable {ds : Distances} {body : List Stmt} {v : Visit}

/-- Distances of other programs do not matter. -/
theorem of_get?_eq (h : Resolved ds body) {ds' : Distances}
    (heq : ∀ id ∈ Stmt.idsAll body, ds'.get? id = ds.get? id) : Resolved ds' body :=
  ⟨h.proper, h.clean,
    h.recorded.of_get?_eq (fun _ _ hmem => mem_idsAll_of_mem_programFindings hmem) heq⟩

theorem not_mem_own (h : Resolved ds body) (hv : Visited body v) (error : ScopeError) :
    .broken error ∉ v.own :=
  fun hmem => h.clean error (mem_programFindings.mpr ⟨v, hv, hmem⟩)

/-- No class inherits from itself. -/
theorem superclass_ne (h : Resolved ds body) {name : Name} {s : Superclass}
    {methods : List FunctionDecl} {σ : Site}
    (hv : Visited body ⟨.stmt (.class name (some s) methods), σ⟩) : s.name.text ≠ name.text := by
  intro heq
  refine h.not_mem_own hv ⟨s.name, .inheritsFromItself⟩ (List.mem_append_right _ ?_)
  simp [heq, Finding.at]

/-- In a resolved program the scopes are in order wherever the running program comes. -/
theorem fits (h : Resolved ds body) (hv : Met body v) : v.Fits := by
  cases hv with
  | visit hv => exact hv.fits h.proper
  | superclass hv =>
    cases hv.fits h.proper with
    | stmt hpaired hsettled => exact .ofSettled hpaired hsettled trivial

/-- The distance recorded for an occurrence is the way outward to the scope that declares its
name. -/
theorem get?_occurrence (h : Resolved ds body) {e : Expr} {σ : Site} {id : Nat} {name : String}
    (hv : Met body ⟨.expr e, σ⟩) (he : e.occurrence? = some (id, name)) :
    ds.get? id = σ.scopes.distance? name := by
  cases hv with
  | visit hv => exact (h.recorded.visited hv).get?_occurrence (h.not_mem_own hv) he
  | @superclass class' s methods _ hv =>
    have hpart : ⟨.expr s.expr, σ.ofSuperclass class'⟩ ∈
        Visit.parts ⟨.stmt (.class class' (some s) methods), σ⟩ := List.mem_cons_self
    have hrecorded := (h.recorded.visited (hv.part hpart)).get?_occurrence
      (h.not_mem_own (hv.part hpart)) he
    cases he
    exact hrecorded.trans (Scopes.distance?_introduce σ.scopes (h.superclass_ne hv))

/-- No occurrence other than an assignment stands in the initializer of its own name. -/
theorem not_isPending (h : Resolved ds body) {e : Expr} {σ : Site} {id : Nat} {name : String}
    (hv : Met body ⟨.expr e, σ⟩) (he : e.occurrence? = some (id, name))
    (hassign : ∀ target value, e ≠ .assign id target value) : ¬ σ.scopes.isPending name := by
  intro hpending
  cases h.fits hv with
  | expr hpaired houter hwords =>
    cases e with
    | «variable» number target =>
      cases he
      cases hv with
      | visit hv =>
        refine h.not_mem_own hv ⟨target, .readInInitializer⟩ (List.mem_append_left _ ?_)
        rw [if_pos hpending]
        exact List.mem_singleton_self _
      | superclass hv =>
        cases h.fits (.visit hv) with
        | stmt _ hsettled => exact hsettled.not_isPending _ hpending
    | assign number target value =>
      cases he
      exact hassign target value rfl
    | this number line =>
      cases he
      exact hwords .thisWord hpending
    | super number line method =>
      cases he
      exact hwords .superWord hpending
    | _ => cases he

end Resolved

end Treewalk
