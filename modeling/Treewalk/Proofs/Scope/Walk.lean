import Treewalk.Proofs.Syntax.Numbering
import Treewalk.Scope

/-!
# The walk over a program, node by node

The walk that finds out distances and broken rules stands at each node of a program in turn, with
certain scopes open. A *visit* is a node together with the *site* at which the walk comes to it: what
the node stands in, the open scopes, and what these scopes declare when the walk leaves them. Each
node is followed by its *parts*, which the walk visits next, each at a site of its own; a node has
findings of its own besides those of its parts.

So the findings of a program are those of its visits, and what holds of the statements of a program
and passes from a node to its parts holds of all visits.

## Main definitions

* `Node`, `Site`, `Visit`: nodes, and where the walk comes to them.
* `Visit.parts`, `Visit.own`: what the walk visits next, and the findings of the node itself.
* `Visited`: the visits of a program.
* `Expr.occurrence?`: the number and the name of an occurrence.

## Main results

* `Visit.mem_findings`, `mem_programFindings`: where findings come from.
* `Visit.ids_perm`: where node numbers come from.
-/

namespace Treewalk

/-! ### Scopes after a statement -/

/-- The scopes after a name is declared and has become ready. -/
def Scopes.introduce (scopes : Scopes) (name : Name) : Scopes :=
  (scopes.declare name).define name

/-- The scopes after parameters. -/
def Scopes.introduceAll (scopes : Scopes) (names : List Name) : Scopes :=
  names.foldl Scopes.introduce scopes

/-- What the innermost scope declares. -/
def Scopes.innermost (scopes : Scopes) : Scope :=
  scopes.headD []

/-- The scopes after a statement. -/
def Stmt.after : Stmt → Scopes → Scopes
  | .variable name _, scopes => scopes.introduce name
  | .function decl, scopes => scopes.introduce decl.name
  | .class name _ _, scopes => scopes.introduce name
  | .ifThen _ thenBranch, scopes => thenBranch.after scopes
  | .ifElse _ thenBranch elseBranch, scopes => elseBranch.after (thenBranch.after scopes)
  | .while _ body, scopes => body.after scopes
  | .expression _, scopes => scopes
  | .block _, scopes => scopes
  | .return _ _, scopes => scopes

/-- The scopes after statements. -/
def Stmt.afterAll (body : List Stmt) (scopes : Scopes) : Scopes :=
  body.foldl (fun scopes s => s.after scopes) scopes

@[simp] theorem parameterFindings_snd (names : List Name) (scopes : Scopes) :
    (parameterFindings scopes names).2 = scopes.introduceAll names := by
  induction names generalizing scopes with
  | nil => rfl
  | cons name names ih => exact ih (scopes.introduce name)

@[simp] theorem Stmt.findings_snd (context : Context) (scopes : Scopes) (s : Stmt) :
    (s.findings context scopes).2 = s.after scopes := by
  match s with
  | .variable .. | .function _ | .expression _ | .block _ | .return .. =>
    simp only [Stmt.findings, Stmt.after, Scopes.introduce]
  | .class _ none _ => simp only [Stmt.findings, Stmt.after, Scopes.introduce]
  | .class _ (some _) _ => simp only [Stmt.findings, Stmt.after, Scopes.introduce]
  | .ifThen _ thenBranch => exact thenBranch.findings_snd context scopes
  | .ifElse _ thenBranch elseBranch =>
    have hthen := thenBranch.findings_snd context scopes
    have helse := elseBranch.findings_snd context (thenBranch.after scopes)
    simp only [Stmt.findings, Stmt.after, hthen, helse]
  | .while _ body => exact body.findings_snd context scopes

@[simp] theorem Stmt.findingsAll_snd (context : Context) (scopes : Scopes) (body : List Stmt) :
    (Stmt.findingsAll context scopes body).2 = Stmt.afterAll body scopes := by
  induction body generalizing scopes with
  | nil => rfl
  | cons s ss ih => simp only [Stmt.findingsAll, Stmt.findings_snd, ih, Stmt.afterAll, List.foldl_cons]

/-! ### Visits -/

/-- A node of a program: an expression, a statement, or a function without its name. -/
inductive Node
  | expr (e : Expr)
  | stmt (s : Stmt)
  | routine (decl : FunctionDecl)

/-- Where the walk over a program comes to a node. -/
structure Site where
  /-- What the node stands in. -/
  context : Context
  /-- The open scopes. -/
  scopes : Scopes
  /-- What the open scopes declare when the walk leaves them. -/
  closed : Scopes

/-- A node together with where the walk comes to it. -/
structure Visit where
  /-- The node. -/
  node : Node
  /-- Where the walk comes to it. -/
  site : Site

namespace Site

/-- The site of the first statement of a program. -/
def outermost : Site :=
  ⟨.outermost, [], []⟩

/-- The visits of statements in order. -/
def along (σ : Site) : List Stmt → List Visit
  | [] => []
  | s :: ss => ⟨.stmt s, σ⟩ :: along { σ with scopes := s.after σ.scopes } ss

/-- The site of the first statement of a block. -/
def inBlock (σ : Site) (body : List Stmt) : Site where
  context := σ.context
  scopes := [] :: σ.scopes
  closed := (Stmt.afterAll body ([] :: σ.scopes)).innermost :: σ.closed

/-- The scopes at the beginning of the body of a function. -/
def parameterScopes (σ : Site) (decl : FunctionDecl) : Scopes :=
  Scopes.introduceAll ([] :: σ.scopes) decl.params

/-- The site of the first statement of the body of a function. -/
def inRoutine (σ : Site) (decl : FunctionDecl) : Site where
  context := σ.context
  scopes := σ.parameterScopes decl
  closed := (Stmt.afterAll decl.body (σ.parameterScopes decl)).innermost :: σ.closed

/-- The site of a function that a declaration makes. -/
def ofFunction (σ : Site) (decl : FunctionDecl) : Site where
  context := { σ.context with routine := .function }
  scopes := σ.scopes.introduce decl.name
  closed := σ.closed

/-- The site of a superclass: the name of the class is ready. -/
def ofSuperclass (σ : Site) (name : Name) : Site where
  context := { σ.context with cls := .derived }
  scopes := σ.scopes.introduce name
  closed := σ.closed

/-- The scopes around the methods of a class. -/
def classScopes (superclass : Option Superclass) : Scopes :=
  superclass.elim [[("this", true)]] fun _ => [[("this", true)], [("super", true)]]

/-- The site of a method of a class. -/
def ofMethod (σ : Site) (name : Name) (superclass : Option Superclass) (m : FunctionDecl) :
    Site where
  context := ⟨.ofMethod m.name.text, superclass.elim .base fun _ => .derived⟩
  scopes := classScopes superclass ++ σ.scopes.introduce name
  closed := classScopes superclass ++ σ.closed

end Site

/-- The parts of an expression, in the order of the walk. -/
def Expr.parts : Expr → List Expr
  | .literal _ => []
  | .grouping inner => [inner]
  | .unary _ _ operand => [operand]
  | .binary _ _ left right => [left, right]
  | .logical _ _ left right => [left, right]
  | .ternary condition whenTrue whenFalse => [condition, whenTrue, whenFalse]
  | .variable _ _ => []
  | .assign _ _ value => [value]
  | .call callee _ arguments => callee :: arguments
  | .get object _ => [object]
  | .set object _ value => [value, object]
  | .this _ _ => []
  | .super _ _ _ => []

/-- The number of an occurrence and the name that it is an occurrence of. -/
def Expr.occurrence? : Expr → Option (Nat × String)
  | .variable id name => some (id, name.text)
  | .assign id name _ => some (id, name.text)
  | .this id _ => some (id, "this")
  | .super id _ _ => some (id, "super")
  | _ => none

/-- The parts of a statement at a site, in the order of the walk. -/
def Stmt.parts (σ : Site) : Stmt → List Visit
  | .expression e => [⟨.expr e, σ⟩]
  | .variable name initializer =>
    initializer.toList.map fun e => ⟨.expr e, { σ with scopes := σ.scopes.declare name }⟩
  | .block body => (σ.inBlock body).along body
  | .ifThen condition thenBranch => [⟨.expr condition, σ⟩, ⟨.stmt thenBranch, σ⟩]
  | .ifElse condition thenBranch elseBranch =>
    [⟨.expr condition, σ⟩, ⟨.stmt thenBranch, σ⟩,
      ⟨.stmt elseBranch, { σ with scopes := thenBranch.after σ.scopes }⟩]
  | .while condition body => [⟨.expr condition, σ⟩, ⟨.stmt body, σ⟩]
  | .function decl => [⟨.routine decl, σ.ofFunction decl⟩]
  | .return _ value => value.toList.map fun e => ⟨.expr e, σ⟩
  | .class name superclass methods =>
    (superclass.toList.map fun s => ⟨.expr s.expr, σ.ofSuperclass name⟩) ++
      methods.map fun m => ⟨.routine m, σ.ofMethod name superclass m⟩

/-- The findings of a statement without those of its parts. -/
def Stmt.own (σ : Site) : Stmt → List Finding
  | .variable name _ => σ.scopes.declaration name
  | .function decl => σ.scopes.declaration decl.name
  | .return line value =>
    (if σ.context.routine = .nothing then [.at ⟨"return", line⟩ .returnOutside] else []) ++
      (if σ.context.routine = .initializer ∧ value.isSome then
        [.at ⟨"return", line⟩ .returnFromInitializer] else [])
  | .class name superclass _ =>
    σ.scopes.declaration name ++ superclass.elim [] fun s =>
      if s.name.text = name.text then [.at s.name .inheritsFromItself] else []
  | _ => []

/-- The findings of an expression without those of its parts. -/
def Expr.own (cls : EnclosingClass) (scopes : Scopes) : Expr → List Finding
  | .assign id name _ => scopes.occurrence id name.text
  | .variable id name => (Expr.variable id name).findings cls scopes
  | .this id line => (Expr.this id line).findings cls scopes
  | .super id line method => (Expr.super id line method).findings cls scopes
  | _ => []

namespace Visit

/-- What the walk visits next, as parts of a node. -/
def parts : Visit → List Visit
  | ⟨.expr e, σ⟩ => e.parts.map fun part => ⟨.expr part, σ⟩
  | ⟨.stmt s, σ⟩ => s.parts σ
  | ⟨.routine decl, σ⟩ => (σ.inRoutine decl).along decl.body

/-- The findings of a node itself, without those of its parts. -/
def own : Visit → List Finding
  | ⟨.expr e, σ⟩ => e.own σ.context.cls σ.scopes
  | ⟨.stmt s, σ⟩ => s.own σ
  | ⟨.routine decl, σ⟩ => (parameterFindings ([] :: σ.scopes) decl.params).1

/-- The findings of a node. -/
def findings : Visit → List Finding
  | ⟨.expr e, σ⟩ => e.findings σ.context.cls σ.scopes
  | ⟨.stmt s, σ⟩ => (s.findings σ.context σ.scopes).1
  | ⟨.routine decl, σ⟩ => decl.findings σ.context σ.scopes

/-- The number of a node itself. -/
def ownIds : Visit → List Nat
  | ⟨.expr e, _⟩ => (e.occurrence?.map (·.1)).toList
  | _ => []

/-- The numbers of a node and its parts. -/
def ids : Visit → List Nat
  | ⟨.expr e, _⟩ => e.ids
  | ⟨.stmt s, _⟩ => s.ids
  | ⟨.routine decl, _⟩ => decl.ids

end Visit

/-- The visits of a program. -/
inductive Visited (body : List Stmt) : Visit → Prop
  /-- The walk visits the statements of the program. -/
  | statement {v : Visit} (h : v ∈ Site.outermost.along body) : Visited body v
  /-- The walk visits the parts of every node that it visits. -/
  | part {v w : Visit} (h : Visited body v) (hw : w ∈ v.parts) : Visited body w

/-! ### Where findings come from -/

section Findings

variable {f : Finding}

theorem Expr.mem_findingsAll {cls : EnclosingClass} {scopes : Scopes} {es : List Expr} :
    f ∈ Expr.findingsAll cls scopes es ↔ ∃ e ∈ es, f ∈ e.findings cls scopes := by
  induction es with
  | nil => simp [Expr.findingsAll]
  | cons e es ih => simp [Expr.findingsAll, ih]

theorem Stmt.mem_methodFindings {cls : EnclosingClass} {scopes : Scopes}
    {ms : List FunctionDecl} : f ∈ Stmt.methodFindings cls scopes ms ↔
      ∃ m ∈ ms, f ∈ m.findings ⟨.ofMethod m.name.text, cls⟩ scopes := by
  induction ms with
  | nil => simp [Stmt.methodFindings]
  | cons m ms ih => simp [Stmt.methodFindings, ih]

theorem Site.mem_along_findings {σ : Site} {ss : List Stmt} :
    f ∈ (Stmt.findingsAll σ.context σ.scopes ss).1 ↔ ∃ v ∈ σ.along ss, f ∈ v.findings := by
  induction ss generalizing σ with
  | nil => simp [Stmt.findingsAll, Site.along]
  | cons s ss ih =>
    have hrest := @ih { σ with scopes := s.after σ.scopes }
    simp only [Stmt.findingsAll, Stmt.findings_snd, Site.along, List.mem_append, hrest,
      List.mem_cons, exists_eq_or_imp, Visit.findings]

theorem Expr.mem_findings {cls : EnclosingClass} {scopes : Scopes} {e : Expr} :
    f ∈ e.findings cls scopes ↔
      f ∈ e.own cls scopes ∨ ∃ part ∈ e.parts, f ∈ part.findings cls scopes := by
  cases e <;> simp [Expr.own, Expr.parts, Expr.findings, Expr.mem_findingsAll, or_comm]

theorem Stmt.mem_findings {σ : Site} {s : Stmt} : f ∈ (s.findings σ.context σ.scopes).1 ↔
    f ∈ s.own σ ∨ ∃ w ∈ s.parts σ, f ∈ w.findings := by
  cases s with
  | expression e => simp [Stmt.findings, Stmt.own, Stmt.parts, Visit.findings]
  | «variable» name initializer =>
    cases initializer <;>
      simp [Stmt.findings, Stmt.own, Stmt.parts, Expr.findingsOf, Visit.findings]
  | block body =>
    have hbody := @Site.mem_along_findings f (σ.inBlock body) body
    simp only [Stmt.findings, Stmt.own, Stmt.parts, List.not_mem_nil, false_or]
    exact hbody
  | ifThen condition thenBranch =>
    simp [Stmt.findings, Stmt.own, Stmt.parts, Visit.findings]
  | ifElse condition thenBranch elseBranch =>
    simp [Stmt.findings, Stmt.own, Stmt.parts, Visit.findings]
  | «while» condition body => simp [Stmt.findings, Stmt.own, Stmt.parts, Visit.findings]
  | function decl =>
    simp [Stmt.findings, Stmt.own, Stmt.parts, Visit.findings, Site.ofFunction, Scopes.introduce]
  | «return» line value =>
    cases value <;>
      simp [Stmt.findings, Stmt.own, Stmt.parts, returnFindings, Expr.findingsOf, Visit.findings,
        or_assoc]
  | «class» name superclass methods =>
    cases superclass with
    | none =>
      simp [Stmt.findings, Stmt.own, Stmt.parts, Stmt.mem_methodFindings, Visit.findings,
        Site.ofMethod, Site.classScopes, Scopes.introduce]
    | some s =>
      simp [Stmt.findings, Stmt.own, Stmt.parts, superclassFindings, Stmt.mem_methodFindings,
        Visit.findings, Site.ofMethod, Site.ofSuperclass, Site.classScopes, Scopes.introduce,
        or_assoc]

/-- The findings of a node are its own and those of its parts. -/
theorem Visit.mem_findings {v : Visit} :
    f ∈ v.findings ↔ f ∈ v.own ∨ ∃ w ∈ v.parts, f ∈ w.findings := by
  match v with
  | ⟨.expr e, σ⟩ =>
    simpa [Visit.own, Visit.parts, Visit.findings] using Expr.mem_findings
  | ⟨.stmt s, σ⟩ => exact Stmt.mem_findings
  | ⟨.routine ⟨name, params, body⟩, σ⟩ =>
    have hbody := @Site.mem_along_findings f (σ.inRoutine ⟨name, params, body⟩) body
    simp only [Visit.findings, FunctionDecl.findings, parameterFindings_snd, List.mem_append,
      Visit.own, Visit.parts]
    exact or_congr_right hbody

end Findings

/-! ### Where node numbers come from -/

theorem Expr.idsAll_eq_flatMap (es : List Expr) : Expr.idsAll es = es.flatMap Expr.ids := by
  induction es with
  | nil => rfl
  | cons e es ih => simp only [Expr.idsAll, ih, List.flatMap_cons]

theorem Stmt.methodIds_eq_flatMap (ms : List FunctionDecl) :
    Stmt.methodIds ms = ms.flatMap FunctionDecl.ids := by
  induction ms with
  | nil => rfl
  | cons m ms ih => simp only [Stmt.methodIds, ih, List.flatMap_cons]

theorem Site.ids_along (σ : Site) (ss : List Stmt) :
    (σ.along ss).flatMap Visit.ids = Stmt.idsAll ss := by
  induction ss generalizing σ with
  | nil => rfl
  | cons s ss ih => simp only [Site.along, List.flatMap_cons, Visit.ids, ih, Stmt.idsAll]

theorem Stmt.ids_eq_parts (σ : Site) (s : Stmt) : s.ids = (s.parts σ).flatMap Visit.ids := by
  cases s with
  | expression e => simp [Stmt.ids, Stmt.parts, Visit.ids]
  | «variable» name initializer =>
    cases initializer <;> simp [Stmt.ids, Stmt.parts, Visit.ids, Expr.idsOf]
  | block body => exact (Site.ids_along (σ.inBlock body) body).symm
  | ifThen condition thenBranch => simp [Stmt.ids, Stmt.parts, Visit.ids]
  | ifElse condition thenBranch elseBranch => simp [Stmt.ids, Stmt.parts, Visit.ids]
  | «while» condition body => simp [Stmt.ids, Stmt.parts, Visit.ids]
  | function decl => simp [Stmt.ids, Stmt.parts, Visit.ids]
  | «return» line value =>
    cases value <;> simp [Stmt.ids, Stmt.parts, Visit.ids, Expr.idsOf]
  | «class» name superclass methods =>
    cases superclass <;>
      simp [Stmt.ids, Stmt.parts, Visit.ids, Superclass.idsOf, Stmt.methodIds_eq_flatMap,
        List.flatMap_map, Superclass.expr, Expr.ids]

/-- The numbers of a node are its own and those of its parts. -/
theorem Visit.ids_perm (v : Visit) : v.ids.Perm (v.ownIds ++ v.parts.flatMap Visit.ids) := by
  match v with
  | ⟨.expr e, σ⟩ =>
    have hparts : (Visit.parts ⟨.expr e, σ⟩).flatMap Visit.ids = e.parts.flatMap Expr.ids := by
      simp [Visit.parts, Visit.ids, List.flatMap_map]
    rw [hparts]
    cases e <;> simp [Visit.ids, Visit.ownIds, Expr.ids, Expr.occurrence?, Expr.parts,
      Expr.idsAll_eq_flatMap, List.perm_append_comm]
  | ⟨.stmt s, σ⟩ => exact List.Perm.of_eq (s.ids_eq_parts σ)
  | ⟨.routine ⟨name, params, body⟩, σ⟩ =>
    have hbody := Site.ids_along (σ.inRoutine ⟨name, params, body⟩) body
    exact List.Perm.of_eq hbody.symm

/-- Visits whose numbers differ from one another have no number in common. -/
theorem Visit.eq_of_mem_ids {vs : List Visit} (h : (vs.flatMap Visit.ids).Nodup) {v w : Visit}
    (hv : v ∈ vs) (hw : w ∈ vs) {id : Nat} (hid : id ∈ v.ids) (hid' : id ∈ w.ids) : v = w := by
  by_contra hne
  have : Std.Symm (Function.onFun List.Disjoint Visit.ids) := ⟨fun _ _ h id hv hw => h hw hv⟩
  exact (List.nodup_flatMap.mp h).2.forall hv hw hne hid hid'

/-! ### All visits -/

theorem Site.sizeOf_lt_of_mem_along {σ : Site} {ss : List Stmt} {v : Visit}
    (h : v ∈ σ.along ss) : sizeOf v.node < 1 + sizeOf ss := by
  induction ss generalizing σ with
  | nil => exact absurd h List.not_mem_nil
  | cons s ss ih =>
    rcases List.mem_cons.mp h with rfl | h
    · simp
      omega
    · have := ih h
      simp
      omega

theorem Expr.sizeOf_lt_of_mem_parts {e part : Expr} (h : part ∈ e.parts) :
    sizeOf part < sizeOf e := by
  cases e with
  | call callee line arguments =>
    rcases List.mem_cons.mp h with rfl | h
    · simp
      omega
    · have := List.sizeOf_lt_of_mem h
      simp
      omega
  | _ =>
    simp [Expr.parts] at h <;> rcases h with rfl | rfl | rfl <;> simp <;> omega

theorem Stmt.sizeOf_lt_of_mem_parts {σ : Site} {s : Stmt} {w : Visit} (h : w ∈ s.parts σ) :
    sizeOf w.node < 1 + sizeOf s := by
  match s with
  | .block body =>
    have := Site.sizeOf_lt_of_mem_along h
    simp
    omega
  | .class name superclass methods =>
    rcases List.mem_append.mp h with h | h
    · obtain ⟨⟨id, word⟩, hs, rfl⟩ := List.mem_map.mp h
      obtain rfl := Option.mem_toList.mp hs
      simp [Superclass.expr]
      omega
    · obtain ⟨m, hm, rfl⟩ := List.mem_map.mp h
      have := List.sizeOf_lt_of_mem hm
      simp
      omega
  | .variable name initializer | .return line initializer =>
    obtain ⟨e, he, rfl⟩ := List.mem_map.mp h
    obtain rfl := Option.mem_toList.mp he
    simp
    omega
  | .expression _ | .ifThen .. | .ifElse .. | .while .. | .function _ =>
    simp [Stmt.parts] at h
    rcases h with rfl | rfl | rfl <;> simp <;> omega

/-- The parts of a node are smaller than the node. -/
theorem Visit.sizeOf_lt_of_mem_parts {v w : Visit} (h : w ∈ v.parts) :
    sizeOf w.node < sizeOf v.node := by
  match v with
  | ⟨.expr e, σ⟩ =>
    obtain ⟨part, hpart, rfl⟩ := List.mem_map.mp h
    have := Expr.sizeOf_lt_of_mem_parts hpart
    simpa using this
  | ⟨.stmt s, σ⟩ =>
    have := Stmt.sizeOf_lt_of_mem_parts h
    simp
    omega
  | ⟨.routine ⟨name, params, body⟩, σ⟩ =>
    have : sizeOf w.node < 1 + sizeOf body := Site.sizeOf_lt_of_mem_along h
    simp
    omega

/-- What holds of a node whenever it holds of its parts holds of all nodes. -/
theorem Visit.induct {P : Visit → Prop} (step : ∀ v, (∀ w ∈ v.parts, P w) → P v) (v : Visit) :
    P v :=
  step v fun w hw =>
    have := Visit.sizeOf_lt_of_mem_parts hw
    Visit.induct step w
termination_by sizeOf v.node

theorem mem_programFindings_along {f : Finding} {body : List Stmt} :
    f ∈ programFindings body ↔ ∃ v ∈ Site.outermost.along body, f ∈ v.findings :=
  @Site.mem_along_findings f Site.outermost body

theorem Visited.findings_subset {body : List Stmt} {v : Visit} (h : Visited body v) :
    v.findings ⊆ programFindings body := by
  induction h with
  | statement h => exact fun f hf => mem_programFindings_along.mpr ⟨_, h, hf⟩
  | part _ hw ih => exact fun f hf => ih (Visit.mem_findings.mpr (.inr ⟨_, hw, hf⟩))

theorem Visited.of_mem_findings {body : List Stmt} {f : Finding} (v : Visit) :
    Visited body v → f ∈ v.findings → ∃ w, Visited body w ∧ f ∈ w.own := by
  induction v using Visit.induct with
  | step v ih =>
    intro hv hf
    rcases Visit.mem_findings.mp hf with hown | ⟨w, hw, hf⟩
    · exact ⟨v, hv, hown⟩
    · exact ih w hw (hv.part hw) hf

/-- The findings of a program are those that its visits have themselves. -/
theorem mem_programFindings {f : Finding} {body : List Stmt} :
    f ∈ programFindings body ↔ ∃ v, Visited body v ∧ f ∈ v.own := by
  constructor
  · intro hf
    obtain ⟨v, hv, hf⟩ := mem_programFindings_along.mp hf
    exact Visited.of_mem_findings v (.statement hv) hf
  · rintro ⟨v, hv, hf⟩
    exact hv.findings_subset (Visit.mem_findings.mpr (.inl hf))

/-! ### The visit of a node -/

/-- The visits within a node. -/
inductive Visit.Within : Visit → Visit → Prop
  | self (v : Visit) : Within v v
  | part {v w x : Visit} (hw : w ∈ v.parts) (h : Within w x) : Within v x

namespace Visit.Within

variable {v w x : Visit}

theorem snoc (h : v.Within w) (hx : x ∈ w.parts) : v.Within x := by
  induction h with
  | self v => exact .part hx (.self x)
  | part hw _ ih => exact .part hw (ih hx)

theorem ids_subset (h : v.Within w) : w.ids ⊆ v.ids := by
  induction h with
  | self v => exact fun _ => id
  | @part v w x hw _ ih =>
    intro id hid
    have hmem : id ∈ v.parts.flatMap Visit.ids := List.mem_flatMap.mpr ⟨w, hw, ih hid⟩
    exact v.ids_perm.mem_iff.mpr (List.mem_append_right _ hmem)

theorem sizeOf_le (h : v.Within w) : sizeOf w.node ≤ sizeOf v.node := by
  induction h with
  | self v => exact Nat.le_refl _
  | part hw _ ih => exact Nat.le_trans ih (Nat.le_of_lt (Visit.sizeOf_lt_of_mem_parts hw))

theorem not_self_of_part (hw : w ∈ v.parts) (h : w.Within x) : x.node ≠ v.node := by
  intro heq
  have := h.sizeOf_le
  have := Visit.sizeOf_lt_of_mem_parts hw
  rw [heq] at *
  omega

end Visit.Within

theorem Visit.ids_eq_of_node_eq {v w : Visit} (h : v.node = w.node) : v.ids = w.ids := by
  obtain ⟨node, σ⟩ := v
  obtain ⟨node', σ'⟩ := w
  obtain rfl : node = node' := h
  cases node <;> rfl

/-- Among visits with different numbers, a node with numbers is visited once. -/
theorem Visit.eq_of_within {vs : List Visit} (hnodup : (vs.flatMap Visit.ids).Nodup)
    (hvs : ∀ v ∈ vs, ∀ a b, v.Within a → v.Within b → a.node = b.node → a.ids ≠ [] → a = b)
    {v w a b : Visit} (hv : v ∈ vs) (hw : w ∈ vs) (ha : v.Within a) (hb : w.Within b)
    (hnode : a.node = b.node) (hids : a.ids ≠ []) : a = b := by
  obtain ⟨id, hid⟩ := List.exists_mem_of_ne_nil a.ids hids
  have hid' : id ∈ b.ids := Visit.ids_eq_of_node_eq hnode ▸ hid
  obtain rfl := Visit.eq_of_mem_ids hnodup hv hw (ha.ids_subset hid) (hb.ids_subset hid')
  exact hvs v hv a b ha hb hnode hids

/-- Within a node with different numbers, a node with numbers is visited once. -/
theorem Visit.Within.unique (v : Visit) : v.ids.Nodup →
    ∀ a b, v.Within a → v.Within b → a.node = b.node → a.ids ≠ [] → a = b := by
  induction v using Visit.induct with
  | step v ih =>
    intro hnodup a b ha hb hnode hids
    have hparts := (List.nodup_append.mp (v.ids_perm.nodup hnodup)).2.1
    have hvs := fun w hw => ih w hw ((List.nodup_flatMap.mp hparts).1 w hw)
    cases ha with
    | self =>
      cases hb with
      | self => rfl
      | part hw hb => exact absurd hnode.symm (Visit.Within.not_self_of_part hw hb)
    | part hw ha =>
      cases hb with
      | self => exact absurd hnode (Visit.Within.not_self_of_part hw ha)
      | part hw' hb => exact Visit.eq_of_within hparts hvs hw hw' ha hb hnode hids

theorem Visited.exists_within {body : List Stmt} {v : Visit} (h : Visited body v) :
    ∃ root ∈ Site.outermost.along body, root.Within v := by
  induction h with
  | statement hv => exact ⟨_, hv, .self _⟩
  | part _ hw ih =>
    obtain ⟨root, hroot, hwithin⟩ := ih
    exact ⟨root, hroot, hwithin.snoc hw⟩

theorem Visited.ids_subset {body : List Stmt} {v : Visit} (h : Visited body v) :
    v.ids ⊆ Stmt.idsAll body := by
  obtain ⟨root, hroot, hwithin⟩ := h.exists_within
  intro id hid
  rw [← Site.ids_along Site.outermost body]
  exact List.mem_flatMap.mpr ⟨root, hroot, hwithin.ids_subset hid⟩

/-- In a program with different numbers, a node with numbers is visited once. -/
theorem Visited.unique {body : List Stmt} (hnodup : (Stmt.idsAll body).Nodup) {v w : Visit}
    (hv : Visited body v) (hw : Visited body w) (hnode : v.node = w.node) (hids : v.ids ≠ []) :
    v = w := by
  rw [← Site.ids_along Site.outermost body] at hnodup
  obtain ⟨root, hroot, hwithin⟩ := hv.exists_within
  obtain ⟨root', hroot', hwithin'⟩ := hw.exists_within
  refine Visit.eq_of_within hnodup (fun u hu => ?_) hroot hroot' hwithin hwithin' hnode hids
  exact Visit.Within.unique u ((List.nodup_flatMap.mp hnodup).1 u hu)

end Treewalk
