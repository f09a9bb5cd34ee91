import Treewalk.Proofs.Scope.Initializers

/-!
# The rules about scopes

A program is *lawful* if it breaks none of the rules about scopes. The rules are said of the nodes of
a program and of the nodes around them: the blocks, functions and classes that a node stands in. No
walk is needed to say them, and no scopes that change on the way.

## Main definitions

* `Occurs`: the nodes of a program, with the nodes around them.
* `innermostRoutine?`, `innermostClass?`: the function and the class that a node stands in.
* `Node.declared`: the names of the scope that a node opens.
* `Lawful`: programs that break no rule.

## Main results

* `Visited.exists_occurs`, `Occurs.exists_visited`: the walk visits just the nodes of a program, and
  knows what they stand in.
-/

namespace Treewalk

/-! ### Nodes around nodes -/

/-- The nodes directly inside of a statement. -/
def Stmt.children : Stmt → List Node
  | .expression e => [.expr e]
  | .variable _ initializer => initializer.toList.map .expr
  | .block body => body.map .stmt
  | .ifThen condition thenBranch => [.expr condition, .stmt thenBranch]
  | .ifElse condition thenBranch elseBranch =>
    [.expr condition, .stmt thenBranch, .stmt elseBranch]
  | .while condition body => [.expr condition, .stmt body]
  | .function decl => [.routine decl]
  | .return _ value => value.toList.map .expr
  | .class _ superclass methods =>
    (superclass.toList.map fun s => .expr s.expr) ++ methods.map .routine

/-- The nodes directly inside of a node. -/
def Node.children : Node → List Node
  | .expr e => e.parts.map .expr
  | .stmt s => s.children
  | .routine decl => decl.body.map .stmt

/-- The nodes of a program, each with the nodes around it, the innermost one first. -/
inductive Occurs (body : List Stmt) : List Node → Node → Prop
  | statement {s : Stmt} (h : s ∈ body) : Occurs body [] (.stmt s)
  | child {above : List Node} {node inner : Node} (h : Occurs body above node)
      (hinner : inner ∈ node.children) : Occurs body (node :: above) inner

/-- The innermost function among the nodes around a node, and whether it is a method. -/
def innermostRoutine? : List Node → Option (FunctionDecl × Bool)
  | [] => none
  | .routine decl :: .stmt (.class _ _ _) :: _ => some (decl, true)
  | .routine decl :: _ => some (decl, false)
  | _ :: above => innermostRoutine? above

/-- The superclass, if there is one, of the innermost class among the nodes around a node. -/
def innermostClass? : List Node → Option (Option Superclass)
  | [] => none
  | .stmt (.class _ superclass _) :: _ => some superclass
  | _ :: above => innermostClass? above

/-- The node opens a scope in which names can be declared. -/
def Node.opensScope : Node → Bool
  | .stmt (.block _) => true
  | .routine _ => true
  | _ => false

/-- The names that a statement declares in the scope in which it stands. The branches of a statement
stand in the same scope. -/
def Stmt.declared : Stmt → List Name
  | .variable name _ => [name]
  | .function decl => [decl.name]
  | .class name _ _ => [name]
  | .ifThen _ thenBranch => thenBranch.declared
  | .ifElse _ thenBranch elseBranch => thenBranch.declared ++ elseBranch.declared
  | .while _ body => body.declared
  | .expression _ => []
  | .block _ => []
  | .return _ _ => []

/-- The names of the scope that a node opens: those declared in a block, or the parameters of a
function and those declared in its body. -/
def Node.declared : Node → List Name
  | .stmt (.block body) => body.flatMap Stmt.declared
  | .routine decl => decl.params ++ decl.body.flatMap Stmt.declared
  | _ => []

/-- A program that breaks no rule about scopes. -/
structure Lawful (body : List Stmt) : Prop where
  /-- No local scope declares a name twice. -/
  declaredOnce : ∀ {above node}, Occurs body above node → (node.declared.map Name.text).Nodup
  /-- No local variable is read in its own initializer. -/
  notReadEarly : ∀ {above name initializer id read},
    Occurs body above (.stmt (.variable name (some initializer))) → above.any Node.opensScope →
      initializer.Within (.variable id read) → read.text ≠ name.text
  /-- Every `return` stands in a function or a method, and has no value in an initializer. -/
  returns : ∀ {above line value}, Occurs body above (.stmt (.return line value)) →
    ∃ decl isMethod, innermostRoutine? above = some (decl, isMethod) ∧
      (isMethod = true → decl.name.text = initializerName → value = none)
  /-- Every `this` stands in a class. -/
  this : ∀ {above id line}, Occurs body above (.expr (.this id line)) →
    innermostClass? above ≠ none
  /-- Every `super` stands in a class, the innermost of which has a superclass. -/
  super : ∀ {above id line method}, Occurs body above (.expr (.super id line method)) →
    ∃ superclass, innermostClass? above = some (some superclass)
  /-- No class is its own superclass. -/
  inherits : ∀ {above name s methods}, Occurs body above (.stmt (.class name (some s) methods)) →
    s.name.text ≠ name.text

/-! ### The nodes that the walk visits -/

theorem Site.map_node_along (σ : Site) (ss : List Stmt) :
    (σ.along ss).map Visit.node = ss.map .stmt := by
  induction ss generalizing σ with
  | nil => rfl
  | cons s ss ih => simp only [Site.along, List.map_cons, ih]

theorem Stmt.map_node_parts (σ : Site) (s : Stmt) : (s.parts σ).map Visit.node = s.children := by
  match s with
  | .expression _ | .ifThen .. | .ifElse .. | .while .. | .function _ => rfl
  | .variable _ initializer | .return _ initializer =>
    simp [Stmt.parts, Stmt.children, Function.comp_def]
  | .block body => exact Site.map_node_along _ body
  | .class _ superclass methods => simp [Stmt.parts, Stmt.children, Function.comp_def]

theorem Visit.map_node_parts (v : Visit) : v.parts.map Visit.node = v.node.children := by
  match v with
  | ⟨.expr e, σ⟩ => simp [Visit.parts, Node.children, Function.comp_def]
  | ⟨.stmt s, σ⟩ => exact s.map_node_parts σ
  | ⟨.routine decl, σ⟩ => exact Site.map_node_along _ decl.body

/-- What stands in the innermost of the given functions. -/
def Enclosing.ofRoutine : Option (FunctionDecl × Bool) → Enclosing
  | none => .nothing
  | some (_, false) => .function
  | some (decl, true) => .ofMethod decl.name.text

/-- What stands in the innermost of the given classes. -/
def EnclosingClass.ofClass : Option (Option Superclass) → EnclosingClass
  | none => .nothing
  | some none => .base
  | some (some _) => .derived

/-- The walk knows what a node stands in, if it comes to the node below the nodes `above`. -/
structure Visit.LiesIn (v : Visit) (above : List Node) : Prop where
  routine : v.site.context.routine = .ofRoutine (innermostRoutine? (v.node :: above))
  cls : v.site.context.cls = .ofClass (innermostClass? above)
  isLocal : ∀ s, v.node = .stmt s → (v.site.scopes ≠ [] ↔ above.any Node.opensScope)

/-- A statement opens no scope and closes none. -/
theorem Stmt.length_after (s : Stmt) (scopes : Scopes) : (s.after scopes).length = scopes.length := by
  match s with
  | .variable name _ | .class name _ _ => exact Scopes.length_introduce scopes name
  | .function decl => exact Scopes.length_introduce scopes decl.name
  | .ifThen _ thenBranch => exact thenBranch.length_after scopes
  | .ifElse _ thenBranch elseBranch =>
    exact (elseBranch.length_after _).trans (thenBranch.length_after scopes)
  | .while _ body => exact body.length_after scopes
  | .expression _ | .block _ | .return _ _ => rfl

theorem Scopes.length_introduceAll (names : List Name) (scopes : Scopes) :
    (scopes.introduceAll names).length = scopes.length := by
  induction names generalizing scopes with
  | nil => rfl
  | cons name names ih => exact (ih (scopes.introduce name)).trans (scopes.length_introduce name)

theorem Scopes.ne_nil_of_length_eq {scopes scopes' : Scopes} (h : scopes.length = scopes'.length) :
    scopes ≠ [] ↔ scopes' ≠ [] := by
  rw [← List.length_pos_iff, ← List.length_pos_iff, h]

/-- The body of a function stands in a local scope. -/
theorem Site.inRoutine_scopes_ne_nil (σ : Site) (decl : FunctionDecl) :
    (σ.inRoutine decl).scopes ≠ [] :=
  (Scopes.ne_nil_of_length_eq (Scopes.length_introduceAll decl.params _)).mpr
    (List.cons_ne_nil [] σ.scopes)

namespace Visit.LiesIn

variable {v w : Visit} {above : List Node} {σ : Site}

/-- Statements in order stand in the same nodes. -/
theorem along {ss : List Stmt} (hroutine : σ.context.routine = .ofRoutine (innermostRoutine? above))
    (hcls : σ.context.cls = .ofClass (innermostClass? above))
    (hlocal : σ.scopes ≠ [] ↔ above.any Node.opensScope) : ∀ v ∈ σ.along ss, v.LiesIn above := by
  induction ss generalizing σ with
  | nil => exact fun v hv => absurd hv List.not_mem_nil
  | cons s ss ih =>
    refine List.forall_mem_cons.mpr ⟨⟨hroutine, hcls, fun _ _ => hlocal⟩, ?_⟩
    exact ih hroutine hcls ((Scopes.ne_nil_of_length_eq (s.length_after σ.scopes)).trans hlocal)

/-- An expression stands in what the node around it stands in. -/
theorem expr {e : Expr} (hroutine : σ.context.routine = .ofRoutine (innermostRoutine? above))
    (hcls : σ.context.cls = .ofClass (innermostClass? above)) :
    Visit.LiesIn ⟨.expr e, σ⟩ above :=
  ⟨hroutine, hcls, nofun⟩

/-- What the parts of a statement stand in. -/
theorem part_of_stmt {s : Stmt} (h : LiesIn ⟨.stmt s, σ⟩ above) (hw : w ∈ s.parts σ) :
    w.LiesIn (.stmt s :: above) := by
  obtain ⟨hroutine, hcls, hlocal⟩ := h
  have hlocal := hlocal s rfl
  match s with
  | .expression _ =>
    cases List.mem_singleton.mp hw
    exact .expr hroutine hcls
  | .variable _ _ | .return _ _ =>
    obtain ⟨e, -, rfl⟩ := List.mem_map.mp hw
    exact .expr hroutine hcls
  | .block body =>
    have hbody : ∀ v ∈ (σ.inBlock body).along body, v.LiesIn (.stmt (.block body) :: above) :=
      along hroutine hcls (iff_of_true (List.cons_ne_nil [] σ.scopes) rfl)
    exact hbody w hw
  | .ifThen _ _ | .while _ _ =>
    rcases List.mem_pair.mp hw with rfl | rfl
    · exact .expr hroutine hcls
    · exact ⟨hroutine, hcls, fun _ _ => hlocal⟩
  | .ifElse _ thenBranch _ =>
    rcases List.mem_cons.mp hw with rfl | hw
    · exact .expr hroutine hcls
    rcases List.mem_pair.mp hw with rfl | rfl
    · exact ⟨hroutine, hcls, fun _ _ => hlocal⟩
    · refine ⟨hroutine, hcls, fun _ _ => ?_⟩
      exact (Scopes.ne_nil_of_length_eq (thenBranch.length_after σ.scopes)).trans hlocal
  | .function decl =>
    cases List.mem_singleton.mp hw
    exact ⟨rfl, hcls, nofun⟩
  | .class name superclass methods =>
    rcases List.mem_append.mp hw with hw | hw
    · obtain ⟨s, hs, rfl⟩ := List.mem_map.mp hw
      obtain rfl := Option.mem_toList.mp hs
      exact .expr hroutine rfl
    · obtain ⟨m, -, rfl⟩ := List.mem_map.mp hw
      refine ⟨rfl, ?_, nofun⟩
      cases superclass <;> rfl

/-- What the parts of a node stand in. -/
theorem part (h : v.LiesIn above) (hw : w ∈ v.parts) : w.LiesIn (v.node :: above) := by
  match v with
  | ⟨.expr e, σ⟩ =>
    obtain ⟨part, -, rfl⟩ := List.mem_map.mp hw
    exact .expr h.routine h.cls
  | ⟨.stmt s, σ⟩ => exact h.part_of_stmt hw
  | ⟨.routine decl, σ⟩ =>
    have hbody : ∀ v ∈ (σ.inRoutine decl).along decl.body, v.LiesIn (.routine decl :: above) :=
      along h.routine h.cls (iff_of_true (σ.inRoutine_scopes_ne_nil decl) rfl)
    exact hbody w hw

end Visit.LiesIn

theorem Visit.LiesIn.outermost (body : List Stmt) :
    ∀ v ∈ Site.outermost.along body, v.LiesIn [] :=
  .along rfl rfl (iff_of_false (fun h => h rfl) Bool.false_ne_true)

/-- The walk visits only nodes of the program. -/
theorem Visited.exists_occurs {body : List Stmt} {v : Visit} (h : Visited body v) :
    ∃ above, Occurs body above v.node ∧ v.LiesIn above := by
  induction h with
  | @statement v h =>
    have hmem : v.node ∈ body.map .stmt := by
      rw [← Site.map_node_along Site.outermost body]
      exact List.mem_map_of_mem h
    obtain ⟨s, hs, heq⟩ := List.mem_map.mp hmem
    rw [← heq]
    exact ⟨[], .statement hs, .outermost body v h⟩
  | @part v w _ hw ih =>
    obtain ⟨above, hoccurs, hlies⟩ := ih
    refine ⟨v.node :: above, hoccurs.child ?_, hlies.part hw⟩
    rw [← v.map_node_parts]
    exact List.mem_map_of_mem hw

/-- The walk visits all nodes of the program. -/
theorem Occurs.exists_visited {body : List Stmt} {above : List Node} {node : Node}
    (h : Occurs body above node) : ∃ σ, Visited body ⟨node, σ⟩ ∧ Visit.LiesIn ⟨node, σ⟩ above := by
  induction h with
  | @statement s hs =>
    have hmem : Node.stmt s ∈ (Site.outermost.along body).map Visit.node := by
      rw [Site.map_node_along]
      exact List.mem_map_of_mem hs
    obtain ⟨⟨_, σ⟩, hv, rfl⟩ := List.mem_map.mp hmem
    exact ⟨σ, .statement hv, .outermost body _ hv⟩
  | @child above node inner _ hinner ih =>
    obtain ⟨σ, hvisited, hlies⟩ := ih
    rw [← Visit.map_node_parts ⟨node, σ⟩] at hinner
    obtain ⟨⟨_, τ⟩, hw, rfl⟩ := List.mem_map.mp hinner
    exact ⟨τ, hvisited.part hw, hlies.part hw⟩

end Treewalk
