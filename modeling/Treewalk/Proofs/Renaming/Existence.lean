import Treewalk.Proofs.Renaming.Trees
import Treewalk.Proofs.Scope.Lawfulness
import Treewalk.Proofs.Scope.Resolution

/-!
# Local names that can be renamed

In a program that breaks no rule, every name that a local scope declares by `var` or as a parameter can be
renamed. The scope declares the name once, so that it is not also that of a function or of a class in the
same scope. The renamed program is built from that scope outward: on each level the part that contains the
scope is replaced, and the others stay apart from it.

## Main definitions

* `Node.variables`: the names that a scope declares by `var` or as parameters.

## Main results

* `Resolved.exists_isLocal`: these names can be renamed.
-/

namespace Treewalk

/-! ### Kinds of declarations -/

/-- The names that a statement declares by `var` in the scope in which it stands. -/
def Stmt.variables : Stmt → List Name
  | .variable name _ => [name]
  | .ifThen _ thenBranch => thenBranch.variables
  | .ifElse _ thenBranch elseBranch => thenBranch.variables ++ elseBranch.variables
  | .while _ body => body.variables
  | .expression _ | .block _ | .function _ | .return _ _ | .class _ _ _ => []

/-- The names of the functions and classes that a statement declares in the scope in which it stands. -/
def Stmt.definitions : Stmt → List Name
  | .function decl => [decl.name]
  | .class name _ _ => [name]
  | .ifThen _ thenBranch => thenBranch.definitions
  | .ifElse _ thenBranch elseBranch => thenBranch.definitions ++ elseBranch.definitions
  | .while _ body => body.definitions
  | .expression _ | .variable _ _ | .block _ | .return _ _ => []

/-- The names that the scope of a node declares by `var` or as parameters. -/
def Node.variables : Node → List Name
  | .stmt (.block body) => body.flatMap Stmt.variables
  | .routine decl => decl.params ++ decl.body.flatMap Stmt.variables
  | _ => []

/-- The functions and classes that the scope of a node declares. -/
def Node.definitions : Node → List Name
  | .stmt (.block body) => body.flatMap Stmt.definitions
  | .routine decl => decl.body.flatMap Stmt.definitions
  | _ => []

theorem Stmt.declared_perm (s : Stmt) : s.declared.Perm (s.variables ++ s.definitions) := by
  match s with
  | .variable _ _ | .function _ | .class _ _ _ | .expression _ | .block _ | .return _ _ => exact .refl _
  | .ifThen _ thenBranch => exact thenBranch.declared_perm
  | .while _ body => exact body.declared_perm
  | .ifElse _ thenBranch elseBranch =>
    have h := thenBranch.declared_perm.append elseBranch.declared_perm
    simp only [List.perm_iff_count, List.count_append] at h ⊢
    intro name
    rw [Stmt.declared, Stmt.variables, Stmt.definitions]
    simp only [List.count_append, h name]
    omega

theorem Stmt.flatMap_declared_perm (ss : List Stmt) :
    (ss.flatMap Stmt.declared).Perm (ss.flatMap Stmt.variables ++ ss.flatMap Stmt.definitions) :=
  (List.Perm.flatMap_left ss fun s _ => s.declared_perm).trans
    (List.flatMap_append_perm ss Stmt.variables Stmt.definitions).symm

theorem Node.declared_perm (node : Node) :
    node.declared.Perm (node.variables ++ node.definitions) := by
  match node with
  | .stmt (.block body) => exact Stmt.flatMap_declared_perm body
  | .routine decl =>
    rw [Node.declared, Node.variables, Node.definitions, List.append_assoc]
    exact (Stmt.flatMap_declared_perm decl.body).append_left decl.params
  | .expr _ | .stmt (.expression _) | .stmt (.variable _ _) | .stmt (.ifThen _ _)
  | .stmt (.ifElse _ _ _) | .stmt (.while _ _) | .stmt (.function _) | .stmt (.return _ _)
  | .stmt (.class _ _ _) => exact .refl _

/-- A name that a scope declares by `var` or as a parameter is not that of a function or a class. -/
theorem Lawful.not_mem_definitions {body : List Stmt} (h : Lawful body) {above : List Node}
    {node : Node} (hoccurs : Occurs body above node) {word : String}
    (hword : word ∈ node.variables.map Name.text) : word ∉ node.definitions.map Name.text := by
  have hnodup := (node.declared_perm.map Name.text).nodup_iff.mp (h.declaredOnce hoccurs)
  rw [List.map_append] at hnodup
  exact List.disjoint_of_nodup_append hnodup hword

theorem Node.mem_declared_of_variables {node : Node} {word : String}
    (h : word ∈ node.variables.map Name.text) : word ∈ node.declared.map Name.text := by
  have hmem := List.mem_append_left (node.definitions.map Name.text) h
  rw [← List.map_append] at hmem
  exact (node.declared_perm.map Name.text).mem_iff.mpr hmem

/-! ### Trees apart from the renamed scope or inside of it -/

/-- The renaming with another program as its result. -/
def Renaming.to (r : Renaming) (after : List Stmt) : Renaming :=
  { r with after := after }

section

variable (r : Renaming) (after : List Stmt)

mutual

theorem Expr.rename_to (depth : Option Nat) (e : Expr) :
    e.rename (r.to after) depth = e.rename r depth := by
  match e with
  | .literal _ | .variable _ _ | .this _ _ | .super _ _ _ => rfl
  | .grouping inner => rw [Expr.rename, Expr.rename, inner.rename_to]
  | .unary _ _ operand => rw [Expr.rename, Expr.rename, operand.rename_to]
  | .binary _ _ left right | .logical _ _ left right =>
    rw [Expr.rename, Expr.rename, left.rename_to, right.rename_to]
  | .ternary condition whenTrue whenFalse =>
    rw [Expr.rename, Expr.rename, condition.rename_to, whenTrue.rename_to, whenFalse.rename_to]
  | .assign _ _ value =>
    rw [Expr.rename, Expr.rename, value.rename_to]
    rfl
  | .call callee _ arguments =>
    rw [Expr.rename, Expr.rename, callee.rename_to, Expr.renameAll_to]
  | .get object _ => rw [Expr.rename, Expr.rename, object.rename_to]
  | .set object _ value => rw [Expr.rename, Expr.rename, object.rename_to, value.rename_to]

theorem Expr.renameAll_to (depth : Option Nat) (es : List Expr) :
    Expr.renameAll (r.to after) depth es = Expr.renameAll r depth es := by
  match es with
  | [] => rfl
  | e :: es => rw [Expr.renameAll, Expr.renameAll, e.rename_to, Expr.renameAll_to]

end

theorem Expr.map_rename_to (depth : Option Nat) (e : Option Expr) :
    e.map (Expr.rename (r.to after) depth) = e.map (Expr.rename r depth) :=
  Option.map_congr fun e _ => e.rename_to r after depth

end

theorem Region.apart_ne_around : Region.apart ≠ .around := by
  intro h
  cases h

theorem Region.deepen_ne_around {g : Region} (hg : g ≠ .around) : g.deepen ≠ .around := by
  cases g with
  | around => exact absurd rfl hg
  | apart | within =>
    intro h
    cases h

/-- A scope further in is not the renamed one. -/
theorem Region.depth_deepen_ne (g : Region) : g.deepen.depth ≠ some 0 := by
  cases g <;> (intro h; cases h)

theorem Region.inClass_ne_around {g : Region} (hg : g ≠ .around) (superclass : Option Superclass) :
    g.inClass superclass ≠ .around := by
  cases superclass with
  | none => exact Region.deepen_ne_around hg
  | some _ => exact Region.deepen_ne_around (Region.deepen_ne_around hg)

mutual

/-- A statement that the renamed scope is not in can be renamed, unless it stands in that scope and declares
a function or a class with the old name. -/
theorem Stmt.exists_renamed (r : Renaming) {g : Region} (hg : g ≠ .around) (s : Stmt)
    (hkept : g.depth = some 0 → r.old ∉ s.definitions.map Name.text) :
    ∃ s', ∀ after, Stmt.Renamed (r.to after) g s s' := by
  match s with
  | .expression e =>
    refine ⟨.expression (e.rename r g.depth), fun after => ?_⟩
    rw [← e.rename_to r after]
    exact .expression e hg
  | .variable name initializer =>
    refine ⟨.variable (r.declaration g.depth name) (initializer.map (Expr.rename r g.depth)),
      fun after => ?_⟩
    rw [← Expr.map_rename_to r after]
    exact .variable name initializer hg
  | .block body =>
    obtain ⟨body', hbody⟩ := Stmt.exists_renamedAll r (Region.deepen_ne_around hg) body
      fun h => absurd h g.depth_deepen_ne
    exact ⟨.block body', fun after => .block (.other g) (hbody after)⟩
  | .ifThen condition thenBranch =>
    obtain ⟨thenBranch', hthen⟩ := Stmt.exists_renamed r hg thenBranch hkept
    refine ⟨.ifThen (condition.rename r g.depth) thenBranch', fun after => ?_⟩
    rw [← condition.rename_to r after]
    exact .ifThen condition (hthen after)
  | .ifElse condition thenBranch elseBranch =>
    obtain ⟨thenBranch', hthen⟩ := Stmt.exists_renamed r hg thenBranch fun h hmem =>
      hkept h (List.map_append ▸ List.mem_append_left _ hmem)
    obtain ⟨elseBranch', helse⟩ := Stmt.exists_renamed r hg elseBranch fun h hmem =>
      hkept h (List.map_append ▸ List.mem_append_right _ hmem)
    refine ⟨.ifElse (condition.rename r g.depth) thenBranch' elseBranch', fun after => ?_⟩
    rw [← condition.rename_to r after]
    exact .ifElse condition (.both hg) (hthen after) (helse after)
  | .while condition body =>
    obtain ⟨body', hbody⟩ := Stmt.exists_renamed r hg body hkept
    refine ⟨.while (condition.rename r g.depth) body', fun after => ?_⟩
    rw [← condition.rename_to r after]
    exact .while condition (hbody after)
  | .function decl =>
    obtain ⟨decl', hdecl⟩ := FunctionDecl.exists_renamed r hg decl
    have hname (h : g.depth = some 0) : decl.name.text ≠ r.old :=
      Name.text_ne_of_not_mem (hkept h)
    exact ⟨.function decl', fun after => .function hname (hdecl after)⟩
  | .return line value =>
    refine ⟨.return line (value.map (Expr.rename r g.depth)), fun after => ?_⟩
    rw [← Expr.map_rename_to r after]
    exact .return line value hg
  | .class name superclass methods =>
    obtain ⟨methods', hmethods⟩ :=
      Stmt.exists_renamedMethods r (Region.inClass_ne_around hg superclass) methods
    have hname (h : g.depth = some 0) : name.text ≠ r.old :=
      Name.text_ne_of_not_mem (hkept h)
    exact ⟨.class name (superclass.map (Superclass.rename r g.depth)) methods',
      fun after => .class name superclass hname (hmethods after)⟩

theorem Stmt.exists_renamedAll (r : Renaming) {g : Region} (hg : g ≠ .around) (ss : List Stmt)
    (hkept : g.depth = some 0 → r.old ∉ (ss.flatMap Stmt.definitions).map Name.text) :
    ∃ ss', ∀ after, Stmt.RenamedAll (r.to after) g ss ss' := by
  match ss with
  | [] => exact ⟨[], fun _ => .nil hg⟩
  | s :: ss =>
    rw [List.flatMap_cons, List.map_append] at hkept
    obtain ⟨s', hs⟩ := Stmt.exists_renamed r hg s fun h hmem =>
      hkept h (List.mem_append_left _ hmem)
    obtain ⟨ss', hss⟩ := Stmt.exists_renamedAll r hg ss fun h hmem =>
      hkept h (List.mem_append_right _ hmem)
    exact ⟨s' :: ss', fun after => .cons (.both hg) (hs after) (hss after)⟩

theorem FunctionDecl.exists_renamed (r : Renaming) {g : Region} (hg : g ≠ .around)
    (decl : FunctionDecl) : ∃ decl', ∀ after, FunctionDecl.Renamed (r.to after) g decl decl' := by
  match decl with
  | ⟨name, params, body⟩ =>
    obtain ⟨body', hbody⟩ := Stmt.exists_renamedAll r (Region.deepen_ne_around hg) body
      fun h => absurd h g.depth_deepen_ne
    exact ⟨⟨name, params.map (r.declaration g.deepen.depth), body'⟩,
      fun after => .intro name params (.other g) (hbody after)⟩

theorem Stmt.exists_renamedMethods (r : Renaming) {g : Region} (hg : g ≠ .around)
    (ms : List FunctionDecl) : ∃ ms', ∀ after, Stmt.RenamedMethods (r.to after) g ms ms' := by
  match ms with
  | [] => exact ⟨[], fun _ => .nil hg⟩
  | m :: ms =>
    obtain ⟨m', hm⟩ := FunctionDecl.exists_renamed r hg m
    obtain ⟨ms', hms⟩ := Stmt.exists_renamedMethods r hg ms
    exact ⟨m' :: ms', fun after => .cons (.both hg) (hm after) (hms after)⟩

end

/-! ### Trees around the renamed scope -/

/-- A scope in the node can be renamed. -/
def Node.Renamable (r : Renaming) : Node → Prop
  | .expr _ => False
  | .stmt s => ∃ s', ∀ after, Stmt.Renamed (r.to after) .around s s'
  | .routine decl => ∃ decl', ∀ after, FunctionDecl.Renamed (r.to after) .around decl decl'

variable {r : Renaming}

/-- Statements in order, one of which has the scope in it. -/
theorem Stmt.exists_renamedAll_of_mem {ss : List Stmt} {s : Stmt} (hs : s ∈ ss)
    (h : (Node.stmt s).Renamable r) :
    ∃ ss', ∀ after, Stmt.RenamedAll (r.to after) .around ss ss' := by
  induction ss with
  | nil => exact absurd hs List.not_mem_nil
  | cons t ss ih =>
    rcases List.mem_cons.mp hs with rfl | hs
    · obtain ⟨s', hs'⟩ := h
      obtain ⟨ss', hss⟩ := Stmt.exists_renamedAll r Region.apart_ne_around ss fun h => by cases h
      exact ⟨s' :: ss', fun after => .cons .left (hs' after) (hss after)⟩
    · obtain ⟨t', ht⟩ := Stmt.exists_renamed r Region.apart_ne_around t fun h => by cases h
      obtain ⟨ss', hss⟩ := ih hs
      exact ⟨t' :: ss', fun after => .cons .right (ht after) (hss after)⟩

/-- Methods, one of which has the scope in it. -/
theorem Stmt.exists_renamedMethods_of_mem {ms : List FunctionDecl} {m : FunctionDecl} (hm : m ∈ ms)
    (h : (Node.routine m).Renamable r) :
    ∃ ms', ∀ after, Stmt.RenamedMethods (r.to after) .around ms ms' := by
  induction ms with
  | nil => exact absurd hm List.not_mem_nil
  | cons k ms ih =>
    rcases List.mem_cons.mp hm with rfl | hm
    · obtain ⟨m', hm'⟩ := h
      obtain ⟨ms', hms⟩ := Stmt.exists_renamedMethods r Region.apart_ne_around ms
      exact ⟨m' :: ms', fun after => .cons .left (hm' after) (hms after)⟩
    · obtain ⟨k', hk⟩ := FunctionDecl.exists_renamed r Region.apart_ne_around k
      obtain ⟨ms', hms⟩ := ih hm
      exact ⟨k' :: ms', fun after => .cons .right (hk after) (hms after)⟩

/-- What a part of a node has in it, the node has in it. -/
theorem Node.Renamable.of_child {node inner : Node} (h : inner.Renamable r)
    (hinner : inner ∈ node.children) : node.Renamable r := by
  match node with
  | .expr e =>
    obtain ⟨part, -, rfl⟩ := List.mem_map.mp hinner
    exact h
  | .stmt (.expression e) =>
    obtain rfl := List.mem_singleton.mp hinner
    exact absurd h id
  | .stmt (.variable _ initializer) | .stmt (.return _ initializer) =>
    obtain ⟨e, -, rfl⟩ := List.mem_map.mp hinner
    exact absurd h id
  | .stmt (.block body) =>
    obtain ⟨s, hs, rfl⟩ := List.mem_map.mp hinner
    obtain ⟨body', hbody⟩ := Stmt.exists_renamedAll_of_mem hs h
    exact ⟨.block body', fun after => .block (.other .around) (hbody after)⟩
  | .stmt (.ifThen condition thenBranch) =>
    rcases List.mem_cons.mp hinner with rfl | hinner
    · exact absurd h id
    · obtain rfl := List.mem_singleton.mp hinner
      obtain ⟨thenBranch', hthen⟩ := h
      refine ⟨.ifThen (condition.rename r none) thenBranch', fun after => ?_⟩
      rw [← condition.rename_to r after]
      exact .ifThen condition (hthen after)
  | .stmt (.ifElse condition thenBranch elseBranch) =>
    rcases List.mem_cons.mp hinner with rfl | hinner
    · exact absurd h id
    rcases List.mem_cons.mp hinner with rfl | hinner
    · obtain ⟨thenBranch', hthen⟩ := h
      obtain ⟨elseBranch', helse⟩ :=
        Stmt.exists_renamed r Region.apart_ne_around elseBranch fun h => by cases h
      refine ⟨.ifElse (condition.rename r none) thenBranch' elseBranch', fun after => ?_⟩
      rw [← condition.rename_to r after]
      exact .ifElse condition .left (hthen after) (helse after)
    · obtain rfl := List.mem_singleton.mp hinner
      obtain ⟨elseBranch', helse⟩ := h
      obtain ⟨thenBranch', hthen⟩ :=
        Stmt.exists_renamed r Region.apart_ne_around thenBranch fun h => by cases h
      refine ⟨.ifElse (condition.rename r none) thenBranch' elseBranch', fun after => ?_⟩
      rw [← condition.rename_to r after]
      exact .ifElse condition .right (hthen after) (helse after)
  | .stmt (.while condition body) =>
    rcases List.mem_cons.mp hinner with rfl | hinner
    · exact absurd h id
    · obtain rfl := List.mem_singleton.mp hinner
      obtain ⟨body', hbody⟩ := h
      refine ⟨.while (condition.rename r none) body', fun after => ?_⟩
      rw [← condition.rename_to r after]
      exact .while condition (hbody after)
  | .stmt (.function decl) =>
    obtain rfl := List.mem_singleton.mp hinner
    obtain ⟨decl', hdecl⟩ := h
    exact ⟨.function decl', fun after => .function (fun h => by cases h) (hdecl after)⟩
  | .stmt (.class name superclass methods) =>
    rcases List.mem_append.mp hinner with hinner | hinner
    · obtain ⟨s, -, rfl⟩ := List.mem_map.mp hinner
      exact absurd h id
    · obtain ⟨m, hm, rfl⟩ := List.mem_map.mp hinner
      obtain ⟨methods', hmethods⟩ := Stmt.exists_renamedMethods_of_mem hm h
      have hinClass : Region.around.inClass superclass = .around := by cases superclass <;> rfl
      refine ⟨.class name (superclass.map (Superclass.rename r none)) methods', fun after => ?_⟩
      exact .class name superclass (fun h => by cases h) (hinClass.symm ▸ hmethods after)
  | .routine ⟨name, params, body⟩ =>
    obtain ⟨s, hs, rfl⟩ := List.mem_map.mp hinner
    obtain ⟨body', hbody⟩ := Stmt.exists_renamedAll_of_mem hs h
    exact ⟨⟨name, params.map (r.declaration none), body'⟩,
      fun after => .intro name params (.other .around) (hbody after)⟩

/-- A program that has a node with the scope in it can be renamed. -/
theorem Occurs.exists_renamedAll {body : List Stmt} {above : List Node} {node : Node}
    (hoccurs : Occurs body above node) (h : node.Renamable r) :
    ∃ body', ∀ after, Stmt.RenamedAll (r.to after) .around body body' := by
  induction hoccurs with
  | statement hs => exact Stmt.exists_renamedAll_of_mem hs h
  | child _ hinner ih => exact ih (h.of_child hinner)

/-- The scope itself. -/
theorem Node.renamable_of_declared {node : Node} (hold : r.old ∈ node.declared.map Name.text)
    (hkept : r.old ∉ node.definitions.map Name.text) : node.Renamable r := by
  have hwithin : Region.within 0 ≠ .around := by
    intro h
    cases h
  match node with
  | .stmt (.block body) =>
    obtain ⟨body', hbody⟩ := Stmt.exists_renamedAll r hwithin body fun _ => hkept
    exact ⟨.block body', fun after => .block (.renamed hold) (hbody after)⟩
  | .routine ⟨name, params, body⟩ =>
    obtain ⟨body', hbody⟩ := Stmt.exists_renamedAll r hwithin body fun _ => hkept
    have hopens (after : List Stmt) : Region.around.Opens
        ((r.to after).old ∈ (Node.routine ⟨name, params, body⟩).declared.map Name.text) (.within 0) :=
      .renamed hold
    exact ⟨⟨name, params.map (r.declaration (some 0)), body'⟩,
      fun after => .intro name params (hopens after) (hbody after)⟩
  | .expr _ | .stmt (.expression _) | .stmt (.variable _ _) | .stmt (.ifThen _ _)
  | .stmt (.ifElse _ _ _) | .stmt (.while _ _) | .stmt (.function _) | .stmt (.return _ _)
  | .stmt (.class _ _ _) => exact absurd hold List.not_mem_nil

/-! ### Names of an accepted program -/

theorem Stmt.Proper.isFree_of_mem_variables {s : Stmt} (h : s.Proper) {name : Name}
    (hname : name ∈ s.variables) : name.IsFree := by
  match s with
  | .variable _ _ =>
    obtain rfl := List.mem_singleton.mp hname
    exact h.1
  | .ifThen _ thenBranch => exact Stmt.Proper.isFree_of_mem_variables h.2.2 hname
  | .ifElse _ thenBranch elseBranch =>
    rcases List.mem_append.mp hname with hname | hname
    · exact Stmt.Proper.isFree_of_mem_variables h.2.1.2 hname
    · exact Stmt.Proper.isFree_of_mem_variables h.2.2.2 hname
  | .while _ body => exact Stmt.Proper.isFree_of_mem_variables h.2.2 hname
  | .expression _ | .block _ | .function _ | .return _ _ | .class _ _ _ =>
    exact absurd hname List.not_mem_nil

/-- No variable or parameter of a local scope is a reserved word. -/
theorem Resolved.isFree_of_mem_variables {ds : Distances} {body : List Stmt} (h : Resolved ds body)
    {above : List Node} {node : Node} (hoccurs : Occurs body above node) {name : Name}
    (hname : name ∈ node.variables) : name.IsFree := by
  obtain ⟨σ, hv, -⟩ := hoccurs.exists_visited
  have hfits := hv.fits h.proper
  match node with
  | .stmt (.block inner) =>
    obtain ⟨s, hs, hname⟩ := List.mem_flatMap.mp hname
    exact (Stmt.properAll_iff.mp hfits.of_stmt.1 s hs).isFree_of_mem_variables hname
  | .routine ⟨_, params, inner⟩ =>
    cases hfits with
    | routine _ _ hproper =>
      rcases List.mem_append.mp hname with hname | hname
      · exact hproper.2.1 name hname
      · obtain ⟨s, hs, hname⟩ := List.mem_flatMap.mp hname
        exact (Stmt.properAll_iff.mp hproper.2.2 s hs).isFree_of_mem_variables hname
  | .expr _ | .stmt (.expression _) | .stmt (.variable _ _) | .stmt (.ifThen _ _)
  | .stmt (.ifElse _ _ _) | .stmt (.while _ _) | .stmt (.function _) | .stmt (.return _ _)
  | .stmt (.class _ _ _) => exact absurd hname List.not_mem_nil

/-- In a program without a fault, every name that a local scope declares by `var` or as a parameter can be
renamed to a name that does not occur in the program. -/
theorem Resolved.exists_isLocal {ds : Distances} {body : List Stmt} (h : Resolved ds body)
    {above : List Node} {node : Node} (hoccurs : Occurs body above node) {name : Name}
    (hname : name ∈ node.variables) {new : String} (hfresh : Foreign body new)
    (hnew : Keyword.ofText? new = none) :
    ∃ after, Renaming.IsLocal ⟨body, after, ds, name.text, new⟩ := by
  have hlawful : Lawful body :=
    Clean.lawful (clean_iff.mp (Finding.errors_eq_nil_iff.mpr h.clean))
  have hold : name.text ∈ node.variables.map Name.text := List.mem_map_of_mem hname
  obtain ⟨after, hafter⟩ := hoccurs.exists_renamedAll (r := ⟨body, [], ds, name.text, new⟩)
    (Node.renamable_of_declared (Node.mem_declared_of_variables hold)
      (hlawful.not_mem_definitions hoccurs hold))
  exact ⟨after, hafter after, hfresh, h.isFree_of_mem_variables hoccurs hname, hnew⟩

end Treewalk
