import Treewalk.Proofs.Scope.Resolution

/-!
# Classes around nodes

What a method of a class contains *directly* stands in no other class inside of the method. There the
walk knows which class it is in: whether the class has a superclass, and that the scopes of its
methods are among the open ones.

## Main definitions

* `Node.IsClass`: declarations of classes.
* `Visit.Directly`: the visits within a node that are in no class inside of it.

## Main results

* `Visit.Within.tail_suffix`, `Visit.Within.suffix_of_routine`: scopes that stay open.
* `Visit.Within.directly_or`: a visit within a node, and the innermost class around it.
* `Visited.within_or_within`: nodes with a number in common are within one another.
* `Visited.declares_super`: in a class with a superclass `super` is declared.
* `Visit.Within.directly_super`: the innermost class around an occurrence of `super`.
-/

namespace Treewalk

/-- The node is the declaration of a class. -/
def Node.IsClass : Node → Prop
  | .stmt (.class _ _ _) => True
  | _ => False

/-- The visits within a node that are in no class inside of it. -/
inductive Visit.Directly (v : Visit) : Visit → Prop
  | self : Directly v v
  | part {w x : Visit} (h : Directly v w) (hclass : ¬ w.node.IsClass) (hx : x ∈ w.parts) :
    Directly v x

/-! ### Scopes that stay open -/

/-- Statements change the innermost scope only. -/
theorem Stmt.tail_after (s : Stmt) (scopes : Scopes) : (s.after scopes).tail = scopes.tail := by
  match s with
  | .variable name _ | .class name _ _ => exact Scopes.tail_introduce scopes name
  | .function decl => exact Scopes.tail_introduce scopes decl.name
  | .ifThen _ thenBranch => exact thenBranch.tail_after scopes
  | .ifElse _ thenBranch elseBranch =>
    exact (elseBranch.tail_after _).trans (thenBranch.tail_after scopes)
  | .while _ body => exact body.tail_after scopes
  | .expression _ | .block _ | .return _ _ => rfl

theorem Scopes.tail_introduceAll (names : List Name) (scopes : Scopes) :
    (scopes.introduceAll names).tail = scopes.tail := by
  induction names generalizing scopes with
  | nil => rfl
  | cons name names ih => exact (ih (scopes.introduce name)).trans (scopes.tail_introduce name)

theorem Site.tail_of_mem_along {σ : Site} {ss : List Stmt} {v : Visit} (hv : v ∈ σ.along ss) :
    v.site.context = σ.context ∧ v.site.scopes.tail = σ.scopes.tail := by
  induction ss generalizing σ with
  | nil => cases hv
  | cons s ss ih =>
    rcases List.mem_cons.mp hv with rfl | hv
    · exact ⟨rfl, rfl⟩
    · obtain ⟨hcontext, htail⟩ := ih hv
      exact ⟨hcontext, htail.trans (s.tail_after σ.scopes)⟩

theorem Site.tail_parameterScopes (σ : Site) (decl : FunctionDecl) :
    (σ.parameterScopes decl).tail = σ.scopes :=
  Scopes.tail_introduceAll decl.params ([] :: σ.scopes)

/-- Around the parts of a node all scopes but the innermost one stay open as they are. -/
theorem Visit.tail_suffix_of_mem_parts {v w : Visit} (hw : w ∈ v.parts) :
    v.site.scopes.tail <:+ w.site.scopes.tail := by
  match v with
  | ⟨.expr e, σ⟩ =>
    obtain ⟨part, -, rfl⟩ := List.mem_map.mp hw
    exact List.suffix_rfl
  | ⟨.routine decl, σ⟩ =>
    rw [(Site.tail_of_mem_along hw).2]
    exact (List.tail_suffix _).trans ⟨[], (σ.tail_parameterScopes decl).symm⟩
  | ⟨.stmt s, σ⟩ =>
    match s with
    | .expression _ => cases List.mem_singleton.mp hw; exact List.suffix_rfl
    | .variable name initializer =>
      obtain ⟨e, -, rfl⟩ := List.mem_map.mp hw
      exact ⟨[], (σ.scopes.tail_declare name).symm⟩
    | .block body =>
      rw [(Site.tail_of_mem_along hw).2]
      exact List.tail_suffix _
    | .ifThen _ _ | .while _ _ =>
      rcases List.mem_pair.mp hw with rfl | rfl <;> exact List.suffix_rfl
    | .ifElse _ thenBranch _ =>
      rcases List.mem_cons.mp hw with rfl | hw
      · exact List.suffix_rfl
      rcases List.mem_pair.mp hw with rfl | rfl
      · exact List.suffix_rfl
      · exact ⟨[], (thenBranch.tail_after σ.scopes).symm⟩
    | .function decl =>
      cases List.mem_singleton.mp hw
      exact ⟨[], (σ.scopes.tail_introduce decl.name).symm⟩
    | .return _ value =>
      obtain ⟨e, -, rfl⟩ := List.mem_map.mp hw
      exact List.suffix_rfl
    | .class name superclass methods =>
      have htail := σ.scopes.tail_introduce name
      rcases List.mem_append.mp hw with hw | hw
      · obtain ⟨s, -, rfl⟩ := List.mem_map.mp hw
        exact ⟨[], htail.symm⟩
      · obtain ⟨m, -, rfl⟩ := List.mem_map.mp hw
        have hsuffix : σ.scopes.tail <:+ σ.scopes.introduce name := by
          rw [← htail]
          exact List.tail_suffix _
        cases superclass with
        | none => exact hsuffix
        | some s => exact hsuffix.trans (List.suffix_cons _ _)

/-- What is directly in a part of a node is directly in the node. -/
theorem Visit.Directly.cons {v w x : Visit} (h : w.Directly x) (hclass : ¬ v.node.IsClass)
    (hw : w ∈ v.parts) : v.Directly x := by
  induction h with
  | self => exact .part .self hclass hw
  | part _ hclass' hx ih => exact .part ih hclass' hx

namespace Visit.Within

variable {v w x : Visit}

/-- Within a node all scopes but the innermost one stay open as they are. -/
theorem tail_suffix (h : v.Within w) : v.site.scopes.tail <:+ w.site.scopes.tail := by
  induction h with
  | self v => exact List.suffix_rfl
  | part hw _ ih => exact (Visit.tail_suffix_of_mem_parts hw).trans ih

/-- Within a function all scopes around it stay open as they are, and there are more. -/
theorem suffix_of_routine {decl : FunctionDecl} {σ : Site}
    (h : Within ⟨.routine decl, σ⟩ w) (hne : w ≠ ⟨.routine decl, σ⟩) :
    σ.scopes <:+ w.site.scopes.tail := by
  cases h with
  | self => exact absurd rfl hne
  | part hw h =>
    have htail := (Site.tail_of_mem_along hw).2.trans (σ.tail_parameterScopes decl)
    exact List.IsSuffix.trans ⟨[], htail.symm⟩ h.tail_suffix

/-- A visit within a node is in no class inside of the node, or it is the superclass of one or
directly in a method of one. -/
theorem directly_or (h : v.Within x) :
    v.Directly x ∨ ∃ c w, v.Within c ∧ c.node.IsClass ∧ w ∈ c.parts ∧ w.Directly x := by
  induction h with
  | self v => exact .inl .self
  | @part v w x hw _ ih =>
    rcases ih with h | ⟨c, w', hc, hclass, hw', h⟩
    · by_cases hclass : v.node.IsClass
      · exact .inr ⟨v, w, .self v, hclass, hw, h⟩
      · exact .inl (h.cons hclass hw)
    · exact .inr ⟨c, w', .part hw hc, hclass, hw', h⟩

/-- Visits within a node that have a number in common are within one another, if the numbers of the
node differ. -/
theorem comparable (v : Visit) : v.ids.Nodup → ∀ a b, v.Within a → v.Within b →
    ∀ id ∈ a.ids, id ∈ b.ids → a.Within b ∨ b.Within a := by
  induction v using Visit.induct with
  | step v ih =>
    intro hnodup a b ha hb id hida hidb
    have hparts := (List.nodup_append.mp (v.ids_perm.nodup hnodup)).2.1
    cases ha with
    | self => exact .inl hb
    | part hw ha =>
      cases hb with
      | self => exact .inr (.part hw ha)
      | part hw' hb =>
        obtain rfl := Visit.eq_of_mem_ids hparts hw hw' (ha.ids_subset hida) (hb.ids_subset hidb)
        exact ih _ hw ((List.nodup_flatMap.mp hparts).1 _ hw) a b ha hb id hida hidb

/-- Within an expression there are only expressions. -/
theorem exists_expr {e : Expr} {σ : Site} (h : Within ⟨.expr e, σ⟩ w) : ∃ e', w.node = .expr e' := by
  generalize hv : (⟨.expr e, σ⟩ : Visit) = v at h
  induction h generalizing e with
  | self v => exact ⟨e, by rw [← hv]⟩
  | part hw _ ih =>
    subst hv
    obtain ⟨part, -, rfl⟩ := List.mem_map.mp hw
    exact ih rfl

end Visit.Within

/-- In a program whose numbers differ, nodes with a number in common are within one another. -/
theorem Visited.within_or_within {body : List Stmt} (hnodup : (Stmt.idsAll body).Nodup) {v w : Visit}
    (hv : Visited body v) (hw : Visited body w) {id : Nat} (hid : id ∈ v.ids) (hid' : id ∈ w.ids) :
    v.Within w ∨ w.Within v := by
  rw [← Site.ids_along Site.outermost body] at hnodup
  obtain ⟨root, hroot, hwithin⟩ := hv.exists_within
  obtain ⟨root', hroot', hwithin'⟩ := hw.exists_within
  obtain rfl := Visit.eq_of_mem_ids hnodup hroot hroot' (hwithin.ids_subset hid)
    (hwithin'.ids_subset hid')
  exact Visit.Within.comparable root ((List.nodup_flatMap.mp hnodup).1 root hroot) v w hwithin
    hwithin' id hid hid'

/-! ### The class that a node stands in -/

namespace Visit.Directly

variable {v w x : Visit}

theorem within (h : v.Directly w) : v.Within w := by
  induction h with
  | self => exact .self v
  | part _ _ hx ih => exact ih.snoc hx

end Visit.Directly

/-- Only in the parts of a class the walk is in another class. -/
theorem Visit.cls_of_mem_parts {v w : Visit} (hclass : ¬ v.node.IsClass) (hw : w ∈ v.parts) :
    w.site.context.cls = v.site.context.cls := by
  match v with
  | ⟨.expr e, σ⟩ =>
    obtain ⟨part, -, rfl⟩ := List.mem_map.mp hw
    rfl
  | ⟨.routine decl, σ⟩ => exact congrArg Context.cls (Site.tail_of_mem_along hw).1
  | ⟨.stmt s, σ⟩ =>
    match s with
    | .expression _ => cases List.mem_singleton.mp hw; rfl
    | .variable _ _ | .return _ _ =>
      obtain ⟨e, -, rfl⟩ := List.mem_map.mp hw
      rfl
    | .block _ => exact congrArg Context.cls (Site.tail_of_mem_along hw).1
    | .ifThen _ _ | .while _ _ => rcases List.mem_pair.mp hw with rfl | rfl <;> rfl
    | .ifElse _ _ _ =>
      rcases List.mem_cons.mp hw with rfl | hw
      · rfl
      · rcases List.mem_pair.mp hw with rfl | rfl <;> rfl
    | .function decl => cases List.mem_singleton.mp hw; rfl
    | .class _ _ _ => exact absurd trivial hclass

theorem Visit.Directly.cls_eq {v w : Visit} (h : v.Directly w) :
    w.site.context.cls = v.site.context.cls := by
  induction h with
  | self => rfl
  | part _ hclass hx ih => exact (Visit.cls_of_mem_parts hclass hx).trans ih

/-- In a class with a superclass `super` is declared, unless in the superclass itself. -/
theorem Visited.declares_super {body : List Stmt} {v : Visit} (hv : Visited body v)
    (hcls : v.site.context.cls = .derived) :
    (∃ scope ∈ v.site.scopes.tail, scope.declares "super") ∨
      ∃ id name, v.node = .expr (.variable id name) := by
  induction hv with
  | statement hv =>
    rw [(Site.tail_of_mem_along hv).1] at hcls
    cases hcls
  | @part v w hv hw ih =>
    obtain ⟨node, σ⟩ := v
    by_cases hclass : node.IsClass
    · match node with
      | .stmt (.class name superclass methods) =>
        rcases List.mem_append.mp hw with hw | hw
        · obtain ⟨s, -, rfl⟩ := List.mem_map.mp hw
          exact .inr ⟨s.id, s.name, rfl⟩
        · obtain ⟨m, -, rfl⟩ := List.mem_map.mp hw
          cases superclass with
          | none => cases hcls
          | some s => exact .inl ⟨[("super", true)], List.mem_cons_self, by decide⟩
    · rw [Visit.cls_of_mem_parts hclass hw] at hcls
      rcases ih hcls with ⟨scope, hscope, hdeclares⟩ | ⟨id, name, hnode⟩
      · exact .inl ⟨scope, (Visit.tail_suffix_of_mem_parts hw).subset hscope, hdeclares⟩
      · obtain rfl : node = .expr (.variable id name) := hnode
        exact absurd hw List.not_mem_nil

/-- Further in, a name is declared no further out. -/
theorem Scopes.distance?_le {inner scopes : Scopes} (hsuffix : inner <:+ scopes) {name : String}
    {d d' : Nat} (h : scopes.distance? name = some d) (h' : inner.distance? name = some d') :
    d + inner.length ≤ scopes.length + d' := by
  obtain ⟨nearer, rfl⟩ := hsuffix
  rw [distance?, List.findIdx?_append] at h
  cases hnearer : List.findIdx? (fun scope => scope.declares name) nearer with
  | some i =>
    rw [hnearer] at h
    cases h
    have hlt := (List.findIdx?_eq_some_iff_getElem.mp hnearer).1
    rw [List.length_append]
    omega
  | none =>
    have hinner : List.findIdx? (fun scope => scope.declares name) inner = some d' := h'
    rw [hnearer, Option.none_or, hinner, Option.map_some] at h
    obtain rfl : d' + nearer.length = d := Option.some.inj h
    rw [List.length_append]
    omega

/-- A method contains an occurrence of `super` directly if `this`, just inside of the scope that
declares `super`, is the receiver of the method. -/
theorem Visit.Within.directly_super {decl : FunctionDecl} {σ τ : Site} {id line distance : Nat}
    {method : Name} (h : Within ⟨.routine decl, σ⟩ ⟨.expr (.super id line method), τ⟩)
    (hcls : τ.context.cls = .derived) (hdistance : τ.scopes.distance? "super" = some (distance + 1))
    (hlength : σ.scopes.length + distance = τ.scopes.length) :
    Visit.Directly ⟨.routine decl, σ⟩ ⟨.expr (.super id line method), τ⟩ := by
  rcases h.directly_or with h | ⟨⟨node, ρ⟩, w, hc, hclass, hw, h⟩
  · exact h
  match node with
  | .stmt (.class name superclass methods) =>
    rcases List.mem_append.mp hw with hw | hw
    · obtain ⟨s, -, rfl⟩ := List.mem_map.mp hw
      cases h.within with
      | part hpart _ => exact absurd hpart List.not_mem_nil
    · obtain ⟨m, -, rfl⟩ := List.mem_map.mp hw
      -- a class further in would declare `super` nearer
      cases superclass with
      | none =>
        have hbase := h.cls_eq
        rw [hcls] at hbase
        cases hbase
      | some s =>
        have hinside : σ.scopes <:+ ρ.scopes :=
          (hc.suffix_of_routine nofun).trans (List.tail_suffix _)
        have hsuffix : (ρ.ofMethod name (some s) m).scopes <:+ τ.scopes :=
          (h.within.suffix_of_routine nofun).trans (List.tail_suffix _)
        have hnear : (ρ.ofMethod name (some s) m).scopes.distance? "super" = some 1 := rfl
        have hmethod : (ρ.ofMethod name (some s) m).scopes.length = ρ.scopes.length + 2 := by
          rw [← Scopes.length_introduce ρ.scopes name]
          rfl
        have hle := Scopes.distance?_le hsuffix hdistance hnear
        have hlt := hinside.length_le
        omega

end Treewalk
