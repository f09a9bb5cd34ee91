import Treewalk.Proofs.Renaming.Trees
import Treewalk.Proofs.Scope.Uniqueness

/-!
# Scopes of renamed programs

The walk over a renamed program has the same scopes open as the walk over the program, with the two
names exchanged in the renamed one. The new name is declared nowhere else, so every occurrence finds its
name as far outward as before, whether or not it is replaced. So the walk finds the same.

## Main definitions

* `Renaming.word`: a name in the renamed scope, or in another one.
* `Scopes.rename`: open scopes after a renaming.

## Main results

* `Scopes.distance?_rename`: distances stay the same.
* `programFindings_rename`: the findings of a renamed program.
-/

namespace Treewalk

variable {r : Renaming}

/-! ### Names -/

/-- A name that is declared in a scope: the two names are exchanged in the renamed one. -/
def Renaming.word (r : Renaming) (depth : Option Nat) (name : String) : String :=
  if depth = some 0 then Equiv.swap r.old r.new name else name

namespace Renaming

theorem text_declaration {name : Name} (hnew : name.text ≠ r.new) (depth : Option Nat) :
    (r.declaration depth name).text = r.word depth name.text := by
  unfold declaration word
  by_cases hdepth : depth = some 0
  · by_cases hold : name.text = r.old
    · rw [if_pos ⟨hdepth, hold⟩, if_pos hdepth, hold, Equiv.swap_apply_left]
    · rw [if_neg fun h => hold h.2, if_pos hdepth, Equiv.swap_apply_of_ne_of_ne hold hnew]
  · rw [if_neg fun h => hdepth h.1, if_neg hdepth]

/-- A name that is not replaced. -/
theorem word_eq_self {depth : Option Nat} {name : String} (hkept : depth = some 0 → name ≠ r.old)
    (hnew : name ≠ r.new) : r.word depth name = name := by
  unfold word
  split
  · next hdepth => exact Equiv.swap_apply_of_ne_of_ne (hkept hdepth) hnew
  · rfl

end Renaming

/-! ### Scopes -/

/-- A renamed scope. -/
def Scope.rename (r : Renaming) (scope : Scope) : Scope :=
  scope.map fun p => (Equiv.swap r.old r.new p.1, p.2)

/-- Open scopes, of which one is renamed. -/
def Scopes.rename (r : Renaming) : Option Nat → Scopes → Scopes
  | none, scopes => scopes
  | some _, [] => []
  | some 0, scope :: outer => scope.rename r :: outer
  | some (depth + 1), scope :: outer => scope :: Scopes.rename r (some depth) outer

/-- No open scope declares a name. -/
def Scopes.Avoid (scopes : Scopes) (name : String) : Prop :=
  ∀ scope ∈ scopes, ¬ scope.declares name

namespace Scope

variable (scope : Scope) (name : String)

theorem swap_beq (other : String) :
    (Equiv.swap r.old r.new other == Equiv.swap r.old r.new name) = (other == name) :=
  Bool.eq_iff_iff.mpr (by simp)

theorem declares_rename : (scope.rename r).declares (Equiv.swap r.old r.new name) =
    scope.declares name := by
  rw [declares, rename, List.any_map, declares]
  congr 1
  funext p
  exact swap_beq name p.1

theorem lookup_rename : (scope.rename r).lookup (Equiv.swap r.old r.new name) =
    scope.lookup name := by
  induction scope with
  | nil => rfl
  | cons p scope ih =>
    rw [rename, List.map_cons, List.lookup_cons, List.lookup_cons, ← rename, ih, swap_beq]

theorem isPending_rename : (scope.rename r).isPending (Equiv.swap r.old r.new name) =
    scope.isPending name := by
  rw [isPending, lookup_rename, isPending]

theorem enter_rename (ready : Bool) : (scope.rename r).enter (Equiv.swap r.old r.new name) ready =
    (scope.enter name ready).rename r := by
  simp only [enter, rename, List.map_cons, List.filter_map, Function.comp_def, bne, swap_beq]

end Scope

namespace Scopes

variable {scopes : Scopes} {depth : Option Nat} {name name' : Name}

@[simp] theorem rename_none (scopes : Scopes) : scopes.rename r none = scopes := by
  cases scopes <;> rfl

@[simp] theorem rename_nil (depth : Option Nat) : Scopes.rename r depth [] = [] := by
  cases depth <;> rfl

theorem rename_cons (scope : Scope) (outer : Scopes) (depth : Option Nat) :
    Scopes.rename r (depth.map (· + 1)) (scope :: outer) = scope :: outer.rename r depth := by
  cases depth with
  | none => rw [Option.map_none, rename_none, rename_none]
  | some depth => rfl

theorem innermostDeclares_rename (scopes : Scopes) (depth : Option Nat) (name : String) :
    (scopes.rename r depth).innermostDeclares (r.word depth name) =
      scopes.innermostDeclares name := by
  match depth, scopes with
  | none, scopes => rw [rename_none, Renaming.word, if_neg (by simp)]
  | some _, [] => rfl
  | some 0, scope :: outer => exact scope.declares_rename name
  | some (_ + 1), scope :: outer =>
    rw [Renaming.word, if_neg (by simp)]
    rfl

theorem enter_rename (scopes : Scopes) (depth : Option Nat) (name : String) (ready : Bool) :
    (scopes.rename r depth).enter (r.word depth name) ready =
      (scopes.enter name ready).rename r depth := by
  match depth, scopes with
  | none, scopes => rw [rename_none, rename_none, Renaming.word, if_neg (by simp)]
  | some _, [] => rw [rename_nil, enter, enter, rename_nil]
  | some 0, scope :: outer => exact congrArg (· :: outer) (scope.enter_rename name ready)
  | some (_ + 1), scope :: outer =>
    rw [Renaming.word, if_neg (by simp)]
    rfl

variable (h : name'.text = r.word depth name.text)

include h

theorem declare_rename (scopes : Scopes) :
    (scopes.rename r depth).declare name' = (scopes.declare name).rename r depth := by
  rw [declare, declare, h, innermostDeclares_rename]
  split
  · rfl
  · exact enter_rename scopes depth name.text false

theorem introduce_rename (scopes : Scopes) :
    (scopes.rename r depth).introduce name' = (scopes.introduce name).rename r depth := by
  rw [introduce, define, declare_rename h, h, enter_rename]
  rfl

/-- A name that is declared for the first time is so after the renaming. -/
theorem declaration_rename (hnil : scopes.declaration name = []) :
    (scopes.rename r depth).declaration name' = [] := by
  rw [declaration] at hnil ⊢
  rw [h, innermostDeclares_rename]
  split at hnil
  · cases hnil
  · next hnew => rw [if_neg hnew]

end Scopes

/-! ### Occurrences -/

/-- The name of an occurrence that is declared at a distance. -/
def Renaming.reference (r : Renaming) (depth distance : Option Nat) (name : String) : String :=
  if name = r.old ∧ depth.isSome ∧ distance = depth then r.new else name

namespace Renaming

theorem text_occurrence (depth : Option Nat) (id : Nat) (name : Name) :
    (r.occurrence depth id name).text = r.reference depth (r.distances.get? id) name.text := by
  unfold occurrence reference
  split <;> rfl

theorem reference_of_ne {depth distance : Option Nat} {name : String} (hold : name ≠ r.old) :
    r.reference depth distance name = name :=
  if_neg fun h => hold h.1

theorem reference_of_distance_ne {depth distance : Option Nat} {name : String}
    (hdistance : distance ≠ depth) : r.reference depth distance name = name :=
  if_neg fun h => hdistance h.2.2

/-- An occurrence that is bound to the renamed scope has the name that is exchanged for its own. -/
theorem reference_self {depth : Nat} {name : String} (hnew : name ≠ r.new) :
    r.reference (some depth) (some depth) name = Equiv.swap r.old r.new name := by
  by_cases hold : name = r.old
  · rw [reference, if_pos ⟨hold, rfl, rfl⟩, hold, Equiv.swap_apply_left]
  · rw [reference_of_ne hold, Equiv.swap_apply_of_ne_of_ne hold hnew]

/-- The name one scope further in. -/
theorem reference_succ (depth : Nat) (distance : Option Nat) (name : String) :
    r.reference (some (depth + 1)) (distance.map (· + 1)) name =
      r.reference (some depth) distance name := by
  cases distance <;> simp [reference]

end Renaming

/-- A scope that does not declare the new name declares the name after the renaming just if it declared
it before, unless it is bound further out. -/
theorem Scope.swap_declares {scope : Scope} {name : String} (hscope : ¬ scope.declares r.new)
    (hnew : name ≠ r.new) (hname : ¬ scope.declares name) :
    ¬ (scope.rename r).declares name := by
  by_cases hold : name = r.old
  · rw [hold, ← Equiv.swap_apply_right r.old r.new, scope.declares_rename]
    exact hscope
  · rw [← Equiv.swap_apply_of_ne_of_ne hold hnew, scope.declares_rename]
    exact hname

/-- A scope that declares neither a name nor the new one declares none by which the name can go. -/
theorem Scope.not_declares_reference {scope : Scope} {name : String}
    (hscope : ¬ scope.declares r.new) (hname : ¬ scope.declares name) (depth distance : Option Nat) :
    ¬ scope.declares (r.reference depth distance name) := by
  unfold Renaming.reference
  split
  · exact hscope
  · exact hname

namespace Scopes

variable {scopes : Scopes} (havoid : scopes.Avoid r.new) {name : String} (hnew : name ≠ r.new)

include havoid hnew

/-- Every occurrence is declared as far outward as before. -/
theorem distance?_rename (depth : Option Nat) :
    (scopes.rename r depth).distance? (r.reference depth (scopes.distance? name) name) =
      scopes.distance? name := by
  induction scopes generalizing depth with
  | nil =>
    rw [rename_nil]
    rfl
  | cons scope outer ih =>
    obtain ⟨hscope, houter⟩ := List.forall_mem_cons.mp havoid
    rw [distance?_cons scope]
    by_cases hname : scope.declares name
    · rw [if_pos hname]
      match depth with
      | none =>
        rw [rename_none, Renaming.reference_of_distance_ne (Option.some_ne_none 0), distance?_cons,
          if_pos hname]
      | some 0 =>
        rw [Renaming.reference_self hnew, rename, distance?_cons, scope.declares_rename,
          if_pos hname]
      | some (depth + 1) =>
        rw [Renaming.reference_of_distance_ne (by simp), rename, distance?_cons, if_pos hname]
    · rw [if_neg hname]
      match depth with
      | none =>
        rw [rename_none, Renaming.reference, if_neg (by simp), distance?_cons, if_neg hname]
      | some 0 =>
        rw [Renaming.reference_of_distance_ne (by simp), rename, distance?_cons,
          if_neg (Scope.swap_declares hscope hnew hname)]
      | some (depth + 1) =>
        rw [rename, distance?_cons, Renaming.reference_succ,
          if_neg (Scope.not_declares_reference hscope hname _ _), ih houter (some depth)]

/-- A name that is ready is so after the renaming. -/
theorem not_isPending_rename (hready : ¬ scopes.isPending name) (depth : Option Nat) :
    ¬ (scopes.rename r depth).isPending (r.reference depth (scopes.distance? name) name) := by
  match scopes, depth with
  | [], depth =>
    rw [rename_nil]
    exact Bool.false_ne_true
  | scope :: outer, none =>
    rwa [rename_none, Renaming.reference, if_neg (by simp)]
  | scope :: outer, some 0 =>
    rw [distance?_cons]
    by_cases hname : scope.declares name
    · rw [if_pos hname, Renaming.reference_self hnew]
      exact fun h => hready ((scope.isPending_rename name).symm.trans h)
    · rw [if_neg hname, Renaming.reference_of_distance_ne (by simp)]
      have hscope := (List.forall_mem_cons.mp havoid).1
      exact fun h => Scope.swap_declares hscope hnew hname (Scope.declares_of_isPending h)
  | scope :: outer, some (depth + 1) =>
    rw [distance?_cons]
    by_cases hname : scope.declares name
    · rwa [if_pos hname, Renaming.reference_of_distance_ne (by simp)]
    · have hscope := (List.forall_mem_cons.mp havoid).1
      exact fun h => Scope.not_declares_reference hscope hname _ _ (Scope.declares_of_isPending h)

end Scopes

/-! ### Names that do not occur -/

section Foreign

variable {body : List Stmt} {word : String}

theorem Foreign.not_mem_flatMap_declared (hforeign : Foreign body word) {ss : List Stmt}
    (h : ∀ s ∈ ss, ∃ above, Occurs body above (.stmt s)) :
    word ∉ (ss.flatMap Stmt.declared).map Name.text := by
  intro hmem
  rw [List.map_flatMap, List.mem_flatMap] at hmem
  obtain ⟨s, hs, hmem⟩ := hmem
  obtain ⟨above, hoccurs⟩ := h s hs
  exact hforeign hoccurs hmem

mutual

/-- A name that does not occur in a program is not declared inside of its statements. -/
theorem Stmt.not_mem_nested (hforeign : Foreign body word) {above : List Node} :
    (s : Stmt) → Occurs body above (.stmt s) → word ∉ s.nested.map Name.text
  | .block inner, h => by
    have hinner : ∀ s ∈ inner, ∃ above, Occurs body above (.stmt s) :=
      fun s hs => ⟨_, h.child (List.mem_map_of_mem hs)⟩
    rw [Stmt.nested, List.map_append, List.mem_append, not_or]
    exact ⟨hforeign.not_mem_flatMap_declared hinner, Stmt.not_mem_nestedAll hforeign inner hinner⟩
  | .ifThen _ thenBranch, h =>
    thenBranch.not_mem_nested hforeign (h.child (List.mem_cons_of_mem _ List.mem_cons_self))
  | .ifElse _ thenBranch elseBranch, h => by
    rw [Stmt.nested, List.map_append, List.mem_append, not_or]
    have hthen := h.child (List.mem_cons_of_mem _ List.mem_cons_self)
    have helse := h.child (List.mem_cons_of_mem _ (List.mem_cons_of_mem _ List.mem_cons_self))
    exact ⟨thenBranch.not_mem_nested hforeign hthen, elseBranch.not_mem_nested hforeign helse⟩
  | .while _ inner, h =>
    inner.not_mem_nested hforeign (h.child (List.mem_cons_of_mem _ List.mem_cons_self))
  | .function decl, h => decl.not_mem_nested hforeign (h.child List.mem_cons_self)
  | .class _ _ methods, h => Stmt.not_mem_nestedMethods hforeign methods fun _ hm =>
    ⟨_, h.child (List.mem_append_right _ (List.mem_map_of_mem hm))⟩
  | .expression _, _ | .variable _ _, _ | .return _ _, _ => List.not_mem_nil

theorem Stmt.not_mem_nestedAll (hforeign : Foreign body word) :
    (ss : List Stmt) → (∀ s ∈ ss, ∃ above, Occurs body above (.stmt s)) →
      word ∉ (Stmt.nestedAll ss).map Name.text
  | [], _ => List.not_mem_nil
  | s :: ss, h => by
    obtain ⟨⟨_, hs⟩, hss⟩ := List.forall_mem_cons.mp h
    rw [Stmt.nestedAll, List.map_append, List.mem_append, not_or]
    exact ⟨s.not_mem_nested hforeign hs, Stmt.not_mem_nestedAll hforeign ss hss⟩

theorem FunctionDecl.not_mem_nested (hforeign : Foreign body word) {above : List Node} :
    (decl : FunctionDecl) → Occurs body above (.routine decl) → word ∉ decl.nested.map Name.text
  | ⟨_, params, inner⟩, h => by
    have hinner : ∀ s ∈ inner, ∃ above, Occurs body above (.stmt s) :=
      fun s hs => ⟨_, h.child (List.mem_map_of_mem hs)⟩
    rw [FunctionDecl.nested, List.map_append, List.map_append, List.mem_append, List.mem_append,
      not_or, not_or]
    exact ⟨⟨hforeign h, hforeign.not_mem_flatMap_declared hinner⟩,
      Stmt.not_mem_nestedAll hforeign inner hinner⟩

theorem Stmt.not_mem_nestedMethods (hforeign : Foreign body word) :
    (ms : List FunctionDecl) → (∀ m ∈ ms, ∃ above, Occurs body above (.routine m)) →
      word ∉ (Stmt.nestedMethods ms).map Name.text
  | [], _ => List.not_mem_nil
  | m :: ms, h => by
    obtain ⟨⟨_, hm⟩, hms⟩ := List.forall_mem_cons.mp h
    rw [Stmt.nestedMethods, List.map_append, List.mem_append, not_or]
    exact ⟨m.not_mem_nested hforeign hm, Stmt.not_mem_nestedMethods hforeign ms hms⟩

end

end Foreign

namespace Renaming.IsLocal

theorem old_ne (hr : r.IsLocal) (k : Keyword) : r.old ≠ k.text :=
  @Name.IsFree.ne_text ⟨r.old, 0⟩ hr.oldFree k

theorem new_ne (hr : r.IsLocal) (k : Keyword) : r.new ≠ k.text :=
  @Name.IsFree.ne_text ⟨r.new, 0⟩ hr.newFree k

/-- No scope that is open at an expression declares the new name. -/
theorem avoid (hr : r.IsLocal) (h : Resolved r.distances r.before) {e : Expr} {σ : Site}
    (hv : Visited r.before ⟨.expr e, σ⟩) : σ.scopes.Avoid r.new := by
  intro scope hscope hdeclares
  obtain ⟨k, hk⟩ := List.getElem?_of_mem hscope
  obtain ⟨final, hfinal, hends⟩ := (h.endAs (.visit hv)).getElem? hk
  have hnested : r.new ∉ (Stmt.nestedAll r.before).map Name.text :=
    Stmt.not_mem_nestedAll hr.fresh r.before fun s hs => ⟨[], .statement hs⟩
  exact hnested ((Met.visit hv).mem_nestedAll (hr.new_ne .thisWord) (hr.new_ne .superWord) hfinal
    (hends.covers _ hdeclares))

end Renaming.IsLocal

/-! ### The findings of expressions -/

/-- The walk visits the parts of an expression where it visits the expression. -/
theorem Visited.exprPart {body : List Stmt} {e part : Expr} {σ : Site}
    (hv : Visited body ⟨.expr e, σ⟩) (hpart : part ∈ e.parts) : Visited body ⟨.expr part, σ⟩ :=
  hv.part (List.mem_map_of_mem hpart)

section Occurrences

variable (hr : r.IsLocal) (h : Resolved r.distances r.before) {σ : Site} (depth : Option Nat)

include hr h

/-- What an occurrence refers to. -/
theorem Scopes.occurrence_rename {e : Expr} {id : Nat} {name : String}
    (hv : Visited r.before ⟨.expr e, σ⟩) (he : e.occurrence? = some (id, name)) :
    (σ.scopes.rename r depth).occurrence id (r.reference depth (r.distances.get? id) name) =
      σ.scopes.occurrence id name := by
  obtain ⟨above, hoccurs, -⟩ := hv.exists_occurs
  have hnew : name ≠ r.new := by
    rintro rfl
    exact hr.fresh hoccurs (by simp [Node.words, he])
  rw [Scopes.occurrence, h.get?_occurrence (.visit hv) he,
    distance?_rename (hr.avoid h hv) hnew, Scopes.occurrence]

/-- Reserved words are not renamed. -/
theorem Scopes.occurrence_rename_keyword {e : Expr} {id : Nat} (k : Keyword)
    (hv : Visited r.before ⟨.expr e, σ⟩) (he : e.occurrence? = some (id, k.text)) :
    (σ.scopes.rename r depth).occurrence id k.text = σ.scopes.occurrence id k.text := by
  have heq := Scopes.occurrence_rename hr h depth hv he
  rwa [Renaming.reference_of_ne (hr.old_ne k).symm] at heq

theorem Scopes.not_isPending_occurrence {e : Expr} {id : Nat} {name : String}
    (hv : Visited r.before ⟨.expr e, σ⟩) (he : e.occurrence? = some (id, name))
    (hassign : ∀ target value, e ≠ .assign id target value) :
    ¬ (σ.scopes.rename r depth).isPending (r.reference depth (r.distances.get? id) name) := by
  obtain ⟨above, hoccurs, -⟩ := hv.exists_occurs
  have hnew : name ≠ r.new := by
    rintro rfl
    exact hr.fresh hoccurs (by simp [Node.words, he])
  rw [h.get?_occurrence (.visit hv) he]
  exact not_isPending_rename (hr.avoid h hv) hnew (h.not_isPending (.visit hv) he hassign) depth

end Occurrences

mutual

theorem Expr.findings_rename (hr : r.IsLocal) (h : Resolved r.distances r.before) {σ : Site}
    (depth : Option Nat) : (e : Expr) → Visited r.before ⟨.expr e, σ⟩ →
    (e.rename r depth).findings σ.context.cls (σ.scopes.rename r depth) =
      e.findings σ.context.cls σ.scopes
  | .literal _, _ => rfl
  | .grouping inner, hv => inner.findings_rename hr h depth (hv.exprPart List.mem_cons_self)
  | .unary _ _ operand, hv => operand.findings_rename hr h depth (hv.exprPart List.mem_cons_self)
  | .binary _ _ left right, hv | .logical _ _ left right, hv => by
    have hleft := left.findings_rename hr h depth (hv.exprPart List.mem_cons_self)
    have hright := right.findings_rename hr h depth (hv.exprPart (by simp [Expr.parts]))
    rw [Expr.rename, Expr.findings, Expr.findings, hleft, hright]
  | .ternary condition whenTrue whenFalse, hv => by
    have hcondition := condition.findings_rename hr h depth (hv.exprPart List.mem_cons_self)
    have htrue := whenTrue.findings_rename hr h depth (hv.exprPart (by simp [Expr.parts]))
    have hfalse := whenFalse.findings_rename hr h depth (hv.exprPart (by simp [Expr.parts]))
    rw [Expr.rename, Expr.findings, Expr.findings, hcondition, htrue, hfalse]
  | .variable id name, hv => by
    have hready := h.not_isPending (.visit hv) rfl nofun
    have hready' := Scopes.not_isPending_occurrence hr h depth hv rfl nofun
    rw [Expr.rename, Expr.findings, Expr.findings, r.text_occurrence,
      Scopes.occurrence_rename hr h depth hv rfl, if_neg hready, if_neg hready']
  | .assign id name value, hv => by
    have hvalue := value.findings_rename hr h depth (hv.exprPart List.mem_cons_self)
    rw [Expr.rename, Expr.findings, Expr.findings, r.text_occurrence,
      Scopes.occurrence_rename hr h depth hv rfl, hvalue]
  | .call callee _ arguments, hv => by
    have hcallee := callee.findings_rename hr h depth (hv.exprPart List.mem_cons_self)
    have harguments := Expr.findingsAll_rename hr h depth arguments fun e he =>
      hv.exprPart (List.mem_cons_of_mem _ he)
    rw [Expr.rename, Expr.findings, Expr.findings, hcallee, harguments]
  | .get object _, hv => object.findings_rename hr h depth (hv.exprPart List.mem_cons_self)
  | .set object _ value, hv => by
    have hvalue := value.findings_rename hr h depth (hv.exprPart List.mem_cons_self)
    have hobject := object.findings_rename hr h depth (hv.exprPart (by simp [Expr.parts]))
    rw [Expr.rename, Expr.findings, Expr.findings, hvalue, hobject]
  | .this id line, hv => by
    have hthis := Scopes.occurrence_rename_keyword hr h depth .thisWord hv rfl
    rw [Expr.rename]
    cases σ.context.cls with
    | nothing => rfl
    | base => exact hthis
    | derived => exact hthis
  | .super id line method, hv => by
    have hsuper := Scopes.occurrence_rename_keyword hr h depth .superWord hv rfl
    rw [Expr.rename]
    cases σ.context.cls with
    | nothing => rfl
    | base => rfl
    | derived => exact hsuper

theorem Expr.findingsAll_rename (hr : r.IsLocal) (h : Resolved r.distances r.before) {σ : Site}
    (depth : Option Nat) : (es : List Expr) → (∀ e ∈ es, Visited r.before ⟨.expr e, σ⟩) →
    Expr.findingsAll σ.context.cls (σ.scopes.rename r depth) (Expr.renameAll r depth es) =
      Expr.findingsAll σ.context.cls σ.scopes es
  | [], _ => rfl
  | e :: es, hv => by
    obtain ⟨he, hes⟩ := List.forall_mem_cons.mp hv
    rw [Expr.renameAll, Expr.findingsAll, Expr.findingsAll, e.findings_rename hr h depth he,
      Expr.findingsAll_rename hr h depth es hes]

end

/-- The findings of an expression that may be absent. -/
theorem Expr.findingsOf_rename (hr : r.IsLocal) (h : Resolved r.distances r.before) {σ : Site}
    (depth : Option Nat) {e : Option Expr} (hv : ∀ e' ∈ e.toList, Visited r.before ⟨.expr e', σ⟩) :
    Expr.findingsOf σ.context.cls (σ.scopes.rename r depth) (e.map (Expr.rename r depth)) =
      Expr.findingsOf σ.context.cls σ.scopes e := by
  cases e with
  | none => rfl
  | some e => exact e.findings_rename hr h depth (hv e List.mem_cons_self)

/-! ### The scopes after statements -/

namespace Scopes

/-- The scope that has just been opened. -/
theorem rename_opened {declares : Prop} {g inner : Region} (h : g.Opens declares inner)
    (scopes : Scopes) : Scopes.rename r inner.depth ([] :: scopes) = [] :: scopes.rename r g.depth := by
  cases h with
  | other =>
    rw [Region.depth_deepen, rename_cons]
  | renamed =>
    change Scope.rename r [] :: scopes = [] :: scopes.rename r none
    rw [rename_none]
    rfl

/-- The scopes around the methods of a class. -/
theorem rename_classScopes (g : Region) (superclass : Option Superclass) (scopes : Scopes) :
    (Site.classScopes superclass ++ scopes).rename r (g.inClass superclass).depth =
      Site.classScopes superclass ++ scopes.rename r g.depth := by
  cases superclass with
  | none =>
    change Scopes.rename r g.deepen.depth (_ :: scopes) = _ :: scopes.rename r g.depth
    rw [Region.depth_deepen, rename_cons]
  | some s =>
    change Scopes.rename r g.deepen.deepen.depth (_ :: _ :: scopes) = _ :: _ :: scopes.rename r g.depth
    rw [Region.depth_deepen, Region.depth_deepen, rename_cons, rename_cons]

theorem introduceAll_rename {depth : Option Nat} {params : List Name}
    (hnew : r.new ∉ params.map Name.text) (scopes : Scopes) :
    (scopes.rename r depth).introduceAll (params.map (r.declaration depth)) =
      (scopes.introduceAll params).rename r depth := by
  induction params generalizing scopes with
  | nil => rfl
  | cons p params ih =>
    rw [List.map_cons, List.mem_cons, not_or] at hnew
    rw [List.map_cons, introduceAll, List.foldl_cons,
      introduce_rename (Renaming.text_declaration (Ne.symm hnew.1) depth)]
    exact ih hnew.2 (scopes.introduce p)

/-- Parameters that are declared for the first time are so after the renaming. -/
theorem parameterFindings_rename {depth : Option Nat} {params : List Name}
    (hnew : r.new ∉ params.map Name.text) {scopes : Scopes}
    (hnil : (parameterFindings scopes params).1 = []) :
    (parameterFindings (scopes.rename r depth) (params.map (r.declaration depth))).1 = [] := by
  induction params generalizing scopes with
  | nil => rfl
  | cons p params ih =>
    rw [List.map_cons, List.mem_cons, not_or] at hnew
    obtain ⟨hp, hparams⟩ := List.append_eq_nil_iff.mp hnil
    have htext := Renaming.text_declaration (Ne.symm hnew.1) depth
    refine List.append_eq_nil_iff.mpr ⟨declaration_rename htext hp, ?_⟩
    have hscopes : ((scopes.rename r depth).declare (r.declaration depth p)).define
        (r.declaration depth p) = (scopes.introduce p).rename r depth := introduce_rename htext scopes
    rw [hscopes]
    exact ih hnew.2 hparams

end Scopes

/-- The scopes after a statement. -/
theorem Stmt.Renamed.after_rename {g : Region} {s s' : Stmt} (h : s.Renamed r g s')
    (hnew : r.new ∉ s.declared.map Name.text) (scopes : Scopes) :
    s'.after (scopes.rename r g.depth) = (s.after scopes).rename r g.depth := by
  match s with
  | .variable name initializer =>
    cases h
    have hname : name.text ≠ r.new := Name.text_ne_of_not_mem hnew
    exact Scopes.introduce_rename (Renaming.text_declaration hname g.depth) scopes
  | .function decl =>
    cases h with
    | function hkept hdecl =>
      have hname : decl.name.text ≠ r.new := Name.text_ne_of_not_mem hnew
      rw [Stmt.after, hdecl.name_eq]
      exact Scopes.introduce_rename (Renaming.word_eq_self hkept hname).symm scopes
  | .class name superclass methods =>
    cases h with
    | «class» _ _ hkept _ =>
      have hname : name.text ≠ r.new := Name.text_ne_of_not_mem hnew
      exact Scopes.introduce_rename (Renaming.word_eq_self hkept hname).symm scopes
  | .ifThen _ thenBranch =>
    cases h with
    | ifThen _ hthen => exact hthen.after_rename hnew scopes
  | .ifElse _ thenBranch elseBranch =>
    cases h with
    | ifElse _ hsplits hthen helse =>
      rw [Stmt.declared, List.map_append, List.mem_append, not_or] at hnew
      have hthen := hthen.after_rename hnew.1 scopes
      have helse := helse.after_rename hnew.2 (thenBranch.after scopes)
      rw [hsplits.depth_left] at hthen
      rw [hsplits.depth_right] at helse
      rw [Stmt.after, hthen, helse, Stmt.after]
  | .while _ body =>
    cases h with
    | «while» _ hbody => exact hbody.after_rename hnew scopes
  | .expression _ | .block _ | .return _ _ =>
    cases h
    rfl

/-! ### The findings of statements -/

theorem Renaming.IsLocal.not_mem_declared (hr : r.IsLocal) {σ : Site} {s : Stmt}
    (hv : Visited r.before ⟨.stmt s, σ⟩) : r.new ∉ s.declared.map Name.text := by
  obtain ⟨above, hoccurs, -⟩ := hv.exists_occurs
  exact hr.fresh hoccurs

/-- A name that a statement declares for the first time is so after the renaming. -/
theorem Resolved.declaration_rename (h : Resolved r.distances r.before) {σ : Site} {s : Stmt}
    {name name' : Name} {depth : Option Nat} (hv : Visited r.before ⟨.stmt s, σ⟩)
    (hown : σ.scopes.declaration name ⊆ s.own σ) (htext : name'.text = r.word depth name.text) :
    (σ.scopes.rename r depth).declaration name' = σ.scopes.declaration name := by
  have hclean : Clean r.before := fun hv => h.not_mem_own hv
  have hnil : σ.scopes.declaration name = [] := hclean.declaration_eq_nil hv hown
  rw [Scopes.declaration_rename htext hnil, hnil]

/-- The findings of a superclass; none is the class itself after the renaming. -/
theorem Resolved.superclassFindings_rename (h : Resolved r.distances r.before) (hr : r.IsLocal)
    (depth : Option Nat) {σ : Site} {name : Name} {s : Superclass} {methods : List FunctionDecl}
    (hv : Visited r.before ⟨.stmt (.class name (some s) methods), σ⟩) :
    superclassFindings name ((σ.scopes.introduce name).rename r depth) (s.rename r depth) =
      superclassFindings name (σ.scopes.introduce name) s := by
  have hname : name.text ≠ r.new := Name.text_ne_of_not_mem (hr.not_mem_declared hv)
  have hne : s.name.text ≠ name.text := h.superclass_ne hv
  have hne' : (s.rename r depth).name.text ≠ name.text := by
    rw [Superclass.rename, r.text_occurrence, Renaming.reference]
    split
    · exact hname.symm
    · exact hne
  have hexpr := s.expr.findings_rename hr h (σ := σ.ofSuperclass name) depth
    (hv.part List.mem_cons_self)
  rw [superclassFindings, superclassFindings, if_neg hne, if_neg hne', s.expr_rename]
  exact congrArg ([] ++ ·) hexpr

mutual

theorem Stmt.findings_rename (hr : r.IsLocal) (h : Resolved r.distances r.before) {g : Region}
    {σ : Site} {s' : Stmt} : (s : Stmt) → s.Renamed r g s' → Visited r.before ⟨.stmt s, σ⟩ →
    (s'.findings σ.context (σ.scopes.rename r g.depth)).1 = (s.findings σ.context σ.scopes).1
  | .expression e, hs, hv => by
    cases hs
    exact e.findings_rename hr h g.depth (hv.part List.mem_cons_self)
  | .variable name initializer, hs, hv => by
    cases hs
    have hname : name.text ≠ r.new := Name.text_ne_of_not_mem (hr.not_mem_declared hv)
    have htext := Renaming.text_declaration hname g.depth
    have hinitializer := Expr.findingsOf_rename hr h
      (σ := { σ with scopes := σ.scopes.declare name }) g.depth (e := initializer)
      fun e he => hv.part (List.mem_map_of_mem he)
    simp only [Stmt.findings, Scopes.declare_rename htext,
      h.declaration_rename hv (List.Subset.refl _) htext, hinitializer]
  | .block body, hs, hv => by
    cases hs with
    | block hopens hbody =>
      have hinner := Stmt.findingsAll_rename hr h (σ := σ.inBlock body) body hbody fun _ => hv.part
      rw [Stmt.findings, Stmt.findings, ← Scopes.rename_opened hopens]
      exact hinner
  | .ifThen condition thenBranch, hs, hv => by
    cases hs with
    | ifThen _ hthen =>
      have hcondition := condition.findings_rename hr h g.depth (hv.part List.mem_cons_self)
      have hthen := Stmt.findings_rename hr h thenBranch hthen
        (hv.part (List.mem_cons_of_mem _ List.mem_cons_self))
      simp only [Stmt.findings, hcondition, hthen]
  | .ifElse condition thenBranch elseBranch, hs, hv => by
    cases hs with
    | ifElse _ hsplits hthen helse =>
      have hvthen := hv.part (List.mem_cons_of_mem _ List.mem_cons_self)
      have hvelse := hv.part (List.mem_cons_of_mem _ (List.mem_cons_of_mem _ List.mem_cons_self))
      have hcondition := condition.findings_rename hr h g.depth (hv.part List.mem_cons_self)
      have hafter := hthen.after_rename (hr.not_mem_declared hvthen) σ.scopes
      have hthen := Stmt.findings_rename hr h thenBranch hthen hvthen
      have helse := Stmt.findings_rename hr h elseBranch helse hvelse
      rw [hsplits.depth_left] at hthen hafter
      rw [hsplits.depth_right] at helse
      simp only [Stmt.findings, Stmt.findings_snd, hcondition, hthen, hafter, helse]
  | .while condition body, hs, hv => by
    cases hs with
    | «while» _ hbody =>
      have hcondition := condition.findings_rename hr h g.depth (hv.part List.mem_cons_self)
      have hbody := Stmt.findings_rename hr h body hbody
        (hv.part (List.mem_cons_of_mem _ List.mem_cons_self))
      simp only [Stmt.findings, hcondition, hbody]
  | .function decl, hs, hv => by
    cases hs with
    | function hkept hdecl =>
      have hname : decl.name.text ≠ r.new := Name.text_ne_of_not_mem (hr.not_mem_declared hv)
      have htext := (Renaming.word_eq_self hkept hname).symm
      have hinner := FunctionDecl.findings_rename hr h (σ := σ.ofFunction decl) decl hdecl
        (hv.part List.mem_cons_self)
      have hscopes : ((σ.scopes.rename r g.depth).declare decl.name).define decl.name =
          (σ.scopes.introduce decl.name).rename r g.depth := Scopes.introduce_rename htext σ.scopes
      simp only [Stmt.findings, hdecl.name_eq, hscopes,
        h.declaration_rename hv (List.Subset.refl _) htext]
      exact congrArg (σ.scopes.declaration decl.name ++ ·) hinner
  | .return line value, hs, hv => by
    cases hs
    have hvalue := Expr.findingsOf_rename hr h g.depth (e := value) fun e he =>
      hv.part (List.mem_map_of_mem he)
    simp only [Stmt.findings, returnFindings, Option.isSome_map, hvalue]
  | .class name superclass methods, hs, hv => by
    cases hs with
    | «class» _ _ hkept hmethods =>
      have hname : name.text ≠ r.new := Name.text_ne_of_not_mem (hr.not_mem_declared hv)
      have htext := (Renaming.word_eq_self hkept hname).symm
      have hscopes : ((σ.scopes.rename r g.depth).declare name).define name =
          (σ.scopes.introduce name).rename r g.depth := Scopes.introduce_rename htext σ.scopes
      have hdeclaration := h.declaration_rename hv (List.subset_append_left _ _) htext
      have hmethods := Stmt.methodFindings_rename hr h methods hmethods fun m hm =>
        hv.part (List.mem_append_right _ (List.mem_map_of_mem hm))
      rw [Scopes.rename_classScopes] at hmethods
      cases superclass with
      | none =>
        simp only [Stmt.findings, Option.map_none, hscopes, hdeclaration]
        exact congrArg (σ.scopes.declaration name ++ ·) hmethods
      | some s =>
        have hsuperclass := h.superclassFindings_rename hr g.depth hv
        simp only [Stmt.findings, Option.map_some, hscopes, hdeclaration, hsuperclass]
        exact congrArg (_ ++ superclassFindings name _ s ++ ·) hmethods
termination_by s => sizeOf s

theorem Stmt.findingsAll_rename (hr : r.IsLocal) (h : Resolved r.distances r.before) {g : Region}
    {σ : Site} {ss' : List Stmt} : (ss : List Stmt) → Stmt.RenamedAll r g ss ss' →
    (∀ v ∈ σ.along ss, Visited r.before v) →
    (Stmt.findingsAll σ.context (σ.scopes.rename r g.depth) ss').1 =
      (Stmt.findingsAll σ.context σ.scopes ss).1
  | [], hss, _ => by
    cases hss
    rfl
  | s :: ss, hss, hv => by
    cases hss with
    | cons hsplits hs hss =>
      obtain ⟨hvs, hvss⟩ := List.forall_mem_cons.mp hv
      have hafter := hs.after_rename (hr.not_mem_declared hvs) σ.scopes
      have hs := Stmt.findings_rename hr h s hs hvs
      have hss := Stmt.findingsAll_rename hr h ss hss hvss
      rw [hsplits.depth_left] at hs hafter
      rw [hsplits.depth_right] at hss
      simp only [Stmt.findingsAll, Stmt.findings_snd, hs, hafter, hss]
termination_by ss => sizeOf ss

theorem FunctionDecl.findings_rename (hr : r.IsLocal) (h : Resolved r.distances r.before)
    {g : Region} {σ : Site} {decl' : FunctionDecl} : (decl : FunctionDecl) → decl.Renamed r g decl' →
    Visited r.before ⟨.routine decl, σ⟩ →
    decl'.findings σ.context (σ.scopes.rename r g.depth) = decl.findings σ.context σ.scopes
  | ⟨name, params, body⟩, hdecl, hv => by
    cases hdecl with
    | @intro _ inner _ _ _ _ hopens hbody =>
      obtain ⟨above, hoccurs, -⟩ := hv.exists_occurs
      have hclean : Clean r.before := fun hv => h.not_mem_own hv
      have hnew : r.new ∉ params.map Name.text := hr.fresh hoccurs
      have hfresh := (FreshIn.routine_iff.mp (.of_nodup (hclean.nodup_declared hv) σ.scopes)).1
      have hnil := (FreshIn.parameterFindings_iff (List.cons_ne_nil _ _)).mpr hfresh
      have hinner := Stmt.findingsAll_rename hr h (σ := σ.inRoutine ⟨name, params, body⟩) body hbody
        fun _ => hv.part
      have hscopes := @Scopes.introduceAll_rename r inner.depth params hnew ([] :: σ.scopes)
      have hnil' := @Scopes.parameterFindings_rename r inner.depth params hnew _ hnil
      rw [Scopes.rename_opened hopens] at hnil' hscopes
      simp only [FunctionDecl.findings, hnil, hnil', parameterFindings_snd, hscopes]
      exact hinner
termination_by decl => sizeOf decl

theorem Stmt.methodFindings_rename (hr : r.IsLocal) (h : Resolved r.distances r.before)
    {g : Region} {cls : EnclosingClass} {scopes closed : Scopes} {ms' : List FunctionDecl} :
    (ms : List FunctionDecl) → Stmt.RenamedMethods r g ms ms' →
    (∀ m ∈ ms, Visited r.before ⟨.routine m, ⟨.ofMethod m.name.text, cls⟩, scopes, closed⟩) →
    Stmt.methodFindings cls (scopes.rename r g.depth) ms' = Stmt.methodFindings cls scopes ms
  | [], hms, _ => by
    cases hms
    rfl
  | m :: ms, hms, hv => by
    cases hms with
    | cons hsplits hm hms =>
      obtain ⟨hvm, hvms⟩ := List.forall_mem_cons.mp hv
      have hname := hm.name_eq
      have hm := FunctionDecl.findings_rename hr h m hm hvm
      have hms := Stmt.methodFindings_rename hr h ms hms hvms
      rw [hsplits.depth_left] at hm
      rw [hsplits.depth_right] at hms
      simp only [Stmt.methodFindings, hname, hms]
      exact congrArg (· ++ _) hm
termination_by ms => sizeOf ms

end

/-- What the walk finds out about a renamed program is what it finds out about the program: no rule is
broken, and every node has the same distance. -/
theorem programFindings_rename (hr : r.IsLocal) (h : Resolved r.distances r.before) :
    programFindings r.after = programFindings r.before :=
  Stmt.findingsAll_rename hr h (σ := Site.outermost) r.before hr.renamed fun _ hv => .statement hv

end Treewalk
