import Treewalk.Proofs.Scope.Classes
import Treewalk.Proofs.Scope.Lawfulness

/-!
# Names that are declared once

Local names are *unambiguous* if each of them is declared at one place of the whole program. Then at
most one of the scopes that are open at a node declares a given name by the time the walk leaves them,
even if it has not come to the declaration yet. For the declarations in these scopes are different
places of the program: the scopes that have been opened on the way to a node and the scopes still to be
opened inside of it never declare a name more often than the program does.

## Main definitions

* `Stmt.nestedAll`, `declarations`: the local names of a program, and all its names.
* `Unambiguous`: programs whose local names are declared once and found by the walk.
* `Scopes.EndAs`: open scopes, and what they declare when the walk leaves them.

## Main results

* `Visited.timesDeclared_le`: how many scopes around a node declare a name in the end.
* `Visited.endAs`: what open scopes declare stays, and no reserved word is added.
-/

namespace Treewalk

/-! ### The names of a program -/

mutual

/-- The names that are declared in the scopes inside of a statement. -/
def Stmt.nested : Stmt → List Name
  | .block body => body.flatMap Stmt.declared ++ Stmt.nestedAll body
  | .ifThen _ thenBranch => thenBranch.nested
  | .ifElse _ thenBranch elseBranch => thenBranch.nested ++ elseBranch.nested
  | .while _ body => body.nested
  | .function decl => decl.nested
  | .class _ _ methods => Stmt.nestedMethods methods
  | .expression _ => []
  | .variable _ _ => []
  | .return _ _ => []

/-- The names that are declared in the scopes inside of statements. -/
def Stmt.nestedAll : List Stmt → List Name
  | [] => []
  | s :: ss => s.nested ++ Stmt.nestedAll ss

/-- The names that are declared in the scope of a function and in the scopes inside of it. -/
def FunctionDecl.nested : FunctionDecl → List Name
  | ⟨_, params, body⟩ => params ++ body.flatMap Stmt.declared ++ Stmt.nestedAll body

/-- The names that are declared in the scopes of methods and in the scopes inside of them. -/
def Stmt.nestedMethods : List FunctionDecl → List Name
  | [] => []
  | m :: ms => m.nested ++ Stmt.nestedMethods ms

end

/-- The names that a program declares, one for each place at which it declares a name. -/
def declarations (body : List Stmt) : List Name :=
  body.flatMap Stmt.declared ++ Stmt.nestedAll body

/-- The local names of a program are unambiguous: each of them is declared at one place of the program,
is not built in, and is the name of no occurrence without a recorded distance. -/
structure Unambiguous (ds : Distances) (body : List Stmt) : Prop where
  once : ∀ name ∈ (Stmt.nestedAll body).map Name.text,
    ((declarations body).map Name.text).count name = 1
  notNative : ∀ n : Native, n.name ∉ (Stmt.nestedAll body).map Name.text
  resolved : ∀ {above e id name}, Occurs body above (.expr e) → e.occurrence? = some (id, name) →
    ds.get? id = none → name ∉ (Stmt.nestedAll body).map Name.text

/-- The names that are declared in the scopes inside of a node. -/
def Node.nested : Node → List Name
  | .expr _ => []
  | .stmt s => s.nested
  | .routine decl => decl.nested

/-- How often a word is among names. -/
def timesIn (word : String) (names : List Name) : Nat :=
  (names.map Name.text).count word

section Times

variable {word : String} {names others : List Name}

theorem timesIn_append :
    timesIn word (names ++ others) = timesIn word names + timesIn word others := by
  rw [timesIn, List.map_append, List.count_append]
  rfl

theorem timesIn_pos : 0 < timesIn word names ↔ word ∈ names.map Name.text :=
  List.count_pos_iff

end Times

theorem timesIn_method_le {word : String} {m : FunctionDecl} {ms : List FunctionDecl} (h : m ∈ ms) :
    timesIn word m.nested ≤ timesIn word (Stmt.nestedMethods ms) := by
  induction ms with
  | nil => cases h
  | cons m' ms ih =>
    rw [Stmt.nestedMethods, timesIn_append]
    rcases List.mem_cons.mp h with rfl | h
    · exact Nat.le_add_right _ _
    · exact (ih h).trans (Nat.le_add_left _ _)

/-! ### How many scopes declare a name -/

/-- How many of the scopes around a node declare a name when the walk leaves them, and how often it is
declared in the scopes inside of the node. -/
def Visit.timesDeclared (v : Visit) (word : String) : Nat :=
  v.site.closed.countP (·.declares word) + timesIn word v.node.nested

theorem Scopes.innermost_declares (scopes : Scopes) (word : String) :
    scopes.innermost.declares word = scopes.innermostDeclares word := by
  cases scopes <;> rfl

/-- The innermost scope after statements. -/
theorem Stmt.innermostDeclares_afterAll (ss : List Stmt) {scopes : Scopes} (hlocal : scopes ≠ [])
    (word : String) : (Stmt.afterAll ss scopes).innermostDeclares word ↔
      word ∈ (ss.flatMap Stmt.declared).map Name.text ∨ scopes.innermostDeclares word := by
  induction ss generalizing scopes with
  | nil => simp [Stmt.afterAll]
  | cons s ss ih =>
    have hlocal' : s.after scopes ≠ [] :=
      (Scopes.ne_nil_of_length_eq (s.length_after scopes)).mpr hlocal
    rw [Stmt.afterAll, List.foldl_cons, ← Stmt.afterAll, ih hlocal',
      s.innermostDeclares_after hlocal, List.flatMap_cons, List.map_append, List.mem_append,
      or_left_comm, or_assoc]

namespace Site

variable {σ : Site} {word : String}

/-- What a block declares in its scope. -/
theorem innermost_inBlock {body : List Stmt}
    (h : (Stmt.afterAll body ([] :: σ.scopes)).innermost.declares word) :
    word ∈ (body.flatMap Stmt.declared).map Name.text := by
  rw [Scopes.innermost_declares,
    Stmt.innermostDeclares_afterAll body (List.cons_ne_nil _ _)] at h
  exact h.resolve_right Bool.false_ne_true

/-- What a function declares in its scope. -/
theorem innermost_inRoutine {decl : FunctionDecl}
    (h : (Stmt.afterAll decl.body (σ.parameterScopes decl)).innermost.declares word) :
    word ∈ (decl.params ++ decl.body.flatMap Stmt.declared).map Name.text := by
  have hlocal : σ.parameterScopes decl ≠ [] := σ.inRoutine_scopes_ne_nil decl
  rw [Scopes.innermost_declares, Stmt.innermostDeclares_afterAll decl.body hlocal, parameterScopes,
    Scopes.innermostDeclares_introduceAll] at h
  rw [List.map_append, List.mem_append]
  rcases h with h | h | h
  · exact .inr h
  · exact .inl h
  · exact absurd h Bool.false_ne_true

/-- The scopes around methods declare nothing but reserved words. -/
theorem countP_classScopes (superclass : Option Superclass) (hthis : word ≠ "this")
    (hsuper : word ≠ "super") : (classScopes superclass).countP (·.declares word) = 0 := by
  cases superclass <;> simp [classScopes, Scope.declares, hthis.symm, hsuper.symm]

end Site

/-- A scope declares a name no more often than its declarations do. -/
theorem countP_cons_le {scope : Scope} {closed : Scopes} {word : String} {names : List Name}
    (h : scope.declares word → word ∈ names.map Name.text) :
    (scope :: closed).countP (·.declares word) ≤
      closed.countP (·.declares word) + timesIn word names := by
  rw [List.countP_cons]
  refine Nat.add_le_add_left ?_ _
  split
  · next hdeclares => exact timesIn_pos.mpr (h hdeclares)
  · exact Nat.zero_le _

theorem Site.timesDeclared_along {σ : Site} {ss : List Stmt} {word : String} :
    ∀ v ∈ σ.along ss, v.timesDeclared word ≤
      σ.closed.countP (·.declares word) + timesIn word (Stmt.nestedAll ss) := by
  induction ss generalizing σ with
  | nil => exact fun v hv => absurd hv List.not_mem_nil
  | cons s ss ih =>
    rw [Stmt.nestedAll, timesIn_append]
    refine List.forall_mem_cons.mpr ⟨?_, fun v hv => (ih v hv).trans ?_⟩
    · exact Nat.add_le_add_left (Nat.le_add_right _ _) _
    · exact Nat.add_le_add_left (Nat.le_add_left _ _) _

/-- Of the names declared around a node and inside of it, its parts have each no more often. -/
theorem Visit.timesDeclared_part {v w : Visit} (hw : w ∈ v.parts) {word : String}
    (hthis : word ≠ "this") (hsuper : word ≠ "super") :
    w.timesDeclared word ≤ v.timesDeclared word := by
  match v with
  | ⟨.expr e, σ⟩ =>
    obtain ⟨part, -, rfl⟩ := List.mem_map.mp hw
    exact Nat.le_refl _
  | ⟨.routine ⟨name, params, body⟩, σ⟩ =>
    refine (Site.timesDeclared_along w hw).trans ?_
    refine (Nat.add_le_add_right (countP_cons_le Site.innermost_inRoutine) _).trans ?_
    rw [Nat.add_assoc, ← timesIn_append]
    exact Nat.le_refl _
  | ⟨.stmt s, σ⟩ =>
    match s with
    | .expression _ =>
      cases List.mem_singleton.mp hw
      exact Nat.le_refl _
    | .variable _ _ | .return _ _ =>
      obtain ⟨e, -, rfl⟩ := List.mem_map.mp hw
      exact Nat.le_refl _
    | .block body =>
      refine (Site.timesDeclared_along w hw).trans ?_
      refine (Nat.add_le_add_right (countP_cons_le Site.innermost_inBlock) _).trans ?_
      rw [Nat.add_assoc, ← timesIn_append]
      exact Nat.le_refl _
    | .ifThen _ _ | .while _ _ =>
      rcases List.mem_pair.mp hw with rfl | rfl
      · exact Nat.le_add_right _ _
      · exact Nat.le_refl _
    | .ifElse _ thenBranch elseBranch =>
      rw [timesDeclared, timesDeclared, Node.nested, Stmt.nested, timesIn_append]
      rcases List.mem_cons.mp hw with rfl | hw
      · exact Nat.le_add_right _ _
      rcases List.mem_pair.mp hw with rfl | rfl
      · exact Nat.add_le_add_left (Nat.le_add_right _ _) _
      · exact Nat.add_le_add_left (Nat.le_add_left _ _) _
    | .function decl =>
      cases List.mem_singleton.mp hw
      exact Nat.le_refl _
    | .class name superclass methods =>
      rcases List.mem_append.mp hw with hw | hw
      · obtain ⟨s, -, rfl⟩ := List.mem_map.mp hw
        exact Nat.le_add_right _ _
      · obtain ⟨m, hm, rfl⟩ := List.mem_map.mp hw
        refine Nat.add_le_add ?_ (timesIn_method_le hm)
        rw [Site.ofMethod, List.countP_append, Site.countP_classScopes superclass hthis hsuper,
          Nat.zero_add]

/-- The scopes around a node and those inside of it declare a name no more often than the program does
in local scopes. -/
theorem Visited.timesDeclared_le {body : List Stmt} {v : Visit} (hv : Visited body v) {word : String}
    (hthis : word ≠ "this") (hsuper : word ≠ "super") :
    v.timesDeclared word ≤ timesIn word (Stmt.nestedAll body) := by
  induction hv with
  | statement hv =>
    refine (Site.timesDeclared_along _ hv).trans_eq ?_
    exact Nat.zero_add _
  | part _ hw ih => exact (Visit.timesDeclared_part hw hthis hsuper).trans ih

/-! ### The scope that declares a name -/

namespace Scopes

variable {scopes : Scopes} {name : String} {distance : Nat}

theorem declares_of_distance? (h : scopes.distance? name = some distance) :
    ∃ scope, scopes[distance]? = some scope ∧ scope.declares name := by
  obtain ⟨hlt, hdeclares, -⟩ := List.findIdx?_eq_some_iff_getElem.mp h
  exact ⟨_, List.getElem?_eq_getElem hlt, hdeclares⟩

/-- The distance leads to the nearest scope that declares a name. -/
theorem distance?_le_of_declares {j : Nat} {scope : Scope}
    (h : scopes.distance? name = some distance) (hj : scopes[j]? = some scope)
    (hscope : scope.declares name) : distance ≤ j := by
  obtain ⟨_, -, hnearest⟩ := List.findIdx?_eq_some_iff_getElem.mp h
  by_contra hlt
  obtain ⟨hsize, rfl⟩ := List.getElem?_eq_some_iff.mp hj
  exact absurd hscope (hnearest j (Nat.lt_of_not_le hlt))

end Scopes

/-! ### Scopes when the walk leaves them -/

/-- An open scope, and what it declares when the walk leaves it: names are added, but no reserved
words. -/
structure Scope.EndsAs (scope final : Scope) : Prop where
  covers : final.Covers scope
  words : ∀ k : Keyword, final.declares k.text → scope.declares k.text

/-- Open scopes, and what each of them declares when the walk leaves it. -/
def Scopes.EndAs (scopes closed : Scopes) : Prop :=
  List.Forall₂ Scope.EndsAs scopes closed

theorem Scope.EndsAs.refl (scope : Scope) : scope.EndsAs scope :=
  ⟨.refl scope, fun _ => id⟩

namespace Scopes.EndAs

variable {scopes closed : Scopes} {name : Name}

theorem getElem? (h : scopes.EndAs closed) {k : Nat} {scope : Scope} (hk : scopes[k]? = some scope) :
    ∃ final, closed[k]? = some final ∧ scope.EndsAs final := by
  induction h generalizing k with
  | nil => cases hk
  | cons hends _ ih =>
    cases k with
    | zero =>
      cases hk
      exact ⟨_, rfl, hends⟩
    | succ k => exact ih hk

theorem getElem?_closed (h : scopes.EndAs closed) {k : Nat} {final : Scope}
    (hk : closed[k]? = some final) : ∃ scope, scopes[k]? = some scope ∧ scope.EndsAs final := by
  induction h generalizing k with
  | nil => cases hk
  | cons hends _ ih =>
    cases k with
    | zero =>
      cases hk
      exact ⟨_, rfl, hends⟩
    | succ k => exact ih hk

theorem of_enter {ready : Bool} (h : EndAs (scopes.enter name.text ready) closed)
    (hfree : name.IsFree) : EndAs scopes closed := by
  cases scopes with
  | nil => exact h
  | cons scope outer =>
    cases h with
    | cons hscope houter =>
      refine .cons ⟨fun other hother => ?_, fun k hk => ?_⟩ houter
      · exact hscope.covers other (Scope.declares_enter.mpr (.inr hother))
      · exact (Scope.declares_enter.mp (hscope.words k hk)).resolve_left (hfree.ne_text k).symm

theorem of_declare (h : EndAs (scopes.declare name) closed) (hfree : name.IsFree) :
    EndAs scopes closed := by
  unfold declare at h
  split at h
  · exact h
  · exact h.of_enter hfree

theorem of_introduce (h : EndAs (scopes.introduce name) closed) (hfree : name.IsFree) :
    EndAs scopes closed :=
  (h.of_enter hfree).of_declare hfree

theorem of_after (s : Stmt) {scopes : Scopes} (hproper : s.Proper)
    (h : EndAs (s.after scopes) closed) : EndAs scopes closed := by
  match s with
  | .variable _ _ | .class _ _ _ => exact h.of_introduce hproper.1
  | .function ⟨_, _, _⟩ => exact h.of_introduce hproper.1
  | .ifThen _ thenBranch => exact of_after thenBranch hproper.2.2 h
  | .ifElse _ thenBranch elseBranch =>
    obtain ⟨-, ⟨-, hthen⟩, -, helse⟩ := hproper
    exact of_after thenBranch hthen (of_after elseBranch helse h)
  | .while _ body => exact of_after body hproper.2.2 h
  | .expression _ | .block _ | .return _ _ => exact h

theorem of_afterAll {ss : List Stmt} (h : EndAs (Stmt.afterAll ss scopes) closed)
    (hproper : ∀ s ∈ ss, s.Proper) : EndAs scopes closed := by
  induction ss generalizing scopes with
  | nil => exact h
  | cons s ss ih =>
    obtain ⟨hs, hss⟩ := List.forall_mem_cons.mp hproper
    exact of_after s hs (ih h hss)

/-- The innermost scope ends as it is. -/
theorem innermost {outer : Scopes} (h : EndAs outer closed) (hlocal : scopes ≠ [])
    (htail : scopes.tail = outer) : EndAs scopes (scopes.innermost :: closed) := by
  obtain ⟨scope, _, rfl⟩ := List.exists_cons_of_ne_nil hlocal
  cases htail
  exact .cons (.refl scope) h

end Scopes.EndAs

/-- The scopes after a node. -/
def Visit.scopesAfter : Visit → Scopes
  | ⟨.stmt s, σ⟩ => s.after σ.scopes
  | ⟨_, σ⟩ => σ.scopes

theorem Site.endAs_along {σ : Site} {ss : List Stmt}
    (h : Scopes.EndAs (Stmt.afterAll ss σ.scopes) σ.closed) (hproper : ∀ s ∈ ss, s.Proper) :
    ∀ v ∈ σ.along ss, v.scopesAfter.EndAs v.site.closed := by
  induction ss generalizing σ with
  | nil => exact fun v hv => absurd hv List.not_mem_nil
  | cons s ss ih =>
    obtain ⟨-, hss⟩ := List.forall_mem_cons.mp hproper
    exact List.forall_mem_cons.mpr ⟨Scopes.EndAs.of_afterAll h hss, ih h hss⟩

theorem Stmt.tail_afterAll (ss : List Stmt) (scopes : Scopes) :
    (Stmt.afterAll ss scopes).tail = scopes.tail := by
  induction ss generalizing scopes with
  | nil => rfl
  | cons s ss ih => exact (ih (s.after scopes)).trans (s.tail_after scopes)

theorem Stmt.length_afterAll (ss : List Stmt) (scopes : Scopes) :
    (Stmt.afterAll ss scopes).length = scopes.length := by
  induction ss generalizing scopes with
  | nil => rfl
  | cons s ss ih => exact (ih (s.after scopes)).trans (s.length_after scopes)

/-- The scope in which statements stand ends as it is after them. -/
theorem Scopes.EndAs.afterAll {scopes outer closed : Scopes} (h : outer.EndAs closed) (ss : List Stmt)
    (hlocal : scopes ≠ []) (htail : scopes.tail = outer) :
    EndAs (Stmt.afterAll ss scopes) ((Stmt.afterAll ss scopes).innermost :: closed) :=
  h.innermost ((Scopes.ne_nil_of_length_eq (Stmt.length_afterAll ss scopes)).mpr hlocal)
    ((Stmt.tail_afterAll ss scopes).trans htail)

/-- The scopes at the parts of a node end as the scopes around them do. -/
theorem Visit.endAs_part {v w : Visit} (h : v.scopesAfter.EndAs v.site.closed) (hfits : v.Fits)
    (hw : w ∈ v.parts) : w.scopesAfter.EndAs w.site.closed := by
  match v with
  | ⟨.expr e, σ⟩ =>
    obtain ⟨part, -, rfl⟩ := List.mem_map.mp hw
    exact h
  | ⟨.routine ⟨name, params, body⟩, σ⟩ =>
    cases hfits with
    | routine _ _ hproper =>
      have hbody := Stmt.properAll_iff.mp hproper.2.2
      have hlocal := σ.inRoutine_scopes_ne_nil ⟨name, params, body⟩
      exact Site.endAs_along (h.afterAll body hlocal (σ.tail_parameterScopes _)) hbody w hw
  | ⟨.stmt s, σ⟩ =>
    have hproper := hfits.of_stmt.1
    match s with
    | .expression _ =>
      cases List.mem_singleton.mp hw
      exact h
    | .variable name _ =>
      obtain ⟨e, -, rfl⟩ := List.mem_map.mp hw
      exact Scopes.EndAs.of_enter h hproper.1
    | .return _ _ =>
      obtain ⟨e, -, rfl⟩ := List.mem_map.mp hw
      exact h
    | .block body =>
      have hbody := Stmt.properAll_iff.mp hproper
      exact Site.endAs_along (h.afterAll body (List.cons_ne_nil [] σ.scopes) rfl) hbody w hw
    | .ifThen _ inner | .while _ inner =>
      rcases List.mem_pair.mp hw with rfl | rfl
      · exact Scopes.EndAs.of_after inner hproper.2.2 h
      · exact h
    | .ifElse _ thenBranch elseBranch =>
      obtain ⟨-, ⟨-, hthen⟩, -, helse⟩ := hproper
      have hbetween := Scopes.EndAs.of_after elseBranch helse h
      rcases List.mem_cons.mp hw with rfl | hw
      · exact hbetween.of_after thenBranch hthen
      rcases List.mem_pair.mp hw with rfl | rfl
      · exact hbetween
      · exact h
    | .function decl =>
      cases List.mem_singleton.mp hw
      exact h
    | .class name superclass methods =>
      rcases List.mem_append.mp hw with hw | hw
      · obtain ⟨s, -, rfl⟩ := List.mem_map.mp hw
        exact h
      · obtain ⟨m, -, rfl⟩ := List.mem_map.mp hw
        cases superclass with
        | none => exact .cons (.refl _) h
        | some s => exact .cons (.refl _) (.cons (.refl _) h)

/-- In a program with the shape of programs, what the open scopes declare is declared when the walk
leaves them, and no reserved word is added. -/
theorem Visited.endAs {body : List Stmt} (hproper : ∀ s ∈ body, s.Proper) {v : Visit}
    (hv : Visited body v) : v.scopesAfter.EndAs v.site.closed := by
  induction hv with
  | statement hv =>
    refine Site.endAs_along ?_ hproper _ hv
    change Scopes.EndAs (Stmt.afterAll body []) []
    rw [Stmt.afterAll_nil]
    exact .nil
  | part hv hw ih => exact Visit.endAs_part ih (hv.fits hproper) hw

/-! ### Names that are declared once -/

/-- A statement outside of all local scopes declares names of the program itself. -/
theorem Occurs.declared_subset {body : List Stmt} {above : List Node} {s : Stmt}
    (h : Occurs body above (.stmt s)) (hglobal : ¬ above.any Node.opensScope) :
    s.declared ⊆ body.flatMap Stmt.declared := by
  generalize hnode : Node.stmt s = node at h
  induction h generalizing s with
  | statement hs =>
    cases hnode
    exact fun name hname => List.mem_flatMap.mpr ⟨_, hs, hname⟩
  | @child above node inner _ hinner ih =>
    subst hnode
    rw [List.any_cons, Bool.or_eq_true, not_or] at hglobal
    obtain ⟨hopens, habove⟩ := hglobal
    match node with
    | .expr _ =>
      obtain ⟨_, -, heq⟩ := List.mem_map.mp hinner
      cases heq
    | .routine _ => exact absurd rfl hopens
    | .stmt around =>
      refine List.Subset.trans ?_ (ih habove rfl)
      match around with
      | .block _ => exact absurd rfl hopens
      | .expression _ | .function _ => cases List.mem_singleton.mp hinner
      | .variable _ _ | .return _ _ =>
        obtain ⟨_, -, heq⟩ := List.mem_map.mp hinner
        cases heq
      | .ifThen _ _ | .while _ _ =>
        rcases List.mem_pair.mp hinner with heq | heq
        · cases heq
        · cases heq
          exact List.Subset.refl _
      | .ifElse _ _ _ =>
        rcases List.mem_cons.mp hinner with heq | hinner
        · cases heq
        rcases List.mem_pair.mp hinner with heq | heq
        · cases heq
          exact List.subset_append_left _ _
        · cases heq
          exact List.subset_append_right _ _
      | .class _ _ _ =>
        rcases List.mem_append.mp hinner with hinner | hinner
        · obtain ⟨_, -, heq⟩ := List.mem_map.mp hinner
          cases heq
        · obtain ⟨_, -, heq⟩ := List.mem_map.mp hinner
          cases heq

/-- The number of an occurrence is one of the numbers of the program. -/
theorem Occurs.mem_idsAll {body : List Stmt} {above : List Node} {e : Expr} {id : Nat}
    {name : String} (h : Occurs body above (.expr e)) (he : e.occurrence? = some (id, name)) :
    id ∈ Stmt.idsAll body := by
  obtain ⟨σ, hv, -⟩ := h.exists_visited
  refine hv.ids_subset ((Visit.ids_perm _).mem_iff.mpr (List.mem_append_left _ ?_))
  simp [Visit.ownIds, he]

/-- At most one place of a list has a property that is not counted twice. -/
theorem eq_of_countP_le_one {α : Type} {p : α → Bool} {l : List α} (h : l.countP p ≤ 1)
    {i j : Nat} {a b : α} (hi : l[i]? = some a) (ha : p a) (hj : l[j]? = some b) (hb : p b) :
    i = j := by
  induction l generalizing i j with
  | nil => cases hi
  | cons x l ih =>
    rw [List.countP_cons] at h
    cases i with
    | zero =>
      cases j with
      | zero => rfl
      | succ j =>
        cases hi
        have hpos : 0 < l.countP p := List.countP_pos_iff.mpr ⟨b, List.mem_of_getElem? hj, hb⟩
        rw [if_pos ha] at h
        omega
    | succ i =>
      cases j with
      | zero =>
        cases hj
        have hpos : 0 < l.countP p := List.countP_pos_iff.mpr ⟨a, List.mem_of_getElem? hi, ha⟩
        rw [if_pos hb] at h
        omega
      | succ j => rw [ih ((Nat.le_add_right _ _).trans h) hi hj]

section Met

variable {ds : Distances} {body : List Stmt} {v : Visit} {e : Expr} {σ : Site} {word : String}

/-- Wherever the running program comes to an expression, the open scopes end as they do for the
walk. -/
theorem Resolved.endAs (h : Resolved ds body) (hmet : Met body ⟨.expr e, σ⟩) :
    σ.scopes.EndAs σ.closed := by
  cases hmet with
  | visit hv => exact hv.endAs h.proper
  | superclass hv => exact (hv.endAs h.proper).of_introduce (hv.fits h.proper).of_stmt.1.1

theorem Met.countP_closed_le (hmet : Met body v) (hthis : word ≠ "this") (hsuper : word ≠ "super") :
    v.site.closed.countP (·.declares word) ≤ timesIn word (Stmt.nestedAll body) := by
  obtain ⟨σ, hv, -, hclosed⟩ := hmet.visited
  rw [← hclosed]
  exact (Nat.le_add_right _ _).trans (hv.timesDeclared_le hthis hsuper)

/-- A name that a scope around a node declares in the end is a local name of the program. -/
theorem Met.mem_nestedAll (hmet : Met body v) (hthis : word ≠ "this") (hsuper : word ≠ "super")
    {k : Nat} {scope : Scope} (hk : v.site.closed[k]? = some scope) (hscope : scope.declares word) :
    word ∈ (Stmt.nestedAll body).map Name.text := by
  refine timesIn_pos.mp (Nat.lt_of_lt_of_le ?_ (hmet.countP_closed_le hthis hsuper))
  exact List.countP_pos_iff.mpr ⟨scope, List.mem_of_getElem? hk, hscope⟩

namespace Unambiguous

variable (hu : Unambiguous ds body)

include hu

/-- A local name is declared just once in local scopes, and not outside of them. -/
theorem timesIn_eq (hword : word ∈ (Stmt.nestedAll body).map Name.text) :
    timesIn word (Stmt.nestedAll body) = 1 ∧
      word ∉ (body.flatMap Stmt.declared).map Name.text := by
  have honce : timesIn word (declarations body) = 1 := hu.once word hword
  rw [declarations, timesIn_append] at honce
  have hnested := timesIn_pos.mpr hword
  refine ⟨by omega, fun hdeclared => ?_⟩
  have hglobal := timesIn_pos.mpr hdeclared
  omega

/-- At most one of the scopes around a node declares a name in the end. -/
theorem eq_of_declares (hmet : Met body v) (hthis : word ≠ "this") (hsuper : word ≠ "super")
    {j k : Nat} {scope scope' : Scope} (hj : v.site.closed[j]? = some scope)
    (hscope : scope.declares word) (hk : v.site.closed[k]? = some scope')
    (hscope' : scope'.declares word) : j = k := by
  have hle := hmet.countP_closed_le hthis hsuper
  rw [(hu.timesIn_eq (hmet.mem_nestedAll hthis hsuper hj hscope)).1] at hle
  exact eq_of_countP_le_one hle hj hscope hk hscope'

end Unambiguous

end Met

end Treewalk
