import Treewalk.Proofs.Run.Sealing
import Treewalk.Proofs.Scope.Sites
import Treewalk.Run

/-!
# Frames in the places of scopes

While a program runs, frames stand for the scopes that the walk over the program has open. A *plan*
says for every frame but the global one what the scope that it stands for declares when the walk
leaves it, and which nodes are evaluated inside of it. A frame *lies* at open scopes if the frames
outward from it, up to the global frame, stand for these scopes one by one, and hold the names that
are ready there.

Functions are *placed*: the frame that a function closes over lies at the scopes around a visit of its
declaration. As the machine runs, frames are added and filled, but none changes the scope that it
stands for, so what is placed stays placed.

## Main definitions

* `World`: what is known of a history.
* `Plan`, `Lies`: frames that stand for scopes.
* `Closure.Placed`, `Closure.Bindable`, `Value.Placed`: functions, methods and values.
* `Extends`: later frames.

## Main results

* `Lies.extends`, `Value.Placed.extends`: what is placed stays placed.
* `Extends.write`, `Extends.add`, `Extends.addBinding`: what happens to frames.
-/

namespace Treewalk

/-- What is known of a history of runs. -/
structure World where
  /-- The visits that its programs can come to. -/
  seen : Visit → Prop
  /-- The nodes that its runs come to, with the machines on which they do. -/
  comes : Node → Machine → Prop

/-- What a frame stands for. -/
structure Role where
  /-- What its scope declares in the end. -/
  final : Scope
  /-- The numbers of the nodes that are evaluated inside of it. -/
  ids : List Nat

/-- What has been made so far. -/
structure Plan where
  /-- What the frames stand for. -/
  role : Nat → Role
  /-- How many classes there are. -/
  classes : Nat

/-- A frame lies at open scopes, which declare `closed` in the end, around nodes with certain
numbers. -/
inductive Lies (fs : Frames) (plan : Plan) (ids : List Nat) :
    Nat → (scopes closed : Scopes) → Prop
  /-- Outside of all scopes lies the global frame. -/
  | global : Lies fs plan ids globalFrame [] []
  /-- A frame made after the one around it stands for the innermost scope. -/
  | frame {i j : Nat} {scope final : Scope} {outer closed : Scopes} (hlt : j < i)
      (hsize : i < fs.size) (henclosing : fs.enclosing? i = some j)
      (hready : ∀ name, scope.isReady name → fs.holds i name)
      (hfinal : (plan.role i).final = final) (hids : ids ⊆ (plan.role i).ids)
      (houter : Lies fs plan ids j outer closed) :
      Lies fs plan ids i (scope :: outer) (final :: closed)

/-! ### Values in order -/

section Placed

variable (W : World) (fs : Frames) (plan : Plan)

/-- A function closes over a frame that lies at the scopes around a visit of its declaration. That of
an initializer binds `this`. -/
def Closure.Placed (f : Closure) : Prop :=
  ∃ σ, W.seen ⟨.routine f.decl, σ⟩ ∧ Lies fs plan f.decl.ids f.frame σ.scopes σ.closed ∧
    (f.isInitializer = true → fs.holds f.frame "this")

/-- The scope that the frame of a receiver stands for. -/
def receiverScope : Scope := [("this", true)]

/-- A method that is not bound closes over a frame that lies just outside of the scope of its
receiver. -/
def Closure.Bindable (f : Closure) : Prop :=
  ∃ σ outer closed, W.seen ⟨.routine f.decl, σ⟩ ∧ σ.scopes = receiverScope :: outer ∧
    σ.closed = receiverScope :: closed ∧ Lies fs plan f.decl.ids f.frame outer closed

/-- A value is placed if it is no function or a placed one, and no class or one that was made. -/
def Value.Placed : Value → Prop
  | .function f => f.Placed W fs plan
  | .cls c => c < plan.classes
  | _ => True

end Placed

/-! ### Later frames -/

/-- Later frames: those of before stand for the same scopes and hold what they held. -/
structure Extends (fs : Frames) (plan : Plan) (fs' : Frames) (plan' : Plan) : Prop where
  kept : fs.KeptIn fs'
  role : ∀ i < fs.size, plan'.role i = plan.role i
  classes : plan.classes ≤ plan'.classes
  enclosing : ∀ i < fs.size, fs'.enclosing? i = fs.enclosing? i
  held : ∀ i < fs.size, ∀ name, fs.holds i name → fs'.holds i name

/-! ### What stays -/

section Lies

variable {fs : Frames} {plan : Plan} {ids ids' : List Nat} {i : Nat} {scope : Scope}
  {outer scopes closed : Scopes}

theorem Lies.eq_global (h : Lies fs plan ids i [] closed) : i = globalFrame ∧ closed = [] := by
  cases h with
  | global => exact ⟨rfl, rfl⟩

/-- What a frame that stands for the innermost scope is like. -/
theorem Lies.innermost (h : Lies fs plan ids i (scope :: outer) closed) :
    ∃ j rest, closed = (plan.role i).final :: rest ∧ j < i ∧ i < fs.size ∧
      fs.enclosing? i = some j ∧ (∀ name, scope.isReady name → fs.holds i name) ∧
      ids ⊆ (plan.role i).ids ∧ Lies fs plan ids j outer rest := by
  cases h with
  | @frame _ j _ _ _ rest hlt hsize henclosing hready hfinal hids houter =>
    exact ⟨j, rest, by rw [hfinal], hlt, hsize, henclosing, hready, hids, houter⟩

theorem Lies.lt_size (h : Lies fs plan ids i scopes closed) (hglobal : globalFrame < fs.size) :
    i < fs.size := by
  cases h with
  | global => exact hglobal
  | frame _ hsize => exact hsize

/-- Around fewer nodes a frame lies at the same scopes. -/
theorem Lies.subset (h : Lies fs plan ids i scopes closed) (hsub : ids' ⊆ ids) :
    Lies fs plan ids' i scopes closed := by
  induction h with
  | global => exact .global
  | frame hlt hsize henclosing hready hfinal hids _ ih =>
    exact .frame hlt hsize henclosing hready hfinal (List.Subset.trans hsub hids) ih

end Lies

namespace Extends

variable {fs fs' fs'' : Frames} {plan plan' plan'' : Plan}

theorem size (h : Extends fs plan fs' plan') : fs.size ≤ fs'.size :=
  h.kept.size

theorem refl (fs : Frames) (plan : Plan) : Extends fs plan fs plan :=
  ⟨.refl fs, fun _ _ => rfl, Nat.le_refl _, fun _ _ => rfl, fun _ _ _ => id⟩

theorem trans (h : Extends fs plan fs' plan') (h' : Extends fs' plan' fs'' plan'') :
    Extends fs plan fs'' plan'' where
  kept := h.kept.trans h'.kept
  role i hi := (h'.role i (Nat.lt_of_lt_of_le hi h.size)).trans (h.role i hi)
  classes := Nat.le_trans h.classes h'.classes
  enclosing i hi := (h'.enclosing i (Nat.lt_of_lt_of_le hi h.size)).trans (h.enclosing i hi)
  held i hi name hname := h'.held i (Nat.lt_of_lt_of_le hi h.size) name (h.held i hi name hname)

/-- A frame with a single binding goes on having it alone. -/
theorem bindsOnly (h : Extends fs plan fs' plan') {i : Nat} {name : String} {v : Value}
    (hname : name = "this" ∨ name = "super") (hbinds : fs.BindsOnly i name v) :
    fs'.BindsOnly i name v := by
  have hholds := hbinds.holds_iff.mpr rfl
  refine hbinds.of_slots (h.kept.slots i (Frames.lt_size_of_holds hholds) (.inl ?_))
  rcases hname with rfl | rfl
  · exact .inl hholds
  · exact .inr hholds

end Extends

section Monotone

variable {W : World} {fs fs' : Frames} {plan plan' : Plan}

/-- A frame lies at its scopes for good. -/
theorem Lies.extends {ids : List Nat} {i : Nat} {scopes closed : Scopes}
    (h : Lies fs plan ids i scopes closed) (he : Extends fs plan fs' plan') :
    Lies fs' plan' ids i scopes closed := by
  induction h with
  | global => exact .global
  | @frame i j scope final outer closed hlt hsize henclosing hready hfinal hids houter ih =>
    refine .frame hlt (Nat.lt_of_lt_of_le hsize he.size) ?_ ?_ ?_ ?_ ih
    · rw [he.enclosing i hsize, henclosing]
    · exact fun name hname => he.held i hsize name (hready name hname)
    · rw [he.role i hsize, hfinal]
    · rwa [he.role i hsize]

theorem Closure.Placed.extends {f : Closure} (h : f.Placed W fs plan)
    (he : Extends fs plan fs' plan') : f.Placed W fs' plan' := by
  obtain ⟨σ, hseen, hlies, hthis⟩ := h
  refine ⟨σ, hseen, hlies.extends he, fun hf => ?_⟩
  exact he.held _ (Frames.lt_size_of_holds (hthis hf)) _ (hthis hf)

theorem Closure.Bindable.extends {f : Closure} (h : f.Bindable W fs plan)
    (he : Extends fs plan fs' plan') : f.Bindable W fs' plan' := by
  obtain ⟨σ, outer, closed, hseen, hscopes, hclosed, hlies⟩ := h
  exact ⟨σ, outer, closed, hseen, hscopes, hclosed, hlies.extends he⟩

theorem Closure.Bindable.lt_size {f : Closure} (h : f.Bindable W fs plan)
    (hglobal : globalFrame < fs.size) : f.frame < fs.size := by
  obtain ⟨σ, outer, closed, -, -, -, hlies⟩ := h
  exact hlies.lt_size hglobal

/-- A value is placed for good. -/
theorem Value.Placed.extends {v : Value} (h : v.Placed W fs plan)
    (he : Extends fs plan fs' plan') : v.Placed W fs' plan' := by
  cases v with
  | function f => exact Closure.Placed.extends h he
  | cls c => exact Nat.lt_of_lt_of_le h he.classes
  | _ => trivial

end Monotone

/-! ### New frames and new bindings -/

theorem Extends.write (fs : Frames) (plan : Plan) {i : Nat} (hi : i < fs.size)
    (hunsealed : ¬ fs.Sealed i) {name : String} (hname : name ≠ "this" ∧ name ≠ "super")
    (slot : Option Value) : Extends fs plan (fs.write i name slot) plan where
  kept := .write fs hi hunsealed hname slot
  role _ _ := rfl
  classes := Nat.le_refl _
  enclosing j _ := fs.enclosing?_write i j name slot
  held j _ other hother := (fs.holds_write hi j name other slot).mpr (.inr hother)

/-- The plan after a new frame. -/
def Plan.add (plan : Plan) (fs : Frames) (final : Scope) (ids : List Nat) : Plan where
  role i := if i = fs.size then ⟨final, ids⟩ else plan.role i
  classes := plan.classes

theorem Plan.role_add (plan : Plan) (fs : Frames) (final : Scope) (ids : List Nat) :
    (plan.add fs final ids).role fs.size = ⟨final, ids⟩ :=
  if_pos rfl

/-- The plan after a new class. -/
def Plan.addClass (plan : Plan) : Plan :=
  { plan with classes := plan.classes + 1 }

theorem Extends.add (fs : Frames) (plan : Plan) (enclosing : Option Nat) (final : Scope)
    (ids : List Nat) : Extends fs plan (fs.add enclosing) (plan.add fs final ids) where
  kept := .add fs enclosing
  role i hi := if_neg (Nat.ne_of_lt hi)
  classes := Nat.le_refl _
  enclosing i hi := by rw [fs.enclosing?_add, if_neg (Nat.ne_of_lt hi)]
  held i hi name hname := by
    rw [Frames.holds, fs.slot?_add, if_neg (Nat.ne_of_lt hi)]
    exact hname

theorem Extends.addClass (fs : Frames) (plan : Plan) : Extends fs plan fs plan.addClass where
  kept := .refl fs
  role _ _ := rfl
  classes := Nat.le_succ _
  enclosing _ _ := rfl
  held _ _ _ := id

theorem Extends.addBinding (fs : Frames) (plan : Plan) (enclosing : Nat) (name : String) (v : Value)
    (final : Scope) (ids : List Nat) :
    Extends fs plan (fs.addBinding enclosing name v) (plan.add fs final ids) where
  kept := .addBinding fs enclosing name v
  role i hi := if_neg (Nat.ne_of_lt hi)
  classes := Nat.le_refl _
  enclosing i hi := by rw [fs.enclosing?_addBinding, if_neg (Nat.ne_of_lt hi)]
  held i hi other hother := by
    rw [Frames.holds, fs.slot?_addBinding, if_neg (Nat.ne_of_lt hi)]
    exact hother

end Treewalk
