import Treewalk.Proofs.Run.Order

/-!
# Computations that keep a machine in order

A computation *tracks* another one from a machine in order if both have the same outcome, and the
machine that they leave is in order and follows the first. So a computation with a probe is compared
with the one without, and what the latter does to the machine is found out, in one go.

The two need to agree only where the frames that are left are kept in certain last ones. So it can be
said of every moment of a run that its frames are kept to the end.

The rules of this file say how computations that are put together track each other, and what the
operations of the machine do.

## Main definitions

* `Tracks`: computations with the same outcome that keep a machine in order.

## Main results

* `Tracks.bind`, `Tracks.within`: computations one after the other, and in another frame.
* `Tracks.writeSlot`, `Tracks.newFrame`, `Tracks.bindReceiver`, `Tracks.superMethod`: the operations
  of the machine.
-/

namespace Treewalk

namespace Run

variable {α β : Type}

/-- The frames that a computation leaves, however it ends. -/
def framesAfter : EStateM.Result Interrupt Machine α → Frames
  | .ok _ m => m.frames
  | .error _ m => m.frames

end Run

/-- What computations that track each other leave behind. -/
def Leaves {α : Type} (W : World) (ds : Distances) (grows : Nat → Prop) (plan : Plan)
    (m : Machine) (Q : α → Plan → Machine → Prop) : EStateM.Result Interrupt Machine α → Prop
  | .ok a m' => ∃ plan', Follows W ds grows plan m plan' m' ∧ Q a plan' m'
  | .error _ m' => ∃ plan', Follows W ds grows plan m plan' m'

/-- The frames of before are kept in those that are left. -/
theorem Leaves.keptIn {α : Type} {W : World} {ds : Distances} {grows : Nat → Prop} {plan : Plan}
    {m : Machine} {Q : α → Plan → Machine → Prop} {r : EStateM.Result Interrupt Machine α}
    (h : Leaves W ds grows plan m Q r) : m.frames.KeptIn (Run.framesAfter r) := by
  cases r with
  | ok a m' =>
    obtain ⟨plan', hf, -⟩ := h
    exact hf.extend.kept
  | error e m' =>
    obtain ⟨plan', hf⟩ := h
    exact hf.extend.kept

/-- The machine that a computation leaves follows the first one and, if it answers, then `Q` holds of
the answer and what is left. Another computation has the same outcome, if the frames that are left are
kept in the last ones. -/
structure Tracks {α : Type} (W : World) (ds : Distances) (last : Frames) (grows : Nat → Prop)
    (x' x : Run α) (plan : Plan) (m : Machine) (Q : α → Plan → Machine → Prop) : Prop where
  same : (Run.framesAfter (x m)).KeptIn last → x' m = x m
  leaves : Leaves W ds grows plan m Q (x m)

variable {W : World} {ds : Distances} {last : Frames} {grows grows' : Nat → Prop} {plan : Plan}
  {m : Machine} {α β : Type}

namespace Tracks

/-! ### Computations put together -/

section Rules

variable {x' x : Run α} {Q Q' : α → Plan → Machine → Prop}

theorem mono (h : Tracks W ds last grows x' x plan m Q)
    (hQ : ∀ a plan' m', Follows W ds grows plan m plan' m' → Q a plan' m' → Q' a plan' m') :
    Tracks W ds last grows x' x plan m Q' := by
  refine ⟨h.same, ?_⟩
  have hleaves := h.leaves
  cases hx : x m with
  | ok a m' =>
    rw [hx] at hleaves
    obtain ⟨plan', hf, hq⟩ := hleaves
    exact ⟨plan', hf, hQ a plan' m' hf hq⟩
  | error e m' =>
    rw [hx] at hleaves
    exact hleaves

theorem ok (plan' : Plan) {a : α} {m' : Machine} (hx' : x' m = .ok a m') (hx : x m = .ok a m')
    (hf : Follows W ds grows plan m plan' m') (hq : Q a plan' m') :
    Tracks W ds last grows x' x plan m Q :=
  ⟨fun _ => hx'.trans hx.symm, by rw [hx]; exact ⟨plan', hf, hq⟩⟩

theorem pure (ho : Ordered W ds plan m) {a : α} (hq : Q a plan m) :
    Tracks W ds last grows (Pure.pure a) (Pure.pure a) plan m Q :=
  ok plan rfl rfl (.refl ho) hq

theorem throw (ho : Ordered W ds plan m) (e : Interrupt) :
    Tracks W ds last grows (throw e : Run α) (throw e) plan m Q :=
  ⟨fun _ => rfl, plan, .refl ho⟩

theorem raise (ho : Ordered W ds plan m) (fault : RuntimeFault) (line : Nat) :
    Tracks W ds last grows (Run.raise fault line : Run α) (Run.raise fault line) plan m Q :=
  throw ho _

theorem checked (ho : Ordered W ds plan m) (line : Nat) {outcome : Except RuntimeFault α}
    (hq : ∀ a, outcome = .ok a → Q a plan m) :
    Tracks W ds last grows (Run.checked line outcome) (Run.checked line outcome) plan m Q := by
  cases outcome with
  | ok a => exact pure ho (hq a rfl)
  | error fault => exact raise ho fault line

/-- What is known of the parts in turn is known of computations one after the other. Of the frames
of before, those grow that grow in either part. -/
theorem bindWith {g g' : Nat → Prop} {k' k : α → Run β} {R : β → Plan → Machine → Prop}
    (h : Tracks W ds last g x' x plan m Q) (hg : ∀ i, g i → grows i)
    (hg' : ∀ i < m.frames.size, g' i → grows i)
    (hk : ∀ a plan' m', Follows W ds g plan m plan' m' → Q a plan' m' →
      Tracks W ds last g' (k' a) (k a) plan' m' R) :
    Tracks W ds last grows (x' >>= k') (x >>= k) plan m R := by
  have hsame := h.same
  have hleaves := h.leaves
  cases hx : x m with
  | error e m' =>
    rw [hx] at hsame hleaves
    obtain ⟨plan', hf⟩ := hleaves
    refine ⟨fun hlast => ?_, ?_⟩
    · rw [Run.bind_apply, hx] at hlast
      rw [Run.bind_apply, Run.bind_apply, hsame hlast, hx]
    · rw [Run.bind_apply, hx]
      exact ⟨plan', hf.mono hg⟩
  | ok a m' =>
    rw [hx] at hsame hleaves
    obtain ⟨plan', hf, hq⟩ := hleaves
    have hnext := hk a plan' m' hf hq
    have hf := hf.mono hg
    refine ⟨fun hlast => ?_, ?_⟩
    · rw [Run.bind_apply, hx] at hlast
      -- what is left in between is kept in what is left in the end
      rw [Run.bind_apply, Run.bind_apply, hsame (hnext.leaves.keptIn.trans hlast), hx]
      exact hnext.same hlast
    · have hleaves := hnext.leaves
      rw [Run.bind_apply, hx]
      change Leaves W ds grows plan m R (k a m')
      cases hk : k a m' with
      | ok b m'' =>
        rw [hk] at hleaves
        obtain ⟨plan'', hf', hr⟩ := hleaves
        exact ⟨plan'', hf.trans hf' hg', hr⟩
      | error e m'' =>
        rw [hk] at hleaves
        obtain ⟨plan'', hf'⟩ := hleaves
        exact ⟨plan'', hf.trans hf' hg'⟩

theorem bind {k' k : α → Run β} {R : β → Plan → Machine → Prop}
    (h : Tracks W ds last grows x' x plan m Q)
    (hk : ∀ a plan' m', Follows W ds grows plan m plan' m' → Q a plan' m' →
      Tracks W ds last grows (k' a) (k a) plan' m' R) :
    Tracks W ds last grows (x' >>= k') (x >>= k) plan m R :=
  h.bindWith (fun _ => id) (fun _ _ => id) hk

/-- A first part in which no frame of before grows. -/
theorem bindFrom {k' k : α → Run β} {R : β → Plan → Machine → Prop}
    (h : Tracks W ds last (fun _ => False) x' x plan m Q)
    (hk : ∀ a plan' m', Follows W ds (fun _ => False) plan m plan' m' → Q a plan' m' →
      Tracks W ds last grows (k' a) (k a) plan' m' R) :
    Tracks W ds last grows (x' >>= k') (x >>= k) plan m R :=
  h.bindWith (fun _ => False.elim) (fun _ _ => id) hk

/-- A second part in which only a frame grows that is new. -/
theorem bindNew {k' k : α → Run β} {R : β → Plan → Machine → Prop}
    (h : Tracks W ds last (fun _ => False) x' x plan m Q)
    (hk : ∀ a plan' m', Follows W ds (fun _ => False) plan m plan' m' → Q a plan' m' →
      Tracks W ds last (· = m.frames.size) (k' a) (k a) plan' m' R) :
    Tracks W ds last grows (x' >>= k') (x >>= k) plan m R :=
  h.bindWith (fun _ => False.elim) (fun _ hi heq => absurd heq (Nat.ne_of_lt hi)) hk

/-- Computations that differ from others only on other machines. -/
theorem of_eq {y' y : Run α} (h : Tracks W ds last grows x' x plan m Q) (hy' : y' m = x' m)
    (hy : y m = x m) : Tracks W ds last grows y' y plan m Q :=
  ⟨fun hlast => hy'.trans ((h.same (by rwa [hy] at hlast)).trans hy.symm), by
    rw [hy]
    exact h.leaves⟩

/-- What is known after a first step that always answers. -/
theorem step {plan₁ : Plan} {m₁ : Machine} {y' y : Run α} (hx' : x' m = y' m₁) (hx : x m = y m₁)
    (hf : Follows W ds grows plan m plan₁ m₁) (hgrows : ∀ i < m.frames.size, grows' i → grows i)
    (h : Tracks W ds last grows' y' y plan₁ m₁ Q) : Tracks W ds last grows x' x plan m Q := by
  refine ⟨fun hlast => hx'.trans ((h.same (by rwa [hx] at hlast)).trans hx.symm), ?_⟩
  have hleaves := h.leaves
  rw [hx]
  cases hy : y m₁ with
  | ok a m' =>
    rw [hy] at hleaves
    obtain ⟨plan', hf', hq⟩ := hleaves
    exact ⟨plan', hf.trans hf' hgrows, hq⟩
  | error e m' =>
    rw [hy] at hleaves
    obtain ⟨plan', hf'⟩ := hleaves
    exact ⟨plan', hf.trans hf' hgrows⟩

theorem ite {c : Prop} [Decidable c] {y' y : Run α} (h : c → Tracks W ds last grows x' x plan m Q)
    (hnot : ¬ c → Tracks W ds last grows y' y plan m Q) :
    Tracks W ds last grows (if c then x' else y') (if c then x else y) plan m Q := by
  by_cases hc : c
  · rw [if_pos hc, if_pos hc]
    exact h hc
  · rw [if_neg hc, if_neg hc]
    exact hnot hc

theorem getBind {k' k : Machine → Run α} (h : Tracks W ds last grows (k' m) (k m) plan m Q) :
    Tracks W ds last grows (get >>= k') (get >>= k) plan m Q :=
  ⟨h.same, h.leaves⟩

theorem currentBind {k' k : Nat → Run α}
    (h : Tracks W ds last grows (k' m.current) (k m.current) plan m Q) :
    Tracks W ds last grows (Run.currentFrame >>= k') (Run.currentFrame >>= k) plan m Q :=
  ⟨h.same, h.leaves⟩

theorem widen (h : Tracks W ds last grows x' x plan m Q) (hgrows : ∀ i, grows i → grows' i) :
    Tracks W ds last grows' x' x plan m Q := by
  refine ⟨h.same, ?_⟩
  have hleaves := h.leaves
  cases hx : x m with
  | ok a m' =>
    rw [hx] at hleaves
    obtain ⟨plan', hf, hq⟩ := hleaves
    exact ⟨plan', hf.mono hgrows, hq⟩
  | error e m' =>
    rw [hx] at hleaves
    obtain ⟨plan', hf⟩ := hleaves
    exact ⟨plan', hf.mono hgrows⟩

theorem within {i : Nat} (h : Tracks W ds last grows x' x plan { m with current := i } Q)
    (hQ : ∀ a plan' m', Q a plan' m' → Q' a plan' { m' with current := m.current }) :
    Tracks W ds last grows (Run.within i x') (Run.within i x) plan m Q' := by
  have hsame := h.same
  have hleaves := h.leaves
  have hback {plan' : Plan} {m' : Machine}
      (hf : Follows W ds grows plan { m with current := i } plan' m') :
      Follows W ds grows plan m plan' { m' with current := m.current } :=
    ⟨hf.ordered.of_current, hf.extend, hf.same, rfl⟩
  have hframes : Run.framesAfter (Run.within i x m) =
      Run.framesAfter (x { m with current := i }) := by
    simp only [Run.within]
    cases x { m with current := i } <;> rfl
  refine ⟨fun hlast => ?_, ?_⟩
  · rw [hframes] at hlast
    simp only [Run.within, hsame hlast]
  · simp only [Run.within]
    cases hx : x { m with current := i } with
    | ok a m' =>
      rw [hx] at hleaves
      obtain ⟨plan', hf, hq⟩ := hleaves
      exact ⟨plan', hback hf, hQ a plan' m' hq⟩
    | error e m' =>
      rw [hx] at hleaves
      obtain ⟨plan', hf⟩ := hleaves
      exact ⟨plan', hback hf⟩

end Rules

/-! ### Frames -/

/-- A new frame may stand for any scope around any nodes. -/
theorem newFrame (ho : Ordered W ds plan m) (enclosing : Nat) (final : Scope) (ids : List Nat) :
    Tracks W ds last grows (Run.newFrame enclosing) (Run.newFrame enclosing) plan m
      fun i plan' m' => i = m.frames.size ∧ i < m'.frames.size ∧ plan'.role i = ⟨final, ids⟩ ∧
        m'.frames.enclosing? i = some enclosing ∧ ∀ name, ¬ m'.frames.holds i name := by
  refine ok (plan.add m.frames final ids) rfl rfl ?_ ?_
  · refine ⟨ho.add enclosing final ids, .add .., fun i hi _ name hname => ?_, rfl⟩
    rwa [Frames.holds, m.frames.slot?_add, if_neg (Nat.ne_of_lt hi)] at hname
  · refine ⟨rfl, ?_, Plan.role_add .., ?_, fun name => ?_⟩
    · rw [m.frames.size_add]
      exact Nat.lt_succ_self _
    · rw [m.frames.enclosing?_add, if_pos rfl]
    · rw [Frames.holds, m.frames.slot?_add, if_pos rfl]
      exact Bool.false_ne_true

/-- Writing a slot of a frame that may grow or holds the name already. The frame is not sealed, and
the name is not reserved. -/
theorem writeSlot (ho : Ordered W ds plan m) {i : Nat} {name : String} {slot : Option Value}
    (hi : i < m.frames.size) (hunsealed : ¬ m.frames.Sealed i)
    (hname : name ≠ "this" ∧ name ≠ "super")
    (hdeclares : i ≠ globalFrame → (plan.role i).final.declares name)
    (hslot : ∀ v, slot = some v → v.Placed W (m.frames.write i name slot) plan)
    (hgrows : grows i ∨ m.frames.holds i name) :
    Tracks W ds last grows (Run.writeSlot i name slot) (Run.writeSlot i name slot) plan m
      fun _ plan' m' => plan' = plan ∧ m' = { m with frames := m.frames.write i name slot } := by
  refine ok plan rfl rfl ?_ ⟨rfl, rfl⟩
  refine ⟨ho.write hi hunsealed hname hdeclares hslot, .write _ _ hi hunsealed hname _,
    fun j _ hj other hother => ?_, rfl⟩
  rcases (m.frames.holds_write hi j name other slot).mp hother with ⟨rfl, rfl⟩ | hother
  · exact hgrows.resolve_left hj
  · exact hother

/-- A new frame with a single binding, which it hosts. -/
theorem newBinding {enclosing : Nat} {name : String} {v : Value} {ids : List Nat}
    (ho : Ordered W ds (plan.add m.frames [(name, true)] ids)
      { m with frames := m.frames.addBinding enclosing name v })
    {x' x : Nat → Run α} {Q : α → Plan → Machine → Prop}
    (h : Tracks W ds last grows (x' m.frames.size) (x m.frames.size)
      (plan.add m.frames [(name, true)] ids)
      { m with frames := m.frames.addBinding enclosing name v } Q) :
    Tracks W ds last grows
      (do let i ← Run.newFrame enclosing; Run.writeSlot i name (some v); x' i)
      (do let i ← Run.newFrame enclosing; Run.writeSlot i name (some v); x i) plan m Q := by
  have hf : Follows W ds grows plan m (plan.add m.frames [(name, true)] ids)
      { m with frames := m.frames.addBinding enclosing name v } := by
    refine ⟨ho, .addBinding .., fun i hi _ other hother => ?_, rfl⟩
    rwa [Frames.holds, m.frames.slot?_addBinding, if_neg (Nat.ne_of_lt hi)] at hother
  refine step ?_ ?_ hf (fun _ _ => id) h
  · rfl
  · rfl

/-- Assigning to a name that a frame holds. -/
theorem assignIn (ho : Ordered W ds plan m) {holder : Option Nat} {name : Name} {v : Value}
    (hname : name.IsFree) (hholder : ∀ i, holder = some i → m.frames.holds i name.text)
    (hv : v.Placed W m.frames plan) :
    Tracks W ds last grows (Run.assignIn holder name v) (Run.assignIn holder name v) plan m
      fun _ _ _ => True := by
  cases holder with
  | none => exact raise ho _ _
  | some i =>
    have hholds := hholder i rfl
    have hi := Frames.lt_size_of_holds hholds
    have hunsealed := ho.not_sealed_of_holds hholds hname.unreserved
    refine (writeSlot ho hi hunsealed hname.unreserved (fun hne => ho.held i hne _ hholds)
      (fun w hw => ?_) (.inr hholds)).mono fun _ _ _ _ _ => trivial
    cases hw
    exact hv.extends (.write _ _ hi hunsealed hname.unreserved _)

theorem holds_of_holder? {fs : Frames} {i j : Nat} {name : String}
    (h : fs.holder? i name = some j) : fs.holds j name := by
  simpa using List.find?_some h

theorem holds_of_holderAt? {fs : Frames} {i distance j : Nat} {name : String}
    (h : fs.holderAt? i distance name = some j) : fs.holds j name := by
  unfold Frames.holderAt? at h
  dsimp only at h
  split at h
  · next hholds =>
    cases h
    exact hholds
  · cases h

/-- The frame that is found for a name holds it. -/
theorem holds_of_holderOf {lookup : Lookup} {id j : Nat} {name : String}
    (h : m.holderOf lookup id name = some j) : m.frames.holds j name := by
  unfold Machine.holderOf at h
  split at h
  · split at h
    · exact holds_of_holderAt? h
    · exact holds_of_holder? h
  · exact holds_of_holder? h

/-- A value that is read is placed. -/
theorem placed_of_readIn (ho : Ordered W ds plan m) {holder : Option Nat} {name : String}
    {v : Value} (h : m.frames.readIn holder name = .ok v) : v.Placed W m.frames plan := by
  obtain ⟨i, hslot⟩ := Frames.exists_slot?_of_readIn h
  exact ho.slots i name v hslot

theorem readVariable (ho : Ordered W ds plan m) (lookup : Lookup) (id : Nat) (name : Name) :
    Tracks W ds last grows (Run.readVariable lookup id name) (Run.readVariable lookup id name) plan m
      fun v plan' m' => plan' = plan ∧ m' = m ∧ v.Placed W m.frames plan ∧
        m.frames.readIn (m.holderOf lookup id name.text) name.text = .ok v :=
  getBind (checked ho _ fun _ hv => ⟨rfl, rfl, placed_of_readIn ho hv, hv⟩)

theorem assignVariable (ho : Ordered W ds plan m) (lookup : Lookup) (id : Nat) {name : Name}
    (hname : name.IsFree) {v : Value} (hv : v.Placed W m.frames plan) :
    Tracks W ds last grows (Run.assignVariable lookup id name v)
      (Run.assignVariable lookup id name v) plan m fun _ _ _ => True :=
  getBind (assignIn ho hname (fun _ => holds_of_holderOf) hv)

/-! ### Functions, classes and objects -/

theorem newClosure (ho : Ordered W ds plan m) (decl : FunctionDecl) (frame : Nat)
    (isInitializer : Bool) :
    Tracks W ds last grows (Run.newClosure decl frame isInitializer)
      (Run.newClosure decl frame isInitializer) plan m
      fun f plan' m' => f.decl = decl ∧ f.frame = frame ∧ f.isInitializer = isInitializer ∧
        plan' = plan ∧ m'.frames = m.frames ∧ m'.classes = m.classes :=
  ok plan rfl rfl ⟨ho.of_tables rfl rfl rfl ho.distances, .refl _ _, fun _ _ _ _ => id, rfl⟩
    ⟨rfl, rfl, rfl, rfl, rfl, rfl⟩

theorem newClass (ho : Ordered W ds plan m) {info : ClassInfo}
    (hsuper : ∀ c, info.superclass = some c → c < m.classes.size)
    (hmethods : ∀ name f, info.methods.get? name = some f → f.Bindable W m.frames plan ∧
      m.frames.Offers W info.superclass m.classes.size f) :
    Tracks W ds last grows (Run.newClass info) (Run.newClass info) plan m
      fun c plan' m' => c < plan'.classes ∧ m'.frames = m.frames := by
  refine ok plan.addClass rfl rfl ⟨ho.addClass hsuper hmethods, .addClass .., fun _ _ _ _ => id, rfl⟩
    ⟨?_, rfl⟩
  rw [← ho.classes]
  exact Nat.lt_succ_self _

theorem newObject (ho : Ordered W ds plan m) {c : Nat} (hc : c < m.classes.size) :
    Tracks W ds last grows (Run.newObject c) (Run.newObject c) plan m
      fun i plan' m' => plan' = plan ∧ m'.frames = m.frames ∧ m'.classes = m.classes ∧
        m'.classOf? i = some c :=
  ok plan rfl rfl ⟨ho.addObject hc, .refl _ _, fun _ _ _ _ => id, rfl⟩
    ⟨rfl, rfl, rfl, by simp [Machine.classOf?]⟩

theorem setField (ho : Ordered W ds plan m) (i : Nat) (name : String) {v : Value}
    (hv : v.Placed W m.frames plan) :
    Tracks W ds last grows (Run.setField i name v) (Run.setField i name v) plan m
      fun _ plan' m' => plan' = plan ∧ m'.frames = m.frames :=
  ok plan rfl rfl ⟨ho.setField hv, .refl _ _, fun _ _ _ _ => id, rfl⟩ ⟨rfl, rfl⟩

/-- The method that is found is one of some class. -/
theorem bindable_of_findMethod? (ho : Ordered W ds plan m) {c : Nat} {name : String}
    {f : Closure} (h : m.findMethod? c name = some f) : f.Bindable W m.frames plan := by
  obtain ⟨c', _, hf⟩ := List.exists_of_findSome?_eq_some h
  exact ho.methods c' name f hf

/-- A method that is bound to a receiver that it suits is placed. -/
theorem bindReceiver (ho : Ordered W ds plan m) {f : Closure} {receiver : Value}
    (hf : f.Bindable W m.frames plan) (hreceives : m.Receives receiver f) :
    Tracks W ds last grows (Run.bindReceiver f receiver) (Run.bindReceiver f receiver) plan m
      fun g plan' m' => g.decl = f.decl ∧ g.Placed W m'.frames plan' := by
  have hbinds := m.frames.bindsOnly_addBinding f.frame "this" receiver
  have hthis : Machine.HostsReceiver
      { m with frames := m.frames.addBinding f.frame "this" receiver }
      (plan.add m.frames receiverScope f.decl.ids) m.frames.size := by
    have hkeeps : m.Keeps { m with frames := m.frames.addBinding f.frame "this" receiver } :=
      .of_eq rfl rfl
    refine ⟨receiver, f, hbinds, hkeeps.receives ho.descends hreceives, ?_, ?_⟩
    · rw [Frames.enclosing?_addBinding, if_pos rfl]
    · rw [Plan.role_add]
      exact List.Subset.refl _
  have hv : receiver.Placed W m.frames plan := by
    obtain ⟨o, c, k, name, rfl, -⟩ := hreceives
    trivial
  have ho₁ := ho.addBinding hv (fun _ => hthis) fun h => absurd h (by decide)
  refine newBinding ho₁ ((newClosure ho₁ f.decl m.frames.size f.isInitializer).mono ?_)
  rintro g _ m' - ⟨hdecl, hframe, -, rfl, hframes, -⟩
  obtain ⟨σ, outer, closed, hseen, hscopes, hclosed, hlies⟩ := hf
  rw [Closure.Placed, hframe, hframes, hdecl]
  refine ⟨rfl, σ, hseen, ?_, fun _ => hbinds.holds_iff.mpr rfl⟩
  rw [hscopes, hclosed]
  refine .frame (hlies.lt_size ho.global) ?_ ?_ (fun name hname => ?_) ?_ ?_
    (hlies.extends (.addBinding ..))
  · rw [Frames.size_addBinding]
    exact Nat.lt_succ_self _
  · rw [Frames.enclosing?_addBinding, if_pos rfl]
  · exact hbinds.holds_iff.mpr (Scope.eq_of_isReady_single hname)
  · rw [Plan.role_add]
    rfl
  · rw [Plan.role_add]
    exact List.Subset.refl _

theorem asObject (ho : Ordered W ds plan m) (v : Value) (what : String) (line : Nat) :
    Tracks W ds last grows (Run.asObject v what line) (Run.asObject v what line) plan m
      fun _ plan' m' => plan' = plan ∧ m' = m := by
  cases v with
  | object i => exact pure ho ⟨rfl, rfl⟩
  | _ => exact raise ho _ _

theorem property (ho : Ordered W ds plan m) (i : Nat) (name : Name) :
    Tracks W ds last grows (Run.property i name) (Run.property i name) plan m
      fun v plan' m' => v.Placed W m'.frames plan' := by
  refine getBind ?_
  cases hfield : m.field? i name.text with
  | some v => exact pure ho (ho.fields i name.text v hfield)
  | none =>
    cases hmethod : (m.classOf? i).bind fun c => m.findMethod? c name.text with
    | none => exact raise ho _ _
    | some f =>
      obtain ⟨c, hc, hf⟩ := Option.bind_eq_some_iff.mp hmethod
      have hreceives := Machine.Receives.of_findMethod? hc hf
      refine (bindReceiver ho (bindable_of_findMethod? ho hf) hreceives).bind
        fun g plan' m' hf' hg => ?_
      exact pure hf'.ordered hg.2

theorem readAt (ho : Ordered W ds plan m) (line distance : Nat) (name : String) :
    Tracks W ds last grows (Run.checked line (m.frames.getAt m.current distance name))
      (Run.checked line (m.frames.getAt m.current distance name)) plan m
      fun v plan' m' => plan' = plan ∧ m' = m ∧ m.frames.getAt m.current distance name = .ok v :=
  checked ho line fun _ hv => ⟨rfl, rfl, hv⟩

/-- A method of a superclass is bound to a receiver that it suits: the frame just inside of the one
that binds `super` binds `this`. -/
theorem superMethod (ho : Ordered W ds plan m) (id line : Nat) (method : Name) :
    Tracks W ds last grows (Run.superMethod id line method) (Run.superMethod id line method) plan m
      fun v plan' m' => v.Placed W m'.frames plan' := by
  refine getBind ?_
  cases m.distances.get? id with
  | none => exact raise ho _ _
  | some distance =>
    refine (readAt ho line distance "super").bind fun parent plan₁ m₁ hf₁ hq₁ => ?_
    obtain ⟨rfl, rfl, hparent⟩ := hq₁
    refine (readAt ho line (distance - 1) "this").bind fun receiver plan₂ m₂ hf₂ hq₂ => ?_
    obtain ⟨rfl, rfl, hreceiver⟩ := hq₂
    cases parent with
    | cls c =>
      cases hf : m₂.findMethod? c method.text with
      | none =>
        simp only [hf]
        exact raise ho _ _
      | some f =>
        simp only [hf]
        have hreceives := ho.receives_of_getAt hparent hreceiver hf
        refine (bindReceiver ho (bindable_of_findMethod? ho hf) hreceives).bind
          fun g plan' m' hf' hg => ?_
        exact pure hf'.ordered hg.2
    | _ => exact raise ho _ _

/-! ### Built-in functions -/

/-- What a computation does outside of the tables keeps the machine in order. -/
theorem outside (ho : Ordered W ds plan m) {x : Run α} {Q : α → Plan → Machine → Prop} {a : α}
    {m' : Machine} (hx : x m = .ok a m')
    (hm' : m' = { m with input := m'.input, output := m'.output, readings := m'.readings })
    (hq : Q a plan m') : Tracks W ds last grows x x plan m Q := by
  refine ok plan hx hx ?_ hq
  rw [hm']
  exact ⟨ho.of_tables rfl rfl rfl ho.distances, .refl _ _, fun _ _ _ _ => id, rfl⟩

theorem readLine (ho : Ordered W ds plan m) (line : Nat) :
    Tracks W ds last grows (Run.readLine line) (Run.readLine line) plan m
      fun v plan' m' => v.Placed W m'.frames plan' := by
  refine getBind ?_
  have hset : Tracks W ds last grows (set m.readLine.2) (set m.readLine.2) plan m
      fun _ _ _ => True :=
    outside ho rfl rfl trivial
  refine hset.bind fun _ plan' m' hf _ => ?_
  split
  · exact pure hf.ordered trivial
  · exact raise hf.ordered _ _
  · exact pure hf.ordered trivial

theorem native (ho : Ordered W ds plan m) (n : Native) (arguments : List Value) (line : Nat) :
    Tracks W ds last grows (n.run arguments line) (n.run arguments line) plan m
      fun v plan' m' => v.Placed W m'.frames plan' := by
  cases n with
  | clock => exact outside ho rfl rfl trivial
  | print => exact outside ho rfl rfl trivial
  | printLine => exact outside ho rfl rfl trivial
  | readLine => exact readLine ho line

end Tracks

end Treewalk
