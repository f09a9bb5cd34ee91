import Treewalk.Proofs.Run.Lineage
import Treewalk.Proofs.Run.Placement

/-!
# Machines in order

A machine is in order if everything that is stored on it is placed, and if sealed frames *host* what
they were made for: a receiver with a method that suits it, or the superclass that a declaration has
found. Methods of a class close over the frame that hosts its superclass.

The machine *stands* at a site if its current frame lies at the scopes that are open there and holds
no other names.

## Main definitions

* `Machine.HostsReceiver`, `Machine.HostsSuperclass`, `Frames.Offers`: sealed frames.
* `Ordered`: machines in order.
* `Follows`: later machines.
* `Stands`: the machine at a site.

## Main results

* `Ordered.later`: what is asked of a step.
* `Ordered.write`, `Ordered.add`, `Ordered.addBinding`: steps on frames.
* `Ordered.inherits`: receivers and superclasses in frames that stand around each other.
* `Follows.stands`: the machine goes on standing where it stood.
-/

namespace Treewalk

/-! ### What sealed frames are made for -/

/-- A run comes to the declaration of a class with these methods on a machine on which its superclass
is `c`. The next frame and the next class that are made then are `i` and `k`. -/
def World.Declares (W : World) (methods : List FunctionDecl) (c i k : Nat) : Prop :=
  ∃ name s m, W.comes (.stmt (.class name (some s) methods)) m ∧
    m.frames.readIn (m.holderOf .resolved s.id s.name.text) s.name.text = .ok (.cls c) ∧
    i = m.frames.size ∧ k = m.classes.size

namespace Machine

/-- A frame binds `this` to a receiver that a method suits. It was made inside the frame of the
method, and only nodes of the method are evaluated inside of it. -/
def HostsReceiver (m : Machine) (plan : Plan) (i : Nat) : Prop :=
  ∃ receiver f, m.frames.BindsOnly i "this" receiver ∧ m.Receives receiver f ∧
    m.frames.enclosing? i = some f.frame ∧ (plan.role i).ids ⊆ f.decl.ids

/-- A local frame binds `super` to the class that the declaration of a class has found. -/
def HostsSuperclass (W : World) (m : Machine) (i : Nat) : Prop :=
  i ≠ globalFrame ∧ ∃ c < m.classes.size, m.frames.BindsOnly i "super" (.cls c) ∧
    ∃ methods k, W.Declares methods c i k

end Machine

/-- The method `f` of the class `k` closes over a frame that binds `super` just if the class has a
superclass, and then to that class. -/
def Frames.Offers (W : World) (fs : Frames) (superclass : Option Nat) (k : Nat) (f : Closure) :
    Prop :=
  match superclass with
  | none => ¬ fs.holds f.frame "super"
  | some c => fs.BindsOnly f.frame "super" (.cls c) ∧
    ∃ methods, f.decl ∈ methods ∧ W.Declares methods c f.frame k

/-! ### Machines in order -/

/-- A machine in order: local frames hold only names that their scopes declare in the end, everything
that is stored is placed, and sealed frames host what they were made for. -/
structure Ordered (W : World) (ds : Distances) (plan : Plan) (m : Machine) : Prop where
  global : globalFrame < m.frames.size
  root : m.frames.enclosing? globalFrame = none
  held : ∀ i, i ≠ globalFrame → ∀ name, m.frames.holds i name → (plan.role i).final.declares name
  slots : ∀ i name v, m.frames.slot? i name = some (some v) → v.Placed W m.frames plan
  fields : ∀ i name v, m.field? i name = some v → v.Placed W m.frames plan
  methods : ∀ c name f, m.ownMethod? c name = some f → f.Bindable W m.frames plan
  distances : m.distances = ds
  classes : plan.classes = m.classes.size
  descends : m.Descends
  receivers : ∀ i, m.frames.holds i "this" → m.HostsReceiver plan i
  supers : ∀ i, m.frames.holds i "super" → m.HostsSuperclass W i
  offers : ∀ c name f, m.ownMethod? c name = some f →
    m.frames.Offers W (m.superclass? c) c f

/-- A later machine in order, with the same current frame. Of the frames of before, only those in
`grows` hold more names. -/
structure Follows (W : World) (ds : Distances) (grows : Nat → Prop) (plan : Plan)
    (m : Machine) (plan' : Plan) (m' : Machine) : Prop where
  ordered : Ordered W ds plan' m'
  extend : Extends m.frames plan m'.frames plan'
  same : ∀ i < m.frames.size, ¬ grows i → ∀ name, m'.frames.holds i name → m.frames.holds i name
  current : m'.current = m.current

/-- The machine stands at a site, at nodes with certain numbers: its current frame lies at the open
scopes and, unless it is the global one, holds only names that are ready in the innermost scope. It is
not sealed. -/
structure Stands (plan : Plan) (m : Machine) (ids : List Nat) (scopes closed : Scopes) : Prop where
  lies : Lies m.frames plan ids m.current scopes closed
  tight : ∀ scope outer, scopes = scope :: outer →
    ∀ name, m.frames.holds m.current name → scope.isReady name
  unsealed : ¬ m.frames.Sealed m.current

theorem Stands.subset {plan : Plan} {m : Machine} {ids ids' : List Nat} {scopes closed : Scopes}
    (h : Stands plan m ids scopes closed) (hsub : ids' ⊆ ids) :
    Stands plan m ids' scopes closed :=
  ⟨h.lies.subset hsub, h.tight, h.unsealed⟩

namespace Machine

variable {W : World} {plan plan' : Plan} {m m' : Machine} {i : Nat}

theorem HostsReceiver.extends (h : m.HostsReceiver plan i)
    (he : Extends m.frames plan m'.frames plan') (hk : m.Keeps m') (hm : m.Descends) :
    m'.HostsReceiver plan' i := by
  obtain ⟨receiver, f, hbinds, hreceives, henclosing, hids⟩ := h
  have hi := Frames.lt_size_of_holds (hbinds.holds_iff.mpr rfl)
  refine ⟨receiver, f, he.bindsOnly (.inl rfl) hbinds, hk.receives hm hreceives, ?_, ?_⟩
  · rw [he.enclosing i hi, henclosing]
  · rwa [he.role i hi]

theorem HostsSuperclass.extends (h : m.HostsSuperclass W i)
    (he : Extends m.frames plan m'.frames plan') (hk : m.Keeps m') : m'.HostsSuperclass W i := by
  obtain ⟨hne, c, hc, hbinds, hdeclares⟩ := h
  exact ⟨hne, c, Nat.lt_of_lt_of_le hc hk.size, he.bindsOnly (.inr rfl) hbinds, hdeclares⟩

end Machine

theorem Frames.Offers.extends {W : World} {fs fs' : Frames} {plan plan' : Plan}
    {superclass : Option Nat} {k : Nat} {f : Closure} (h : fs.Offers W superclass k f)
    (he : Extends fs plan fs' plan') (hframe : f.frame < fs.size) : fs'.Offers W superclass k f := by
  cases superclass with
  | none =>
    intro hholds
    have heq := he.kept.slots _ hframe (.inr (.inr hholds)) "super"
    exact h (by rwa [Frames.holds, heq] at hholds)
  | some c => exact ⟨he.bindsOnly (.inr rfl) h.1, h.2⟩

/-! ### What steps do to a machine in order -/

section Ordered

variable {W : World} {ds ds' : Distances} {plan plan' : Plan} {m m' : Machine}

namespace Ordered

/-- A machine stays in order if frames, classes and objects of before stay what they were, and what is
new is in order. -/
theorem later (h : Ordered W ds plan m) (he : Extends m.frames plan m'.frames plan')
    (hk : m.Keeps m') (hdistances : m'.distances = ds') (hclasses : plan'.classes = m'.classes.size)
    (hdescends : m'.Descends)
    (hheld : ∀ i, i ≠ globalFrame → ∀ name, m'.frames.holds i name →
      m.frames.holds i name ∨ (plan'.role i).final.declares name)
    (hslots : ∀ i name v, m'.frames.slot? i name = some (some v) →
      m.frames.slot? i name = some (some v) ∨ v.Placed W m'.frames plan')
    (hfields : ∀ i name v, m'.field? i name = some v →
      m.field? i name = some v ∨ v.Placed W m'.frames plan')
    (hmethods : ∀ c name f, m.classes.size ≤ c → m'.ownMethod? c name = some f →
      f.Bindable W m'.frames plan' ∧ m'.frames.Offers W (m'.superclass? c) c f)
    (hreceivers : ∀ i, m.frames.size ≤ i → m'.frames.holds i "this" → m'.HostsReceiver plan' i)
    (hsupers : ∀ i, m.frames.size ≤ i → m'.frames.holds i "super" → m'.HostsSuperclass W i) :
    Ordered W ds' plan' m' := by
  have hmethod (c : Nat) (name : String) (f : Closure) (hf : m'.ownMethod? c name = some f) :
      f.Bindable W m'.frames plan' ∧ m'.frames.Offers W (m'.superclass? c) c f := by
    rcases Nat.lt_or_ge c m.classes.size with hc | hc
    · rw [hk.method c hc] at hf
      have hbindable := h.methods c name f hf
      rw [hk.superclass c hc]
      exact ⟨hbindable.extends he, (h.offers c name f hf).extends he (hbindable.lt_size h.global)⟩
    · exact hmethods c name f hc hf
  have hslot {i : Nat} (hi : i < m.frames.size) (hsealed : m'.frames.Sealed i) (name : String)
      (hname : m'.frames.holds i name) : m.frames.holds i name := by
    rwa [Frames.holds, he.kept.slots i hi (.inr hsealed) name] at hname
  refine ⟨Nat.lt_of_lt_of_le h.global he.size, (he.enclosing _ h.global).trans h.root,
    fun i hi name hname => ?_, fun i name v hv => ?_, fun i name v hv => ?_,
    fun c name f hf => (hmethod c name f hf).1, hdistances, hclasses, hdescends,
    fun i hi => ?_, fun i hi => ?_, fun c name f hf => (hmethod c name f hf).2⟩
  · rcases hheld i hi name hname with hname | hname
    · rw [he.role i (Frames.lt_size_of_holds hname)]
      exact h.held i hi name hname
    · exact hname
  · exact (hslots i name v hv).elim (fun hv => (h.slots i name v hv).extends he) id
  · exact (hfields i name v hv).elim (fun hv => (h.fields i name v hv).extends he) id
  · rcases Nat.lt_or_ge i m.frames.size with hlt | hge
    · exact (h.receivers i (hslot hlt (.inl hi) _ hi)).extends he hk h.descends
    · exact hreceivers i hge hi
  · rcases Nat.lt_or_ge i m.frames.size with hlt | hge
    · exact (h.supers i (hslot hlt (.inr hi) _ hi)).extends he hk
    · exact hsupers i hge hi

/-- Only frames, classes and objects matter. -/
theorem of_tables (h : Ordered W ds plan m) (hframes : m'.frames = m.frames)
    (hclasses : m'.classes = m.classes) (hobjects : m'.objects = m.objects)
    (hdistances : m'.distances = ds') : Ordered W ds' plan m' := by
  have hk := Machine.Keeps.of_eq hclasses hobjects
  refine h.later (by rw [hframes]; exact .refl _ _) hk hdistances (by rw [hclasses]; exact h.classes)
    ⟨fun k c hc => ?_, fun o c hc => ?_⟩ (fun i _ name hname => .inl (by rwa [hframes] at hname))
    (fun i name v hv => .inl (by rwa [hframes] at hv)) (fun i name v hv => .inl ?_)
    (fun c name f hc hf => ?_) (fun i hi hname => ?_) fun i hi hname => ?_
  · exact h.descends.superclass k c (by rwa [Machine.superclass?, hclasses] at hc)
  · rw [hclasses]
    exact h.descends.classOf o c (by rwa [Machine.classOf?, hobjects] at hc)
  · rwa [Machine.field?, hobjects] at hv
  · have hlt := Machine.lt_size_of_ownMethod? hf
    rw [hclasses] at hlt
    exact absurd hlt (Nat.not_lt.mpr hc)
  · rw [hframes] at hname
    exact absurd hname (m.frames.not_holds_of_le hi _)
  · rw [hframes] at hname
    exact absurd hname (m.frames.not_holds_of_le hi _)

/-- Which frame is current does not matter. -/
theorem of_current (h : Ordered W ds plan m) {i : Nat} :
    Ordered W ds plan { m with current := i } :=
  h.of_tables rfl rfl rfl h.distances

/-- What has been written does not matter. -/
theorem of_output (h : Ordered W ds plan m) {output : String} :
    Ordered W ds plan { m with output := output } :=
  h.of_tables rfl rfl rfl h.distances

/-- Which distances are recorded does not matter. -/
theorem of_distances (h : Ordered W ds plan m) (ds' : Distances) :
    Ordered W ds' plan { m with distances := ds' } :=
  h.of_tables rfl rfl rfl rfl

end Ordered

/-- More visits and moments keep a machine in order. -/
theorem Ordered.of_seen (h : Ordered W ds plan m) {W' : World}
    (hseen : ∀ v, W.seen v → W'.seen v) (hcomes : ∀ node m, W.comes node m → W'.comes node m) :
    Ordered W' ds plan m := by
  have hplaced (v : Value) (hv : v.Placed W m.frames plan) : v.Placed W' m.frames plan := by
    cases v with
    | function f =>
      obtain ⟨σ, hf, hlies⟩ := hv
      exact ⟨σ, hseen _ hf, hlies⟩
    | cls c => exact hv
    | _ => trivial
  have hdeclares {methods : List FunctionDecl} {c i k : Nat} (hd : W.Declares methods c i k) :
      W'.Declares methods c i k := by
    obtain ⟨name, s, m₀, hm₀, hrest⟩ := hd
    exact ⟨name, s, m₀, hcomes _ _ hm₀, hrest⟩
  refine ⟨h.global, h.root, h.held, fun i name v hv => hplaced v (h.slots i name v hv),
    fun i name v hv => hplaced v (h.fields i name v hv), fun c name f hf => ?_, h.distances,
    h.classes, h.descends, h.receivers, fun i hi => ?_, fun c name f hf => ?_⟩
  · obtain ⟨σ, outer, closed, hσ, hrest⟩ := h.methods c name f hf
    exact ⟨σ, outer, closed, hseen _ hσ, hrest⟩
  · obtain ⟨hne, c, hc, hbinds, methods, k, hd⟩ := h.supers i hi
    exact ⟨hne, c, hc, hbinds, methods, k, hdeclares hd⟩
  · have hoffers := h.offers c name f hf
    generalize m.superclass? c = superclass at hoffers
    cases superclass with
    | none => exact hoffers
    | some c =>
      obtain ⟨hbinds, methods, hmem, hd⟩ := hoffers
      exact ⟨hbinds, methods, hmem, hdeclares hd⟩

namespace Ordered

/-- A machine stays in order with later frames in which what is new is in order. -/
theorem of_extends (h : Ordered W ds plan m) {fs : Frames} (he : Extends m.frames plan fs plan')
    (hclasses : plan'.classes = plan.classes)
    (hheld : ∀ i, i ≠ globalFrame → ∀ name, fs.holds i name →
      m.frames.holds i name ∨ (plan'.role i).final.declares name)
    (hslots : ∀ i name v, fs.slot? i name = some (some v) →
      m.frames.slot? i name = some (some v) ∨ v.Placed W fs plan')
    (hreceivers : ∀ i, m.frames.size ≤ i → fs.holds i "this" →
      Machine.HostsReceiver { m with frames := fs } plan' i)
    (hsupers : ∀ i, m.frames.size ≤ i → fs.holds i "super" →
      Machine.HostsSuperclass W { m with frames := fs } i) :
    Ordered W ds plan' { m with frames := fs } := by
  refine h.later he (.of_eq rfl rfl) h.distances (hclasses.trans h.classes)
    ⟨h.descends.superclass, h.descends.classOf⟩ hheld hslots (fun _ _ _ => .inl)
    (fun c name f hc hf => ?_) hreceivers hsupers
  have hlt := Machine.lt_size_of_ownMethod? hf
  exact absurd hlt (Nat.not_lt.mpr hc)

theorem write (h : Ordered W ds plan m) {i : Nat} {name : String} {slot : Option Value}
    (hi : i < m.frames.size) (hunsealed : ¬ m.frames.Sealed i)
    (hname : name ≠ "this" ∧ name ≠ "super")
    (hdeclares : i ≠ globalFrame → (plan.role i).final.declares name)
    (hslot : ∀ v, slot = some v → v.Placed W (m.frames.write i name slot) plan) :
    Ordered W ds plan { m with frames := m.frames.write i name slot } := by
  have hnone (j : Nat) (other : String) (hj : m.frames.size ≤ j) :
      ¬ (m.frames.write i name slot).holds j other :=
    Frames.not_holds_of_le _ (by rwa [Frames.size_write]) other
  refine h.of_extends (.write m.frames plan hi hunsealed hname slot) rfl
    (fun j hj other hother => ?_) (fun j other v hv => ?_)
    (fun j hj hother => absurd hother (hnone j _ hj)) fun j hj hother => absurd hother (hnone j _ hj)
  · rcases (m.frames.holds_write hi j name other slot).mp hother with ⟨rfl, rfl⟩ | hother
    · exact .inr (hdeclares hj)
    · exact .inl hother
  · rw [m.frames.slot?_write hi] at hv
    split at hv
    · exact .inr (hslot v (Option.some.inj hv))
    · exact .inl hv

theorem add (h : Ordered W ds plan m) (enclosing : Nat) (final : Scope) (ids : List Nat) :
    Ordered W ds (plan.add m.frames final ids)
      { m with frames := m.frames.add (some enclosing) } := by
  have hold {i : Nat} {name : String} (hname : (m.frames.add (some enclosing)).holds i name) :
      m.frames.holds i name := by
    rw [Frames.holds, m.frames.slot?_add] at hname
    split at hname
    · cases hname
    · exact hname
  have hnone {i : Nat} {name : String} (hi : m.frames.size ≤ i) :
      ¬ (m.frames.add (some enclosing)).holds i name := fun hname =>
    m.frames.not_holds_of_le hi name (hold hname)
  refine h.of_extends (.add m.frames plan _ final ids) rfl (fun i _ name hname => .inl (hold hname))
    (fun i name v hv => .inl ?_) (fun i hi hname => absurd hname (hnone hi))
    fun i hi hname => absurd hname (hnone hi)
  rw [m.frames.slot?_add] at hv
  split at hv
  · cases hv
  · exact hv

/-- A machine stays in order with a new frame that hosts what it binds. -/
theorem addBinding (h : Ordered W ds plan m) {enclosing : Nat} {name : String} {v : Value}
    {ids : List Nat} (hv : v.Placed W m.frames plan)
    (hthis : name = "this" → Machine.HostsReceiver
      { m with frames := m.frames.addBinding enclosing name v }
      (plan.add m.frames [(name, true)] ids) m.frames.size)
    (hsuper : name = "super" → Machine.HostsSuperclass W
      { m with frames := m.frames.addBinding enclosing name v } m.frames.size) :
    Ordered W ds (plan.add m.frames [(name, true)] ids)
      { m with frames := m.frames.addBinding enclosing name v } := by
  have he := Extends.addBinding m.frames plan enclosing name v [(name, true)] ids
  have hbinds := m.frames.bindsOnly_addBinding enclosing name v
  have hnew {i : Nat} {other : String} (hi : m.frames.size ≤ i)
      (hother : (m.frames.addBinding enclosing name v).holds i other) :
      i = m.frames.size ∧ name = other := by
    have hlt := Frames.lt_size_of_holds hother
    rw [Frames.size_addBinding] at hlt
    obtain rfl : i = m.frames.size := by omega
    exact ⟨rfl, (hbinds.holds_iff.mp hother).symm⟩
  refine h.of_extends he rfl (fun i _ other hother => ?_) (fun i other w hw => ?_)
    (fun i hi hother => ?_) fun i hi hother => ?_
  · rcases Nat.lt_or_ge i m.frames.size with hi | hi
    · rw [Frames.holds, Frames.slot?_addBinding, if_neg (Nat.ne_of_lt hi)] at hother
      exact .inl hother
    · obtain ⟨rfl, rfl⟩ := hnew hi hother
      rw [Plan.role_add]
      exact .inr (by simp [Scope.declares])
  · rw [Frames.slot?_addBinding] at hw
    split at hw
    · split at hw
      · cases hw
        exact .inr (hv.extends he)
      · cases hw
    · exact .inl hw
  · obtain ⟨rfl, rfl⟩ := hnew hi hother
    exact hthis rfl
  · obtain ⟨rfl, rfl⟩ := hnew hi hother
    exact hsuper rfl

/-- A machine stays in order with a new class that was made after its superclass. -/
theorem addClass (h : Ordered W ds plan m) {info : ClassInfo}
    (hsuper : ∀ c, info.superclass = some c → c < m.classes.size)
    (hmethods : ∀ name f, info.methods.get? name = some f → f.Bindable W m.frames plan ∧
      m.frames.Offers W info.superclass m.classes.size f) :
    Ordered W ds plan.addClass { m with classes := m.classes.push info } := by
  have he := Extends.addClass m.frames plan
  have hnew {c : Nat} (hc : m.classes.size ≤ c) (hlt : c < (m.classes.push info).size) :
      c = m.classes.size := by
    rw [Array.size_push] at hlt
    omega
  have hclass : (m.classes.push info)[m.classes.size]? = some info := by simp
  refine h.later he (.addClass m info) h.distances ?_ ⟨fun k c hc => ?_, fun o c hc => ?_⟩
    (fun _ _ _ => .inl) (fun _ _ _ => .inl) (fun _ _ _ => .inl) (fun c name f hc hf => ?_)
    (fun i hi hname => absurd hname (m.frames.not_holds_of_le hi _))
    fun i hi hname => absurd hname (m.frames.not_holds_of_le hi _)
  · rw [Array.size_push]
    exact congrArg (· + 1) h.classes
  · rcases Nat.lt_or_ge k m.classes.size with hk | hk
    · rw [(Machine.Keeps.addClass m info).superclass k hk] at hc
      exact h.descends.superclass k c hc
    · obtain rfl := hnew hk (Machine.lt_size_of_superclass? hc)
      refine hsuper c ?_
      simpa [Machine.superclass?] using hc
  · rw [Array.size_push]
    exact Nat.lt_succ_of_lt (h.descends.classOf o c hc)
  · obtain rfl := hnew hc (Machine.lt_size_of_ownMethod? hf)
    have hmethod : info.methods.get? name = some f := by
      simpa [Machine.ownMethod?, hclass] using hf
    have hsuperclass : Machine.superclass? { m with classes := m.classes.push info } m.classes.size =
        info.superclass := by
      simp [Machine.superclass?]
    rw [hsuperclass]
    exact ⟨(hmethods name f hmethod).1.extends he, (hmethods name f hmethod).2⟩

/-- A machine stays in order with a new object of a class that was made. -/
theorem addObject (h : Ordered W ds plan m) {c : Nat} (hc : c < m.classes.size) :
    Ordered W ds plan { m with objects := m.objects.push ⟨c, []⟩ } := by
  refine h.later (.refl _ _) (.addObject m _) h.distances h.classes
    ⟨h.descends.superclass, fun o c' hc' => ?_⟩ (fun _ _ _ => .inl) (fun _ _ _ => .inl)
    (fun i name v hv => .inl ?_)
    (fun c name f hc hf => absurd (Machine.lt_size_of_ownMethod? hf) (Nat.not_lt.mpr hc))
    (fun i hi hname => absurd hname (m.frames.not_holds_of_le hi _))
    fun i hi hname => absurd hname (m.frames.not_holds_of_le hi _)
  · simp only [Machine.classOf?, Array.getElem?_push] at hc'
    split at hc'
    · cases hc'
      exact hc
    · exact h.descends.classOf o c' hc'
  · simp only [Machine.field?, Array.getElem?_push] at hv
    split at hv
    · cases hv
    · exact hv

/-- A machine stays in order with a field that is placed. -/
theorem setField (h : Ordered W ds plan m) {i : Nat} {name : String} {v : Value}
    (hv : v.Placed W m.frames plan) :
    Ordered W ds plan { m with
      objects := m.objects.modify i fun o => { o with fields := o.fields.insert name v } } := by
  refine h.later (.refl _ _) (.setField m i name v) h.distances h.classes
    ⟨h.descends.superclass, fun o c hc => ?_⟩ (fun _ _ _ => .inl) (fun _ _ _ => .inl)
    (fun j other w hw => ?_)
    (fun c name f hc hf => absurd (Machine.lt_size_of_ownMethod? hf) (Nat.not_lt.mpr hc))
    (fun i hi hname => absurd hname (m.frames.not_holds_of_le hi _))
    fun i hi hname => absurd hname (m.frames.not_holds_of_le hi _)
  · rw [Machine.classOf?, Array.getElem?_modify] at hc
    split at hc
    · rw [Option.map_map] at hc
      exact h.descends.classOf o c hc
    · exact h.descends.classOf o c hc
  · simp only [Machine.field?, Array.getElem?_modify] at hw
    split at hw
    · next heq =>
      subst heq
      rw [Option.bind_map, Option.bind_eq_some_iff] at hw
      obtain ⟨o, ho, hw⟩ := hw
      simp only [Function.comp_apply, Bindings.get?_insert] at hw
      split at hw
      · cases hw
        exact .inr hv
      · exact .inl (by rw [Machine.field?, ho]; exact hw)
    · exact .inl hw

/-- Just inside of a frame that binds `super`, `this` is an object, and it has a method of the class
that was declared with that superclass. -/
theorem inherits (h : Ordered W ds plan m) {i j : Nat} (hthis : m.frames.holds i "this")
    (henclosing : m.frames.enclosing? i = some j) (hsuper : m.frames.holds j "super") :
    ∃ o f k p, m.Inherits o f k p ∧ f.frame = j ∧ m.frames.BindsOnly i "this" (.object o) ∧
      m.frames.BindsOnly j "super" (.cls p) ∧ (plan.role i).ids ⊆ f.decl.ids ∧
      ∃ methods, f.decl ∈ methods ∧ W.Declares methods p j k := by
  obtain ⟨receiver, f, hbinds, hreceives, henclosing', hids⟩ := h.receivers i hthis
  obtain ⟨o, c, k, name, rfl, hc, hk, hf⟩ := hreceives
  obtain rfl : j = f.frame := Option.some.inj (henclosing.symm.trans henclosing')
  have hoffers := h.offers k name f hf
  cases hs : m.superclass? k with
  | none =>
    rw [hs] at hoffers
    exact absurd hsuper hoffers
  | some p =>
    rw [hs] at hoffers
    exact ⟨o, f, k, p, ⟨⟨c, hc, hk⟩, ⟨name, hf⟩, hs⟩, rfl, hbinds, hoffers.1, hids, hoffers.2⟩

/-- What is found for `super` at a distance has methods that suit what is found for `this` one step
further inward. -/
theorem receives_of_getAt (h : Ordered W ds plan m) {distance c : Nat} {receiver : Value}
    (hsuper : m.frames.getAt m.current distance "super" = .ok (.cls c))
    (hthis : m.frames.getAt m.current (distance - 1) "this" = .ok receiver) {name : String}
    {g : Closure} (hg : m.findMethod? c name = some g) : m.Receives receiver g := by
  have hsuper := Frames.slot?_of_getAt hsuper
  have hthis := Frames.slot?_of_getAt hthis
  have hholds := Frames.holds_of_slot? hthis
  obtain ⟨receiver', f, hbinds, -, henclosing, -⟩ := h.receivers _ hholds
  cases distance with
  | zero => exact absurd (hbinds.holds_iff.mp (Frames.holds_of_slot? hsuper)) (by decide)
  | succ inward =>
    rw [Nat.add_sub_cancel] at hthis hholds hbinds henclosing
    rw [Frames.ancestor_succ, henclosing, Option.getD_some] at hsuper
    obtain ⟨o, f', k, p, hinherits, hframe, hthis', hsuper', -⟩ :=
      h.inherits hholds henclosing (Frames.holds_of_slot? hsuper)
    obtain rfl : receiver = .object o := by simpa [hthis] using hthis'.slot?_eq
    obtain rfl : c = p := by simpa [hsuper] using hsuper'.slot?_eq
    exact hinherits.receives h.descends hg

/-- The global frame is not sealed. -/
theorem not_sealed_global (h : Ordered W ds plan m) : ¬ m.frames.Sealed globalFrame := by
  rintro (hthis | hsuper)
  · obtain ⟨receiver, f, -, -, henclosing, -⟩ := h.receivers _ hthis
    rw [h.root] at henclosing
    cases henclosing
  · exact (h.supers _ hsuper).1 rfl

/-- A frame that holds a name that is not reserved is not sealed. -/
theorem not_sealed_of_holds (h : Ordered W ds plan m) {i : Nat} {name : String}
    (hholds : m.frames.holds i name) (hname : name ≠ "this" ∧ name ≠ "super") :
    ¬ m.frames.Sealed i := by
  rintro (hthis | hsuper)
  · obtain ⟨receiver, f, hbinds, -⟩ := h.receivers _ hthis
    exact hname.1 (hbinds.holds_iff.mp hholds)
  · obtain ⟨-, c, -, hbinds, -⟩ := h.supers _ hsuper
    exact hname.2 (hbinds.holds_iff.mp hholds)

end Ordered

end Ordered

namespace Follows

variable {W : World} {ds : Distances} {grows grows' : Nat → Prop} {plan plan' plan'' : Plan}
  {m m' m'' : Machine}

theorem refl (h : Ordered W ds plan m) : Follows W ds grows plan m plan m :=
  ⟨h, .refl _ _, fun _ _ _ _ => id, rfl⟩

theorem trans (h : Follows W ds grows plan m plan' m')
    (h' : Follows W ds grows' plan' m' plan'' m'')
    (hgrows : ∀ i < m.frames.size, grows' i → grows i) :
    Follows W ds grows plan m plan'' m'' where
  ordered := h'.ordered
  extend := h.extend.trans h'.extend
  same i hi hi' name hname :=
    h.same i hi hi' name (h'.same i (Nat.lt_of_lt_of_le hi h.extend.size)
      (fun hg => hi' (hgrows i hi hg)) name hname)
  current := h'.current.trans h.current

theorem mono (h : Follows W ds grows plan m plan' m') (hgrows : ∀ i, grows i → grows' i) :
    Follows W ds grows' plan m plan' m' :=
  ⟨h.ordered, h.extend, fun i hi hi' => h.same i hi fun hg => hi' (hgrows i hg), h.current⟩

/-- The machine goes on standing where it stood while its current frame gets no new names. -/
theorem stands {ids : List Nat} {scopes closed : Scopes} (h : Follows W ds grows plan m plan' m')
    (hstands : Stands plan m ids scopes closed) (hglobal : globalFrame < m.frames.size)
    (hcurrent : ¬ grows m.current) : Stands plan' m' ids scopes closed := by
  have hsame := h.same _ (hstands.lies.lt_size hglobal) hcurrent
  refine ⟨?_, fun scope outer heq name hname => ?_, fun hsealed => ?_⟩
  · rw [h.current]
    exact hstands.lies.extends h.extend
  · rw [h.current] at hname
    exact hstands.tight scope outer heq name (hsame name hname)
  · rw [h.current] at hsealed
    exact hstands.unsealed (hsealed.of_holds fun name hname => .inl (hsame name hname))

end Follows

end Treewalk
