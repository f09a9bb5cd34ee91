import Treewalk.Evaluation
import Treewalk.Proofs.Run.Tracking

/-!
# Steps of a run

What an expression, a statement or a call does with its parts keeps a machine in order if the parts
do, and leaves the machine at the site after it. This is said for evaluators of the parts of which
one tracks the other, so that probes can be added to the parts.

## Main definitions

* `Guides`: how a running program comes from one visit to the next.
* `World.Inside`: visits of nodes with certain numbers.
* `EvaluatorsTrack`: evaluators that track others at all visits.

## Main results

* `EvaluatorsTrack.evaluateStep`, `EvaluatorsTrack.executeStep`, `EvaluatorsTrack.invokeStep`: one
  step of expressions, statements and calls.
-/

namespace Treewalk

/-- The visits that a running program can come to: with a node it comes to the parts of the node,
and to a superclass before the name of the class is introduced. -/
structure Guides (Seen : Visit → Prop) : Prop where
  part : ∀ {v w : Visit}, Seen v → w ∈ v.parts → Seen w
  superclass : ∀ {name : Name} {s : Superclass} {methods : List FunctionDecl} {σ : Site},
    Seen ⟨.stmt (.class name (some s) methods), σ⟩ → Seen ⟨.expr s.expr, σ⟩
  fits : ∀ {v : Visit}, Seen v → v.Fits

/-- A visit that a running program can come to, of a node whose numbers are among certain ones. -/
def World.Inside (W : World) (ids : List Nat) (v : Visit) : Prop :=
  W.seen v ∧ v.ids ⊆ ids

theorem Visit.ids_subset_of_mem_parts {v w : Visit} (hw : w ∈ v.parts) : w.ids ⊆ v.ids :=
  (Visit.Within.part hw (.self w)).ids_subset

theorem Guides.inside {W : World} (h : Guides W.seen) (ids : List Nat) :
    Guides (W.Inside ids) where
  part := fun ⟨hseen, hids⟩ hw =>
    ⟨h.part hseen hw, List.Subset.trans (Visit.ids_subset_of_mem_parts hw) hids⟩
  superclass := fun ⟨hseen, hids⟩ =>
    ⟨h.superclass hseen, List.Subset.trans (List.subset_append_left _ _) hids⟩
  fits := fun ⟨hseen, _⟩ => h.fits hseen

/-- How a statement leaves the machine: at the site after it, or with a placed value. -/
def Flow.Settles (W : World) (ids : List Nat) (scopes closed : Scopes) :
    Flow → Plan → Machine → Prop
  | .normal, plan, m => Stands plan m ids scopes closed
  | .returned v, plan, m => v.Placed W m.frames plan

/-- Calls of functions that track others. -/
def InvokeTracks (W : World) (ds : Distances) (last : Frames)
    (invoke' invoke : Closure → List Value → Run Value) : Prop :=
  ∀ {f : Closure} {arguments : List Value} {plan : Plan} {m : Machine},
    Ordered W ds plan m → f.Placed W m.frames plan →
    (∀ v ∈ arguments, v.Placed W m.frames plan) → f.decl.arity = arguments.length →
    Tracks W ds last (fun _ => False) (invoke' f arguments) (invoke f arguments) plan m
      fun v plan' m' => v.Placed W m'.frames plan'

theorem Flow.Settles.placed_value {W : World} {ids : List Nat} {scopes closed : Scopes}
    {flow : Flow} {plan : Plan} {m : Machine} (h : flow.Settles W ids scopes closed plan m) :
    flow.value.Placed W m.frames plan := by
  cases flow with
  | normal => trivial
  | returned v => exact h

/-- Evaluators that track others at all visits. Expressions and calls add no name to any frame of
before, and statements only to the current one. A variable is only read. -/
structure EvaluatorsTrack (W : World) (ds : Distances) (last : Frames)
    (parts' parts : Evaluators) : Prop where
  evaluate : ∀ {e : Expr} {σ : Site} {ids : List Nat} {plan : Plan} {m : Machine},
    Ordered W ds plan m → W.Inside ids ⟨.expr e, σ⟩ → Stands plan m ids σ.scopes σ.closed →
    Tracks W ds last (fun _ => False) (parts'.evaluate e) (parts.evaluate e) plan m
      fun v plan' m' => v.Placed W m'.frames plan'
  execute : ∀ {s : Stmt} {σ : Site} {ids : List Nat} {plan : Plan} {m : Machine},
    Ordered W ds plan m → W.Inside ids ⟨.stmt s, σ⟩ → Stands plan m ids σ.scopes σ.closed →
    Tracks W ds last (· = m.current) (parts'.execute s) (parts.execute s) plan m
      (Flow.Settles W ids (s.after σ.scopes) σ.closed)
  invoke : InvokeTracks W ds last parts'.invoke parts.invoke
  reads : ∀ {id : Nat} {name : Name} {σ : Site} {ids : List Nat} {plan : Plan} {m : Machine},
    Ordered W ds plan m → W.Inside ids ⟨.expr (.variable id name), σ⟩ →
    Stands plan m ids σ.scopes σ.closed →
    Tracks W ds last (fun _ => False) (parts'.evaluate (.variable id name))
      (parts.evaluate (.variable id name)) plan m
      fun v plan' m' => plan' = plan ∧ m' = m ∧ v.Placed W m.frames plan ∧
        m.frames.readIn (m.holderOf .resolved id name.text) name.text = .ok v

/-! ### Sites -/

section Stands

variable {W : World} {ds : Distances} {last : Frames} {plan : Plan} {m : Machine} {ids : List Nat}
  {scopes closed : Scopes}

/-- Only the ready names of the innermost scope matter. -/
theorem Stands.of_isReady {scope inner : Scope} {outer : Scopes}
    (h : Stands plan m ids (scope :: outer) closed)
    (hready : ∀ name, inner.isReady name ↔ scope.isReady name) :
    Stands plan m ids (inner :: outer) closed where
  lies := by
    obtain ⟨j, rest, rfl, hlt, hsize, henclosing, hheld, hids, houter⟩ := h.lies.innermost
    exact .frame hlt hsize henclosing (fun name hname => hheld name ((hready name).mp hname)) rfl
      hids houter
  tight := by
    rintro _ _ ⟨⟩ name hname
    exact (hready name).mpr (h.tight scope outer rfl name hname)
  unsealed := h.unsealed

/-- A name that is declared but not ready changes nothing. -/
theorem Stands.declare (h : Stands plan m ids scopes closed) (name : Name) :
    Stands plan m ids (scopes.declare name) closed := by
  cases scopes with
  | nil => exact h
  | cons scope outer =>
    rw [Scopes.declare_cons]
    split
    · exact h
    · next hnot =>
      refine h.of_isReady fun other => Scope.isReady_enter_false fun hready => ?_
      exact hnot (Scope.declares_of_isReady hready)

/-- A name that is introduced is declared when the walk leaves the innermost scope. -/
theorem Stands.declares (h : Stands plan m ids scopes closed) {name : Name}
    (hcovers : closed.innermost.Covers (scopes.introduce name).innermost) :
    m.current ≠ globalFrame → (plan.role m.current).final.declares name.text := by
  intro hne
  cases scopes with
  | nil => exact absurd h.lies.eq_global.1 hne
  | cons scope outer =>
    obtain ⟨j, rest, rfl, -⟩ := h.lies.innermost
    obtain ⟨inner, heq, hdeclares, -⟩ := Scopes.introduce_cons scope outer name
    rw [heq] at hcovers
    exact hcovers name.text ((hdeclares name.text).mpr (.inl rfl))

/-- After a name is written, the machine stands where the name is introduced. -/
theorem Stands.write (h : Stands plan m ids scopes closed) (hcurrent : m.current < m.frames.size)
    {name : Name} (hfree : name.IsFree) (slot : Option Value) :
    Stands plan { m with frames := m.frames.write m.current name.text slot } ids
      (scopes.introduce name) closed := by
  have hholds := m.frames.holds_write hcurrent m.current name.text
  have he := Extends.write m.frames plan hcurrent h.unsealed hfree.unreserved slot
  have hunsealed : ¬ (m.frames.write m.current name.text slot).Sealed m.current := fun hsealed =>
    h.unsealed (hsealed.of_holds fun other hother => by
      rcases (hholds other slot).mp hother with ⟨-, rfl⟩ | hother
      · exact .inr hfree.unreserved
      · exact .inl hother)
  cases scopes with
  | nil => exact ⟨h.lies.extends he, (fun _ _ heq => nomatch heq), hunsealed⟩
  | cons scope outer =>
    obtain ⟨inner, heq, -, hready⟩ := Scopes.introduce_cons scope outer name
    rw [heq]
    refine ⟨?_, ?_, hunsealed⟩
    · obtain ⟨j, rest, rfl, hlt, hsize, henclosing, hheld, hids, houter⟩ := h.lies.innermost
      refine .frame hlt ?_ ?_ (fun other hother => ?_) rfl hids (houter.extends he)
      · rwa [Frames.size_write]
      · rwa [Frames.enclosing?_write]
      · refine (hholds other slot).mpr ?_
        rcases (hready other).mp hother with rfl | hother
        · exact .inl ⟨rfl, rfl⟩
        · exact .inr (hheld other hother)
    · rintro _ _ ⟨⟩ other hother
      refine (hready other).mpr ?_
      rcases (hholds other slot).mp hother with ⟨-, rfl⟩ | hother
      · exact .inl rfl
      · exact .inr (h.tight scope outer rfl other hother)

/-- The machine stands in a scope whose ready names are those that a frame inside holds. -/
theorem Stands.enter {i j : Nat} {scope final : Scope} {outer : Scopes}
    (houter : Lies m.frames plan ids j outer closed) (hlt : j < i) (hi : i < m.frames.size)
    (henclosing : m.frames.enclosing? i = some j) (hrole : plan.role i = ⟨final, ids⟩)
    (hready : ∀ name, scope.isReady name ↔ m.frames.holds i name)
    (hnames : ∀ name, scope.isReady name → name ≠ "this" ∧ name ≠ "super") :
    Stands plan { m with current := i } ids (scope :: outer) (final :: closed) where
  lies := by
    refine .frame hlt hi henclosing (fun name => (hready name).mp) (by rw [hrole]) ?_ houter
    rw [hrole]
    exact List.Subset.refl _
  tight := by
    rintro _ _ ⟨⟩ name hname
    exact (hready name).mpr hname
  unsealed := by
    rintro (hthis | hsuper)
    · exact (hnames _ ((hready _).mpr hthis)).1 rfl
    · exact (hnames _ ((hready _).mpr hsuper)).2 rfl

/-- Writing a name into the current frame introduces it. -/
theorem Tracks.introduce (ho : Ordered W ds plan m) (h : Stands plan m ids scopes closed)
    {name : Name} {slot : Option Value} (hfree : name.IsFree)
    (hcovers : closed.innermost.Covers (scopes.introduce name).innermost)
    (hslot : ∀ v, slot = some v →
      v.Placed W (m.frames.write m.current name.text slot) plan) :
    Tracks W ds last (· = m.current) (Run.writeSlot m.current name.text slot)
      (Run.writeSlot m.current name.text slot) plan m
      fun _ plan' m' => Stands plan' m' ids (scopes.introduce name) closed ∧
        m'.frames.size = m.frames.size ∧ m'.classes = m.classes := by
  have hcurrent := h.lies.lt_size ho.global
  have hwrite : Tracks W ds last (· = m.current) (Run.writeSlot m.current name.text slot)
      (Run.writeSlot m.current name.text slot) plan m fun _ plan' m' => plan' = plan ∧
        m' = { m with frames := m.frames.write m.current name.text slot } :=
    Tracks.writeSlot ho hcurrent h.unsealed hfree.unreserved (h.declares hcovers) hslot (.inl rfl)
  refine hwrite.mono ?_
  rintro _ _ _ - ⟨rfl, rfl⟩
  exact ⟨h.write hcurrent hfree slot, Frames.size_write .., rfl⟩

theorem Tracks.define (ho : Ordered W ds plan m) (h : Stands plan m ids scopes closed) {name : Name}
    {v : Value} (hfree : name.IsFree)
    (hcovers : closed.innermost.Covers (scopes.introduce name).innermost)
    (hv : v.Placed W (m.frames.write m.current name.text (some v)) plan) :
    Tracks W ds last (· = m.current) (Run.define name.text v) (Run.define name.text v) plan m
      fun _ plan' m' => Stands plan' m' ids (scopes.introduce name) closed ∧
        m'.frames.size = m.frames.size ∧ m'.classes = m.classes := by
  refine (Tracks.introduce ho h hfree hcovers fun w hw => ?_).of_eq rfl rfl
  cases hw
  exact hv

theorem Tracks.declare (ho : Ordered W ds plan m) (h : Stands plan m ids scopes closed)
    {name : Name} (hfree : name.IsFree)
    (hcovers : closed.innermost.Covers (scopes.introduce name).innermost) :
    Tracks W ds last (· = m.current) (Run.declare name.text) (Run.declare name.text) plan m
      fun _ plan' m' => Stands plan' m' ids (scopes.introduce name) closed := by
  have hslot : ∀ v, (none : Option Value) = some v →
      v.Placed W (m.frames.write m.current name.text none) plan := fun _ hw => nomatch hw
  exact ((Tracks.introduce ho h hfree hcovers hslot).mono fun _ _ _ _ hq => hq.1).of_eq rfl rfl

end Stands

/-! ### Values of operators -/

/-- A value that refers to nothing in the tables of the machine. -/
def Value.IsPlain : Value → Prop
  | .nil | .bool _ | .number _ | .string _ => True
  | .native _ | .function _ | .cls _ | .object _ => False

theorem UnaryOp.isPlain_apply {op : UnaryOp} {v w : Value} (h : op.apply v = .ok w) :
    w.IsPlain := by
  unfold apply at h
  split at h <;> cases h <;> trivial

theorem BinaryOp.isPlain_apply {text : Value → String} {op : BinaryOp} {v w u : Value}
    (h : op.apply text v w = .ok u) : u.IsPlain := by
  unfold apply at h
  split at h
  · cases h
    trivial
  · cases h
    trivial
  · unfold applyNumbers at h
    split at h
    all_goals first
      | (cases h; trivial)
      | (split at h <;> cases h; trivial)
  all_goals cases h <;> trivial

theorem Literal.isPlain_value (l : Literal) : l.value.IsPlain := by
  cases l <;> trivial

theorem Value.IsPlain.placed {W : World} {fs : Frames} {plan : Plan} {v : Value} (h : v.IsPlain) :
    v.Placed W fs plan := by
  cases v with
  | function f => exact absurd h id
  | cls c => exact absurd h id
  | _ => trivial

/-! ### Calls -/

section Calls

variable {W : World} {ds : Distances} {last : Frames} {plan : Plan} {m : Machine}
  {invoke' invoke : Closure → List Value → Run Value} {callee : Value} {arguments : List Value}

theorem Machine.findMethod?_congr {m' : Machine} (h : m'.classes = m.classes) (c : Nat)
    (name : String) : m'.findMethod? c name = m.findMethod? c name := by
  have hsuper : m'.superclass? = m.superclass? := by
    funext c
    rw [superclass?, superclass?, h]
  have hlineage : ∀ bound c, m'.lineageFrom bound c = m.lineageFrom bound c := by
    intro bound
    induction bound with
    | zero => exact fun _ => rfl
    | succ bound ih =>
      intro c
      have heq : m'.lineageFrom bound = m.lineageFrom bound := funext ih
      rw [lineageFrom, lineageFrom, hsuper, heq]
  have hown : m'.ownMethod? = m.ownMethod? := by
    funext c name
    rw [ownMethod?, ownMethod?, h]
  rw [findMethod?, findMethod?, lineage, lineage, hlineage, hown, h]

/-- A class makes an object, which its initializer is called with. -/
theorem Tracks.construct (hinvoke : InvokeTracks W ds last invoke' invoke) (ho : Ordered W ds plan m)
    (hargs : ∀ v ∈ arguments, v.Placed W m.frames plan) {c line : Nat} (hc : c < m.classes.size)
    (harity : m.arity? (.cls c) = some arguments.length) :
    Tracks W ds last (fun _ => False) (callUnchecked invoke' (.cls c) arguments line)
      (callUnchecked invoke (.cls c) arguments line) plan m
      fun v plan' m' => v.Placed W m'.frames plan' := by
  refine (Tracks.newObject ho hc).bind fun i plan₁ m₁ hf₁ hq₁ => ?_
  obtain ⟨rfl, hframes, hclasses, hclassOf⟩ := hq₁
  have hobject : Value.Placed W m₁.frames plan₁ (.object i) := trivial
  have hfind := Machine.findMethod?_congr hclasses c initializerName
  refine .getBind ?_
  cases hmethod : m₁.findMethod? c initializerName with
  | none => exact .pure hf₁.ordered hobject
  | some f =>
    have hdecl : f.decl.arity = arguments.length := by
      rw [hmethod] at hfind
      rw [Machine.arity?, ← hfind] at harity
      exact Option.some.inj harity
    have hf := Tracks.bindable_of_findMethod? hf₁.ordered hmethod
    have hreceives := Machine.Receives.of_findMethod? hclassOf hmethod
    refine (Tracks.bindReceiver hf₁.ordered hf hreceives).bind fun g plan₂ m₂ hf₂ hg => ?_
    have hargs₂ : ∀ v ∈ arguments, v.Placed W m₂.frames plan₂ := fun v hv =>
      ((hargs v hv).extends hf₁.extend).extends hf₂.extend
    have harity₂ : g.decl.arity = arguments.length := by rw [hg.1, hdecl]
    refine (hinvoke hf₂.ordered hg.2 hargs₂ harity₂).bind fun _ plan₃ m₃ hf₃ _ => ?_
    exact .pure hf₃.ordered trivial

/-- A call with the right number of arguments. -/
theorem Tracks.callUnchecked (hinvoke : InvokeTracks W ds last invoke' invoke)
    (ho : Ordered W ds plan m) (hcallee : callee.Placed W m.frames plan)
    (hargs : ∀ v ∈ arguments, v.Placed W m.frames plan)
    (harity : m.arity? callee = some arguments.length) (line : Nat) :
    Tracks W ds last (fun _ => False) (callUnchecked invoke' callee arguments line)
      (callUnchecked invoke callee arguments line) plan m
      fun v plan' m' => v.Placed W m'.frames plan' := by
  cases callee with
  | native n => exact Tracks.native ho n arguments line
  | function f => exact hinvoke ho hcallee hargs (Option.some.inj harity)
  | cls c => exact Tracks.construct hinvoke ho hargs (ho.classes ▸ hcallee) harity
  | _ => exact .raise ho _ _

theorem Tracks.callWith (hinvoke : InvokeTracks W ds last invoke' invoke)
    (ho : Ordered W ds plan m) (hcallee : callee.Placed W m.frames plan)
    (hargs : ∀ v ∈ arguments, v.Placed W m.frames plan) (line : Nat) :
    Tracks W ds last (fun _ => False) (callWith invoke' callee arguments line)
      (callWith invoke callee arguments line) plan m
      fun v plan' m' => v.Placed W m'.frames plan' := by
  refine .getBind ?_
  cases harity : m.arity? callee with
  | none => exact .raise ho _ _
  | some arity =>
    refine .ite (fun heq => ?_) fun _ => .raise ho _ _
    exact .callUnchecked hinvoke ho hcallee hargs (by rw [harity, heq]) line

theorem Tracks.asSuperclass {grows : Nat → Prop} (ho : Ordered W ds plan m) (v : Value)
    (line : Nat) : Tracks W ds last grows (asSuperclass v line) (asSuperclass v line) plan m
      fun c plan' m' => plan' = plan ∧ m' = m ∧ v = .cls c := by
  cases v with
  | cls c => exact .pure ho ⟨rfl, rfl, rfl⟩
  | _ => exact .raise ho _ _

end Calls

/-! ### Expressions -/

namespace EvaluatorsTrack

variable {W : World} {ds : Distances} {last : Frames} {parts' parts : Evaluators} {plan : Plan}
  {m : Machine} {σ : Site} {ids : List Nat}

theorem evaluateAll (h : EvaluatorsTrack W ds last parts' parts) {es : List Expr}
    (hes : ∀ e ∈ es, W.Inside ids ⟨.expr e, σ⟩) (ho : Ordered W ds plan m)
    (hstands : Stands plan m ids σ.scopes σ.closed) :
    Tracks W ds last (fun _ => False) (evaluateAll parts'.evaluate es) (evaluateAll parts.evaluate es)
      plan m fun vs plan' m' => ∀ v ∈ vs, v.Placed W m'.frames plan' := by
  induction es generalizing plan m with
  | nil => exact .pure ho fun v hv => absurd hv List.not_mem_nil
  | cons e es ih =>
    obtain ⟨he, hes⟩ := List.forall_mem_cons.mp hes
    refine (h.evaluate ho he hstands).bind fun v plan₁ m₁ hf₁ hv => ?_
    have hstands₁ := hf₁.stands hstands ho.global id
    refine (ih hes hf₁.ordered hstands₁).bind fun vs plan₂ m₂ hf₂ hvs => ?_
    exact .pure hf₂.ordered (List.forall_mem_cons.mpr ⟨hv.extends hf₂.extend, hvs⟩)

/-- One step of an expression. -/
theorem evaluateStep (h : EvaluatorsTrack W ds last parts' parts) (hguides : Guides W.seen)
    {e : Expr} (ho : Ordered W ds plan m) (hseen : W.Inside ids ⟨.expr e, σ⟩)
    (hstands : Stands plan m ids σ.scopes σ.closed) :
    Tracks W ds last (fun _ => False) (evaluateStep .resolved parts' e)
      (evaluateStep .resolved parts e) plan m fun v plan' m' => v.Placed W m'.frames plan' := by
  have hpart {part : Expr} (hmem : part ∈ e.parts) : W.Inside ids ⟨.expr part, σ⟩ :=
    (hguides.inside ids).part hseen (List.mem_map_of_mem hmem)
  cases e with
  | literal l => exact .pure ho l.isPlain_value.placed
  | grouping inner => exact h.evaluate ho (hpart (by simp [Expr.parts])) hstands
  | unary op line operand =>
    refine (h.evaluate ho (hpart (by simp [Expr.parts])) hstands).bind fun v plan₁ m₁ hf₁ _ => ?_
    exact .checked hf₁.ordered line fun _ hw => (UnaryOp.isPlain_apply hw).placed
  | binary op line left right =>
    refine (h.evaluate ho (hpart (by simp [Expr.parts])) hstands).bind fun v plan₁ m₁ hf₁ _ => ?_
    have hstands₁ := hf₁.stands hstands ho.global id
    refine (h.evaluate hf₁.ordered (hpart (by simp [Expr.parts])) hstands₁).bind
      fun w plan₂ m₂ hf₂ _ => ?_
    exact .getBind (.checked hf₂.ordered line fun _ hw => (BinaryOp.isPlain_apply hw).placed)
  | logical op line left right =>
    refine (h.evaluate ho (hpart (by simp [Expr.parts])) hstands).bind fun v plan₁ m₁ hf₁ hv => ?_
    have hstands₁ := hf₁.stands hstands ho.global id
    refine .ite (fun _ => .pure hf₁.ordered hv) fun _ => ?_
    exact h.evaluate hf₁.ordered (hpart (by simp [Expr.parts])) hstands₁
  | ternary condition whenTrue whenFalse =>
    refine (h.evaluate ho (hpart (by simp [Expr.parts])) hstands).bind fun v plan₁ m₁ hf₁ _ => ?_
    have hstands₁ := hf₁.stands hstands ho.global id
    refine .ite (fun _ => ?_) fun _ => ?_
    · exact h.evaluate hf₁.ordered (hpart (by simp [Expr.parts])) hstands₁
    · exact h.evaluate hf₁.ordered (hpart (by simp [Expr.parts])) hstands₁
  | «variable» id name =>
    refine (Tracks.readVariable ho .resolved id name).mono ?_
    rintro v _ _ - ⟨rfl, rfl, hv, -⟩
    exact hv
  | assign id name value =>
    refine (h.evaluate ho (hpart (by simp [Expr.parts])) hstands).bind fun v plan₁ m₁ hf₁ hv => ?_
    have hfree : name.IsFree := (hguides.fits hseen.1).of_expr.1
    refine (Tracks.assignVariable hf₁.ordered .resolved id hfree hv).bind
      fun _ plan₂ m₂ hf₂ _ => ?_
    exact .pure hf₂.ordered (hv.extends hf₂.extend)
  | call callee line arguments =>
    refine (h.evaluate ho (hpart (by simp [Expr.parts])) hstands).bind fun f plan₁ m₁ hf₁ hf => ?_
    have hstands₁ := hf₁.stands hstands ho.global id
    have harguments : ∀ a ∈ arguments, W.Inside ids ⟨.expr a, σ⟩ := fun a ha =>
      hpart (List.mem_cons_of_mem _ ha)
    refine (h.evaluateAll harguments hf₁.ordered hstands₁).bind fun vs plan₂ m₂ hf₂ hvs => ?_
    exact .callWith h.invoke hf₂.ordered (hf.extends hf₂.extend) hvs line
  | get object name =>
    refine (h.evaluate ho (hpart (by simp [Expr.parts])) hstands).bind fun v plan₁ m₁ hf₁ _ => ?_
    refine (Tracks.asObject hf₁.ordered v "properties" name.line).bind
      fun i plan₂ m₂ hf₂ _ => ?_
    exact .property hf₂.ordered i name
  | set object name value =>
    refine (h.evaluate ho (hpart (by simp [Expr.parts])) hstands).bind fun v plan₁ m₁ hf₁ _ => ?_
    have hstands₁ := hf₁.stands hstands ho.global id
    refine (Tracks.asObject hf₁.ordered v "fields" name.line).bind fun i plan₂ m₂ hf₂ hq₂ => ?_
    obtain ⟨rfl, rfl⟩ := hq₂
    refine (h.evaluate hf₂.ordered (hpart (by simp [Expr.parts])) hstands₁).bind
      fun w plan₃ m₃ hf₃ hw => ?_
    refine (Tracks.setField hf₃.ordered i name.text hw).bind fun _ plan₄ m₄ hf₄ _ => ?_
    exact .pure hf₄.ordered (hw.extends hf₄.extend)
  | this id line =>
    refine (Tracks.readVariable ho .resolved id ⟨"this", line⟩).mono ?_
    rintro v _ _ - ⟨rfl, rfl, hv, -⟩
    exact hv
  | super id line method => exact .superMethod ho id line method

/-! ### Statements -/

/-- Statements in order leave the machine at the site after the last one. -/
theorem executeAll (h : EvaluatorsTrack W ds last parts' parts) {ss : List Stmt}
    (hss : ∀ v ∈ σ.along ss, W.Inside ids v) (ho : Ordered W ds plan m)
    (hstands : Stands plan m ids σ.scopes σ.closed) :
    Tracks W ds last (· = m.current) (executeAll parts'.execute ss) (executeAll parts.execute ss)
      plan m (Flow.Settles W ids (Stmt.afterAll ss σ.scopes) σ.closed) := by
  induction ss generalizing σ plan m with
  | nil => exact .pure ho hstands
  | cons s ss ih =>
    obtain ⟨hs, hss⟩ := List.forall_mem_cons.mp hss
    refine (h.execute ho hs hstands).bind fun flow plan₁ m₁ hf₁ hflow => ?_
    cases flow with
    | returned v => exact .pure hf₁.ordered hflow
    | normal =>
      rw [← hf₁.current]
      exact ih hss hf₁.ordered hflow

/-- Statements that are executed in a frame made for them add names to no other frame of before, and a
value with which they end is placed. -/
theorem executeInside (h : EvaluatorsTrack W ds last parts' parts) {ss : List Stmt} {i : Nat}
    (hss : ∀ v ∈ σ.along ss, W.Inside ids v) (ho : Ordered W ds plan m)
    (hstands : Stands plan { m with current := i } ids σ.scopes σ.closed) :
    Tracks W ds last (· = i) (Run.within i (Treewalk.executeAll parts'.execute ss))
      (Run.within i (Treewalk.executeAll parts.execute ss)) plan m
      fun flow plan' m' => flow.value.Placed W m'.frames plan' :=
  .within (h.executeAll hss ho.of_current hstands) fun _ _ _ hflow => hflow.placed_value

/-- The statements of a block are executed in a frame that lies inside of the current one. -/
theorem executeBlock (h : EvaluatorsTrack W ds last parts' parts) (bound : Nat) {body : List Stmt}
    (hss : ∀ v ∈ (σ.inBlock body).along body, W.Inside ids v) (ho : Ordered W ds plan m)
    (hstands : Stands plan m ids σ.scopes σ.closed) :
    Tracks W ds last (· = m.current) (executeStep parts' bound (.block body))
      (executeStep parts bound (.block body)) plan m (Flow.Settles W ids σ.scopes σ.closed) := by
  refine .currentBind ?_
  have hcurrent := hstands.lies.lt_size ho.global
  refine (Tracks.newFrame ho m.current (σ.inBlock body).closed.innermost ids).bindNew
    fun i plan₁ m₁ hf₁ hq₁ => ?_
  obtain ⟨rfl, hi, hrole, henclosing, hempty⟩ := hq₁
  have hstands₁ := hf₁.stands hstands ho.global id
  have hinside := Stands.enter (hstands.lies.extends hf₁.extend) hcurrent hi henclosing hrole
    (fun name => iff_of_false (Scope.not_isReady_nil name) (hempty name))
    fun name hname => absurd hname (Scope.not_isReady_nil name)
  refine (h.executeInside hss hf₁.ordered hinside).mono fun flow plan₂ m₂ hf₂ hvalue => ?_
  cases flow with
  | returned v => exact hvalue
  | normal =>
    refine hf₂.stands hstands₁ hf₁.ordered.global ?_
    rw [hf₁.current]
    exact Nat.ne_of_lt hcurrent

/-- A loop whose body is no declaration leaves the machine where it stands. -/
theorem loop (h : EvaluatorsTrack W ds last parts' parts) {condition : Expr} {body : Stmt}
    (hcondition : W.Inside ids ⟨.expr condition, σ⟩) (hbody : W.Inside ids ⟨.stmt body, σ⟩)
    (hafter : body.after σ.scopes = σ.scopes) (bound : Nat) (ho : Ordered W ds plan m)
    (hstands : Stands plan m ids σ.scopes σ.closed) :
    Tracks W ds last (· = m.current) (loop (parts'.evaluate condition) (parts'.execute body) bound)
      (loop (parts.evaluate condition) (parts.execute body) bound) plan m
      (Flow.Settles W ids σ.scopes σ.closed) := by
  induction bound generalizing plan m with
  | zero => exact .throw ho _
  | succ bound ih =>
    refine (h.evaluate ho hcondition hstands).bindFrom fun v plan₁ m₁ hf₁ _ => ?_
    have hstands₁ := hf₁.stands hstands ho.global id
    rw [← hf₁.current]
    refine .ite (fun _ => ?_) fun _ => .pure hf₁.ordered hstands₁
    have hexecute := h.execute hf₁.ordered hbody hstands₁
    rw [hafter] at hexecute
    refine hexecute.bind fun flow plan₂ m₂ hf₂ hflow => ?_
    cases flow with
    | returned v => exact .pure hf₂.ordered hflow
    | normal =>
      rw [← hf₂.current]
      exact ih hf₂.ordered hflow

/-- The scopes between a class and the receivers of its methods. -/
def superScopes (superclass : Option Superclass) : Scopes :=
  (Site.classScopes superclass).tail

theorem classScopes_eq (superclass : Option Superclass) :
    Site.classScopes superclass = receiverScope :: superScopes superclass := by
  cases superclass <;> rfl

/-- The frame that methods close over lies around the scope of their receivers. With a superclass it
hosts the superclass. -/
theorem methodFrame {superclass : Option Superclass} {c : Option Nat} {scopes closed : Scopes}
    {methods : List FunctionDecl} (hsuper : c.isSome = superclass.isSome)
    (hc : ∀ c', c = some c' → c' < m.classes.size ∧
      W.Declares methods c' m.frames.size m.classes.size)
    (ho : Ordered W ds plan m) (hstands : Stands plan m ids scopes closed)
    (hplain : ¬ m.frames.holds m.current "super") :
    Tracks W ds last (fun _ => False) (methodFrame c) (methodFrame c) plan m
      fun i plan' m' => Lies m'.frames plan' ids i (superScopes superclass ++ scopes)
        (superScopes superclass ++ closed) ∧ m'.classes = m.classes ∧
        ∀ f, f.frame = i → f.decl ∈ methods → m'.frames.Offers W c m.classes.size f := by
  refine .currentBind ?_
  cases superclass with
  | none =>
    obtain rfl : c = none := by simpa using hsuper
    refine .pure ho ⟨hstands.lies, rfl, fun f hf _ => ?_⟩
    rw [Frames.Offers, hf]
    exact hplain
  | some s =>
    obtain ⟨c, rfl⟩ := Option.isSome_iff_exists.mp hsuper
    obtain ⟨hlt, hdeclares⟩ := hc c rfl
    have hbinds := m.frames.bindsOnly_addBinding m.current "super" (.cls c)
    have hcurrent := hstands.lies.lt_size ho.global
    have hhosts : Machine.HostsSuperclass W
        { m with frames := m.frames.addBinding m.current "super" (.cls c) } m.frames.size :=
      ⟨Nat.ne_of_gt ho.global, c, hlt, hbinds, methods, _, hdeclares⟩
    have hplaced : Value.Placed W m.frames plan (.cls c) := by
      change c < plan.classes
      rwa [ho.classes]
    have ho₁ : Ordered W ds (plan.add m.frames [("super", true)] ids)
        { m with frames := m.frames.addBinding m.current "super" (.cls c) } :=
      ho.addBinding hplaced (fun h => absurd h (by decide)) fun _ => hhosts
    refine Tracks.newBinding ho₁ (.pure ho₁ ⟨?_, rfl, fun f hf hmem => ?_⟩)
    · refine .frame hcurrent ?_ ?_ (fun name hname => ?_) ?_ ?_
        (hstands.lies.extends (.addBinding ..))
      · rw [Frames.size_addBinding]
        exact Nat.lt_succ_self _
      · rw [Frames.enclosing?_addBinding, if_pos rfl]
      · exact hbinds.holds_iff.mpr (Scope.eq_of_isReady_single hname)
      · rw [Plan.role_add]
      · rw [Plan.role_add]
        exact List.Subset.refl _
    · rw [Frames.Offers, hf]
      exact ⟨hbinds, methods, hmem, hdeclares⟩

/-- The methods of a class can be bound. -/
theorem makeMethods {methods all : List FunctionDecl} {name : Name}
    {superclass : Option Superclass}
    (hseen : ∀ d ∈ methods, W.Inside ids ⟨.routine d, σ.ofMethod name superclass d⟩)
    (hall : methods ⊆ all) {frame k : Nat} {c : Option Nat} (ho : Ordered W ds plan m)
    (hlies : Lies m.frames plan ids frame (superScopes superclass ++ σ.scopes.introduce name)
      (superScopes superclass ++ σ.closed))
    (hoffers : ∀ f, f.frame = frame → f.decl ∈ all → m.frames.Offers W c k f)
    {table : Bindings Closure} (htable : ∀ name f, table.get? name = some f →
      f.Bindable W m.frames plan ∧ m.frames.Offers W c k f) :
    Tracks W ds last (fun _ => False) (makeMethods frame methods table)
      (makeMethods frame methods table) plan m fun table plan' m' => m'.classes = m.classes ∧
        ∀ name f, table.get? name = some f → f.Bindable W m'.frames plan' ∧
          m'.frames.Offers W c k f := by
  induction methods generalizing plan m table with
  | nil => exact .pure ho ⟨rfl, htable⟩
  | cons d methods ih =>
    obtain ⟨hd, hmethods⟩ := List.forall_mem_cons.mp hseen
    obtain ⟨hmem, hall⟩ := List.cons_subset.mp hall
    refine (Tracks.newClosure ho d frame (d.name.text == initializerName)).bind
      fun f plan₁ m₁ hf₁ hq₁ => ?_
    obtain ⟨hdecl, hframe, -, rfl, hframes, hclasses⟩ := hq₁
    rw [← hclasses]
    rw [← hframes] at hlies hoffers htable
    refine ih hmethods hall hf₁.ordered hlies hoffers fun other g hg => ?_
    rw [Bindings.get?_insert] at hg
    split at hg
    · cases hg
      refine ⟨⟨σ.ofMethod name superclass d, superScopes superclass ++ σ.scopes.introduce name,
        superScopes superclass ++ σ.closed, by rw [hdecl]; exact hd.1, ?_, ?_, ?_⟩, ?_⟩
      · exact congrArg (· ++ σ.scopes.introduce name) (classScopes_eq superclass)
      · exact congrArg (· ++ σ.closed) (classScopes_eq superclass)
      · rw [hframe, hdecl]
        exact hlies.subset hd.2
      · exact hoffers f hframe (by rwa [hdecl])
    · exact htable other g hg

/-- The declaration of a class, with its superclass evaluated, introduces its name. -/
theorem declareClass {methods : List FunctionDecl} {name : Name} {superclass : Option Superclass}
    (hfree : name.IsFree)
    (hseen : ∀ d ∈ methods, W.Inside ids ⟨.routine d, σ.ofMethod name superclass d⟩)
    {c : Option Nat} (hsuper : c.isSome = superclass.isSome)
    (hc : ∀ c', c = some c' → c' < m.classes.size ∧
      W.Declares methods c' m.frames.size m.classes.size)
    (ho : Ordered W ds plan m) (hstands : Stands plan m ids σ.scopes σ.closed)
    (hcovers : σ.closed.innermost.Covers (σ.scopes.introduce name).innermost) :
    Tracks W ds last (· = m.current) (declareClass name c methods) (declareClass name c methods)
      plan m fun _ plan' m' => Stands plan' m' ids (σ.scopes.introduce name) σ.closed := by
  have hnil : Value.Placed W (m.frames.write m.current name.text (some .nil)) plan .nil := trivial
  refine (Tracks.define ho hstands hfree hcovers hnil).bind fun _ plan₁ m₁ hf₁ hq₁ => ?_
  obtain ⟨hstands₁, hsize, hclasses⟩ := hq₁
  have hglobal := hf₁.ordered.global
  rw [← hsize, ← hclasses] at hc
  refine (methodFrame hsuper hc hf₁.ordered hstands₁ fun h => hstands₁.unsealed (.inr h)).bindFrom
    fun frame plan₂ m₂ hf₂ hq₂ => ?_
  obtain ⟨hlies, hclasses₂, hoffers⟩ := hq₂
  have hstands₂ := hf₂.stands hstands₁ hglobal id
  have hnone : ∀ name f, Bindings.get? ([] : Bindings Closure) name = some f →
      f.Bindable W m₂.frames plan₂ ∧ m₂.frames.Offers W c m₁.classes.size f :=
    fun _ _ hf => nomatch hf
  refine (makeMethods hseen (List.Subset.refl _) hf₂.ordered hlies hoffers hnone).bindFrom
    fun table plan₃ m₃ hf₃ hq₃ => ?_
  obtain ⟨hclasses₃, htable⟩ := hq₃
  have hstands₃ := hf₃.stands hstands₂ hf₂.ordered.global id
  rw [← hclasses₂, ← hclasses₃] at htable
  have hlt : ∀ c', (ClassInfo.mk name.text c table).superclass = some c' → c' < m₃.classes.size :=
    fun c' hc' => by
      rw [hclasses₃, hclasses₂]
      exact (hc c' hc').1
  refine (Tracks.newClass hf₃.ordered hlt htable).bindFrom
    fun class' plan₄ m₄ hf₄ hq₄ => ?_
  have hstands₄ := hf₄.stands hstands₃ hf₃.ordered.global id
  refine .getBind ?_
  have hclass : Value.Placed W m₄.frames plan₄ (.cls class') := hq₄.1
  refine ((Tracks.assignIn hf₄.ordered hfree (fun _ => Tracks.holds_of_holder?) hclass).mono
    fun _ plan₅ m₅ hf₅ _ => ?_).widen fun _ => False.elim
  exact hf₅.stands hstands₄ hf₄.ordered.global id

/-- The declaration of a function introduces its name, and the function closes over the current
frame. -/
theorem declareFunction {decl : FunctionDecl} (bound : Nat) (hfree : decl.name.IsFree)
    (hseen : W.Inside ids ⟨.routine decl, σ.ofFunction decl⟩) (ho : Ordered W ds plan m)
    (hstands : Stands plan m ids σ.scopes σ.closed)
    (hcovers : σ.closed.innermost.Covers (σ.scopes.introduce decl.name).innermost) :
    Tracks W ds last (· = m.current) (executeStep parts' bound (.function decl))
      (executeStep parts bound (.function decl)) plan m
      (Flow.Settles W ids (σ.scopes.introduce decl.name) σ.closed) := by
  refine .currentBind ?_
  refine (Tracks.newClosure ho decl m.current false).bindFrom fun f plan₁ m₁ hf₁ hq₁ => ?_
  obtain ⟨hdecl, hframe, hplain, rfl, -⟩ := hq₁
  have hstands₁ := hf₁.stands hstands ho.global id
  have hcurrent₁ := hstands₁.lies.lt_size hf₁.ordered.global
  have hlies := (hstands₁.write hcurrent₁ hfree (some (.function f))).lies
  have hf : Value.Placed W
      (m₁.frames.write m₁.current decl.name.text (some (.function f))) plan₁ (.function f) := by
    refine ⟨σ.ofFunction decl, ?_, ?_, fun hinit => ?_⟩
    · rw [hdecl]
      exact hseen.1
    · rw [hdecl, hframe, ← hf₁.current]
      exact hlies.subset hseen.2
    · rw [hplain] at hinit
      cases hinit
  rw [← hf₁.current]
  refine (Tracks.define hf₁.ordered hstands₁ hfree hcovers hf).bind fun _ plan₂ m₂ hf₂ hq₂ => ?_
  exact .pure hf₂.ordered hq₂.1

/-- One step of a statement. -/
theorem executeStep (h : EvaluatorsTrack W ds last parts' parts) (hguides : Guides W.seen)
    (bound : Nat) {s : Stmt} (hcomes : W.comes (.stmt s) m) (ho : Ordered W ds plan m)
    (hseen : W.Inside ids ⟨.stmt s, σ⟩) (hstands : Stands plan m ids σ.scopes σ.closed) :
    Tracks W ds last (· = m.current) (executeStep parts' bound s) (executeStep parts bound s) plan m
      (Flow.Settles W ids (s.after σ.scopes) σ.closed) := by
  have hpart {w : Visit} (hw : w ∈ s.parts σ) : W.Inside ids w :=
    (hguides.inside ids).part hseen hw
  obtain ⟨hproper, hcovers⟩ := (hguides.fits hseen.1).of_stmt
  match s with
  | .expression e =>
    refine (h.evaluate ho (hpart List.mem_cons_self) hstands).bindFrom fun v plan₁ m₁ hf₁ _ => ?_
    exact .pure hf₁.ordered (hf₁.stands hstands ho.global id)
  | .variable name (some e) =>
    have hdeclared := hstands.declare name
    have he : W.Inside ids ⟨.expr e, { σ with scopes := σ.scopes.declare name }⟩ :=
      hpart List.mem_cons_self
    refine (h.evaluate ho he hdeclared).bindFrom fun v plan₁ m₁ hf₁ hv => ?_
    have hstands₁ := hf₁.stands hstands ho.global id
    have hcurrent₁ := hstands₁.lies.lt_size hf₁.ordered.global
    rw [← hf₁.current]
    refine (Tracks.define hf₁.ordered hstands₁ hproper.1 hcovers ?_).bind
      fun _ plan₂ m₂ hf₂ hq₂ => ?_
    · exact hv.extends (.write _ _ hcurrent₁ hstands₁.unsealed hproper.1.unreserved _)
    · exact .pure hf₂.ordered hq₂.1
  | .variable name none =>
    refine (Tracks.declare ho hstands hproper.1 hcovers).bind fun _ plan₁ m₁ hf₁ hstands₁ => ?_
    exact .pure hf₁.ordered hstands₁
  | .block body => exact h.executeBlock bound (fun w => hpart) ho hstands
  | .ifThen condition thenBranch =>
    refine (h.evaluate ho (hpart (by simp [Stmt.parts])) hstands).bindFrom
      fun v plan₁ m₁ hf₁ _ => ?_
    have hstands₁ := hf₁.stands hstands ho.global id
    rw [← hf₁.current]
    refine .ite (fun _ => ?_) fun _ => ?_
    · exact h.execute hf₁.ordered (hpart (by simp [Stmt.parts])) hstands₁
    · refine .pure hf₁.ordered ?_
      rw [Stmt.after, Stmt.after_of_not_isDeclaration hproper.2.2 hproper.2.1]
      exact hstands₁
  | .ifElse condition thenBranch elseBranch =>
    refine (h.evaluate ho (hpart (by simp [Stmt.parts])) hstands).bindFrom
      fun v plan₁ m₁ hf₁ _ => ?_
    have hstands₁ := hf₁.stands hstands ho.global id
    obtain ⟨-, ⟨hthen, hthen'⟩, helse, helse'⟩ := hproper
    have hafter := Stmt.after_of_not_isDeclaration hthen' hthen σ.scopes
    have hafter' := Stmt.after_of_not_isDeclaration helse' helse σ.scopes
    rw [← hf₁.current, Stmt.after, hafter, hafter']
    refine .ite (fun _ => ?_) fun _ => ?_
    · have hseen' : W.Inside ids ⟨.stmt thenBranch, σ⟩ := hpart (by simp [Stmt.parts])
      have hexecute := h.execute hf₁.ordered hseen' hstands₁
      rwa [hafter] at hexecute
    · have hseen' : W.Inside ids ⟨.stmt elseBranch, { σ with scopes := thenBranch.after σ.scopes }⟩ :=
        hpart (by simp [Stmt.parts])
      have hexecute := h.execute hf₁.ordered hseen' (by rwa [hafter])
      rwa [hafter, hafter'] at hexecute
  | .while condition body =>
    have hafter := Stmt.after_of_not_isDeclaration hproper.2.2 hproper.2.1 σ.scopes
    rw [Stmt.after, hafter]
    exact h.loop (hpart (by simp [Stmt.parts])) (hpart (by simp [Stmt.parts])) hafter bound ho
      hstands
  | .function decl =>
    have hfree : decl.name.IsFree := by
      obtain ⟨name, params, body⟩ := decl
      exact hproper.1
    exact declareFunction bound hfree (hpart List.mem_cons_self) ho hstands hcovers
  | .return line (some e) =>
    refine (h.evaluate ho (hpart List.mem_cons_self) hstands).bindFrom fun v plan₁ m₁ hf₁ hv => ?_
    exact .pure hf₁.ordered hv
  | .return line none => exact .pure ho trivial
  | .class name none methods =>
    have hmethods : ∀ d ∈ methods, W.Inside ids ⟨.routine d, σ.ofMethod name none d⟩ := fun d hd =>
      hpart (List.mem_map_of_mem hd)
    have hc : ∀ c', (none : Option Nat) = some c' → c' < m.classes.size ∧
        W.Declares methods c' m.frames.size m.classes.size := by
      rintro c' ⟨⟩
    refine (declareClass hproper.1 hmethods rfl hc ho hstands hcovers).bind
      fun _ plan₁ m₁ hf₁ hstands₁ => ?_
    exact .pure hf₁.ordered hstands₁
  | .class name (some s) methods =>
    have hmethods : ∀ d ∈ methods, W.Inside ids ⟨.routine d, σ.ofMethod name (some s) d⟩ :=
      fun d hd => hpart (List.mem_append_right _ (List.mem_map_of_mem hd))
    refine (h.reads ho ((hguides.inside ids).superclass hseen) hstands).bindFrom
      fun v plan₁ m₁ hf₁ hq₁ => ?_
    obtain ⟨rfl, rfl, hplaced, hread⟩ := hq₁
    refine (Tracks.asSuperclass ho v s.name.line).bindFrom fun c plan₂ m₂ hf₂ hq₂ => ?_
    obtain ⟨rfl, rfl, rfl⟩ := hq₂
    have hsuper : (some c).isSome = (some s).isSome := rfl
    have hc : ∀ c', some c = some c' → c' < m₂.classes.size ∧
        W.Declares methods c' m₂.frames.size m₂.classes.size := by
      rintro c' ⟨⟩
      exact ⟨ho.classes ▸ hplaced, name, s, m₂, hcomes, hread, rfl, rfl⟩
    refine (declareClass hproper.1 hmethods hsuper hc ho hstands hcovers).bind
      fun _ plan₃ m₃ hf₃ hstands₃ => ?_
    exact .pure hf₃.ordered hstands₃

/-! ### Calls of functions -/

/-- Parameters with as many arguments are all held. -/
theorem bindParameters {params : List Name} {arguments : List Value} {i : Nat}
    (hlength : params.length = arguments.length) (ho : Ordered W ds plan m)
    (hi : i < m.frames.size) (hunsealed : ¬ m.frames.Sealed i)
    (hfree : ∀ p ∈ params, p.IsFree)
    (hnames : ∀ p ∈ params, (plan.role i).final.declares p.text)
    (hargs : ∀ v ∈ arguments, v.Placed W m.frames plan) :
    Tracks W ds last (· = i) (bindParameters i params arguments) (bindParameters i params arguments)
      plan m fun _ plan' m' => plan' = plan ∧ ∀ name,
        m'.frames.holds i name ↔ name ∈ params.map (·.text) ∨ m.frames.holds i name := by
  induction params generalizing m arguments with
  | nil => exact .pure ho ⟨rfl, fun name => by simp⟩
  | cons p params ih =>
    cases arguments with
    | nil => cases hlength
    | cons v arguments =>
      obtain ⟨hp, hparams⟩ := List.forall_mem_cons.mp hnames
      obtain ⟨hpfree, hfree⟩ := List.forall_mem_cons.mp hfree
      obtain ⟨hv, harguments⟩ := List.forall_mem_cons.mp hargs
      have hslot : ∀ w, some v = some w →
          w.Placed W (m.frames.write i p.text (some v)) plan := by
        rintro w ⟨⟩
        exact hv.extends (.write _ _ hi hunsealed hpfree.unreserved _)
      have hwrite : Tracks W ds last (· = i) (Run.writeSlot i p.text (some v))
          (Run.writeSlot i p.text (some v)) plan m fun _ plan' m' => plan' = plan ∧
            m' = { m with frames := m.frames.write i p.text (some v) } :=
        .writeSlot ho hi hunsealed hpfree.unreserved (fun _ => hp) hslot (.inl rfl)
      refine hwrite.bind fun _ plan₁ m₁ hf₁ hq₁ => ?_
      obtain ⟨rfl, rfl⟩ := hq₁
      have hunsealed₁ : ¬ (m.frames.write i p.text (some v)).Sealed i := fun hsealed =>
        hunsealed (hsealed.of_holds fun other hother => by
          rcases (m.frames.holds_write hi i _ other _).mp hother with ⟨-, rfl⟩ | hother
          · exact .inr hpfree.unreserved
          · exact .inl hother)
      have hi₁ := Nat.lt_of_lt_of_le hi hf₁.extend.size
      have harguments₁ := fun w hw => (harguments w hw).extends hf₁.extend
      refine (ih (Nat.succ.inj hlength) hf₁.ordered hi₁ hunsealed₁ hfree hparams
        harguments₁).mono ?_
      rintro _ plan₂ m₂ - ⟨rfl, hholds⟩
      refine ⟨rfl, fun name => ?_⟩
      rw [hholds, Frames.holds_write _ hi, List.map_cons, List.mem_cons]
      constructor
      · rintro (hname | ⟨-, rfl⟩ | hname)
        · exact .inl (.inr hname)
        · exact .inl (.inl rfl)
        · exact .inr hname
      · rintro ((rfl | hname) | hname)
        · exact .inr (.inl ⟨rfl, rfl⟩)
        · exact .inl hname
        · exact .inr (.inr hname)

/-- One step of a call. -/
theorem invokeStep (h : EvaluatorsTrack W ds last parts' parts) (hguides : Guides W.seen) :
    InvokeTracks W ds last (invokeStep parts') (invokeStep parts) := by
  intro f arguments plan m ho hf hargs harity
  obtain ⟨σ, hseen, hlies, -⟩ := hf
  have hroutine : W.Inside f.decl.ids ⟨.routine f.decl, σ⟩ := ⟨hseen, List.Subset.refl _⟩
  have hss : ∀ w ∈ (σ.inRoutine f.decl).along f.decl.body, W.Inside f.decl.ids w := fun w hw =>
    (hguides.inside f.decl.ids).part hroutine hw
  have hfree := (hguides.fits hseen).of_routine
  have hlt := hlies.lt_size ho.global
  obtain ⟨inner, hscopes, hdeclares, hready⟩ :=
    Scopes.introduceAll_cons f.decl.params [] σ.scopes
  refine (Tracks.newFrame ho f.frame (σ.inRoutine f.decl).closed.innermost f.decl.ids).bindNew
    fun i plan₁ m₁ hf₁ hq₁ => ?_
  obtain ⟨rfl, hi, hrole, henclosing, hempty⟩ := hq₁
  have hunsealed : ¬ m₁.frames.Sealed m.frames.size := fun hsealed =>
    hsealed.elim (hempty _) (hempty _)
  have hnames : ∀ p ∈ f.decl.params, (plan₁.role m.frames.size).final.declares p.text := by
    intro p hp
    rw [hrole]
    refine Stmt.innermost_afterAll f.decl.body (σ.parameterScopes f.decl) p.text ?_
    rw [Site.parameterScopes, hscopes]
    exact (hdeclares p.text).mpr (.inl (List.mem_map_of_mem hp))
  have hargs₁ := fun v hv => (hargs v hv).extends hf₁.extend
  refine (bindParameters harity hf₁.ordered hi hunsealed hfree hnames hargs₁).bind
    fun _ plan₂ m₂ hf₂ hq₂ => ?_
  obtain ⟨rfl, hholds⟩ := hq₂
  have hheld : ∀ name, inner.isReady name ↔ m₂.frames.holds m.frames.size name := fun name => by
    rw [hready, hholds]
    exact or_congr_right (iff_of_false (Scope.not_isReady_nil name) (hempty name))
  have hunreserved : ∀ name, inner.isReady name → name ≠ "this" ∧ name ≠ "super" := by
    intro name hname
    rcases (hready name).mp hname with hmem | hnil
    · obtain ⟨p, hp, rfl⟩ := List.mem_map.mp hmem
      exact (hfree p hp).unreserved
    · exact absurd hnil (Scope.not_isReady_nil name)
  have hinside := Stands.enter ((hlies.extends hf₁.extend).extends hf₂.extend) hlt
    (Nat.lt_of_lt_of_le hi hf₂.extend.size) ((hf₂.extend.enclosing _ hi).trans henclosing) hrole
    hheld hunreserved
  rw [← hscopes] at hinside
  refine (h.executeInside hss hf₂.ordered hinside).bind fun flow plan₃ m₃ hf₃ hvalue => ?_
  refine .ite (fun _ => ?_) fun _ => .pure hf₃.ordered hvalue
  exact .getBind (.checked hf₃.ordered _ fun _ => Tracks.placed_of_readIn hf₃.ordered)

end EvaluatorsTrack

end Treewalk
