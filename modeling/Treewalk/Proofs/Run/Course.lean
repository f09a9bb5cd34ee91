import Treewalk.Proofs.Run.Watching

/-!
# The course of a run

Between the moments of a run the machine is changed by *actions*: a variable is written, a frame is
made for a receiver or for a superclass, a block or a call is left, and a function, a class, an object
or a field comes into being. At a moment itself a block or a function is entered, or a built-in
function is carried out.

The *course* of a run says which actions are taken between its moments, and which nodes and calls are
under way then. A write belongs to a declaration or an assignment that is under way, whose frame is
current, and the frame that is written lies outward from that one. Every computation with a watch
unfolds in such a course, since this passes from the parts of a computation to the whole.

## Main definitions

* `Frames.Outward`: frames that lie outward from a frame.
* `Frames.Update`, `Action`: what happens between moments.
* `Event.next`: the machine after a moment.
* `Course`: the actions of a run between its moments.
* `Run.Unfolds`: computations that have a log and a course along it.

## Main results

* `Course.append`: one course after another.
* `Run.UnfoldsFrom.bind`, `Run.Unfolds.event`, `Run.UnfoldsFrom.within`: how a whole computation
  unfolds if its parts do.
-/

namespace Treewalk

/-! ### Actions -/

/-- From a frame outward one comes to another one. -/
def Frames.Outward (fs : Frames) : Nat → Nat → Prop :=
  Relation.ReflTransGen fun i j => fs.enclosing? i = some j

/-- The node gives a name to a variable that it declares, or assigns to a variable of that name. -/
def Node.Binds (name : String) : Node → Prop
  | .expr (.assign _ target _) => target.text = name
  | .stmt (.variable target _) => target.text = name
  | .stmt (.function decl) => decl.name.text = name
  | .stmt (.class target _ _) => target.text = name
  | _ => False

/-- How frames change while certain moments are under way and a certain frame is current. -/
inductive Frames.Update (met : Set Moment) (current : Nat) : Frames → Frames → Prop
  /-- A declaration or an assignment writes a variable: one that lies outward, or a global one. -/
  | write {node : Node} {m : Machine} {name : String} {fs : Frames} {i : Nat}
      (hmet : ⟨.node node, m⟩ ∈ met) (hcurrent : m.current = current) (hnode : node.Binds name)
      (hi : fs.Outward current i ∨ fs.Outward globalFrame i) (slot : Option Value) :
    Update met current fs (fs.write i name slot)
  /-- A method is bound to a receiver. -/
  | receiver (fs : Frames) (f : Closure) (v : Value) :
    Update met current fs (fs.addBinding f.frame "this" v)
  /-- The methods of a class close over its superclass. -/
  | superclass {name : Name} {s : Superclass} {methods : List FunctionDecl} {m : Machine}
      (hmet : ⟨.node (.stmt (.class name (some s) methods)), m⟩ ∈ met)
      (hcurrent : m.current = current) (fs : Frames) (c : Nat) :
    Update met current fs (fs.addBinding current "super" (.cls c))

/-- What happens between moments while certain ones are under way. -/
inductive Action (met : Set Moment) : Machine → Machine → Prop
  /-- The frames change. -/
  | update {m : Machine} {fs : Frames} (h : Frames.Update met m.current m.frames fs) :
    Action met m { m with frames := fs }
  /-- The frame of before is current again after a block or a call. -/
  | leave {p : Moment} (hp : p ∈ met) (m : Machine) :
    Action met m { m with current := p.machine.current }
  /-- A function is made. -/
  | closure (m : Machine) : Action met m { m with closures := m.closures + 1 }
  /-- A class is made. -/
  | cls (m : Machine) (info : ClassInfo) : Action met m { m with classes := m.classes.push info }
  /-- An object is made. -/
  | object (m : Machine) (c : Nat) : Action met m { m with objects := m.objects.push ⟨c, []⟩ }
  /-- A field is written. -/
  | field (m : Machine) (i : Nat) (name : String) (v : Value) :
    Action met m
      { m with objects := m.objects.modify i fun o => { o with fields := o.fields.insert name v } }

/-- The machine that a computation leaves, however it ends. -/
def Run.after {α : Type} (x : Run α) (m : Machine) : Machine :=
  match x m with
  | .ok _ m' => m'
  | .error _ m' => m'

/-- The machine after an event: a block or a function has been entered, or a built-in function has
been carried out. -/
def Event.next (event : Event) (m : Machine) : Machine :=
  match event with
  | .node (.stmt (.block _)) => m.inside
  | .node _ => m
  | .call f arguments => f.entered arguments m
  | .native n arguments line => (n.run arguments line).after m

/-- The course of a run along its moments while certain ones are under way. -/
inductive Course : Set Moment → Machine → List Moment → Machine → Prop
  /-- The end. -/
  | done (met : Set Moment) (m : Machine) : Course met m [] m
  /-- An action before the next moment. -/
  | act {met : Set Moment} {m m₁ m' : Machine} {log : List Moment} (h : Action met m m₁)
      (later : Course met m₁ log m') : Course met m log m'
  /-- The next moment, what happens while it is under way, and what happens afterwards. -/
  | event {met : Set Moment} {m m₁ m' : Machine} {log log' : List Moment} (event : Event)
      (inner : Course (insert ⟨event, m⟩ met) (event.next m) log m₁) (later : Course met m₁ log' m') :
    Course met m (⟨event, m⟩ :: (log ++ log')) m'

variable {met met' : Set Moment} {m m₁ m' start : Machine} {log log' : List Moment}

theorem Frames.Update.mono {fs fs' : Frames} {current : Nat} (h : Update met current fs fs')
    (hmet : met ⊆ met') : Update met' current fs fs' := by
  cases h with
  | write hm hcurrent hnode hi slot => exact .write (hmet hm) hcurrent hnode hi slot
  | receiver _ f v => exact .receiver fs f v
  | superclass hm hcurrent _ c => exact .superclass (hmet hm) hcurrent fs c

theorem Action.mono (h : Action met m m') (hmet : met ⊆ met') : Action met' m m' := by
  cases h with
  | update h => exact .update (h.mono hmet)
  | leave hp => exact .leave (hmet hp) m
  | closure => exact .closure m
  | cls _ info => exact .cls m info
  | object _ c => exact .object m c
  | field _ i name v => exact .field m i name v

namespace Course

theorem mono (h : Course met m log m') (hmet : met ⊆ met') : Course met' m log m' := by
  induction h generalizing met' with
  | done => exact .done _ _
  | act h _ ih => exact .act (h.mono hmet) (ih hmet)
  | event event _ _ ihInner ih =>
    exact .event event (ihInner (Set.insert_subset_insert hmet)) (ih hmet)

/-- One course after another. -/
theorem append (h : Course met m log m₁) (h' : Course met m₁ log' m') :
    Course met m (log ++ log') m' := by
  induction h with
  | done => exact h'
  | act h _ ih => exact .act h (ih h')
  | event event inner _ _ ih =>
    rw [List.cons_append, List.append_assoc]
    exact .event event inner (ih h')

/-- At the end of a course the frame of a moment that is under way is current again. -/
theorem leave (h : Course met m log m') {p : Moment} (hp : p ∈ met) :
    Course met m log { m' with current := p.machine.current } := by
  rw [← List.append_nil log]
  exact h.append (.act (.leave hp m') (.done met _))

/-- Actions without a moment among them. -/
theorem of_actions (h : Relation.ReflTransGen (Action met) m m') : Course met m [] m' := by
  induction h using Relation.ReflTransGen.head_induction_on with
  | refl => exact .done met m'
  | head h _ ih => exact .act h ih

end Course

/-! ### What computations leave -/

namespace Run

variable {α β : Type} {x : Run α} {f : α → Run β}

theorem after_of_ok {a : α} (h : x m = .ok a m') : x.after m = m' := by
  rw [after, h]

theorem after_of_error {e : Interrupt} (h : x m = .error e m') : x.after m = m' := by
  rw [after, h]

theorem after_congr {y : Run α} (h : x m = y m₁) : x.after m = y.after m₁ := by
  rw [after, after, h]

theorem after_bind_ok {a : α} (h : x m = .ok a m₁) : (x >>= f).after m = (f a).after m₁ :=
  after_congr (bind_of_ok h)

theorem after_bind_error {e : Interrupt} (h : x m = .error e m₁) : (x >>= f).after m = m₁ := by
  refine after_of_error (e := e) ?_
  rw [bind_apply, h]

theorem after_within (i : Nat) (x : Run α) (m : Machine) : (within i x).after m =
    { x.after { m with current := i } with current := m.current } := by
  rcases hx : x { m with current := i } with ⟨a, m'⟩ | ⟨e, m'⟩ <;> simp only [within, after, hx]

/-- A line is taken off the input, and nothing else changes. -/
theorem after_readLine (line : Nat) (m : Machine) :
    (readLine line).after m = { m with input := (Line.read m.input).2 } := by
  rw [readLine_eq]
  change (lineValue line (Line.read m.input).1).after { m with input := (Line.read m.input).2 } = _
  cases (Line.read m.input).1 <;> rfl

theorem KeepsCurrent.after (h : KeepsCurrent x) (m : Machine) : (x.after m).current = m.current := by
  unfold Run.after
  rcases hx : x m with ⟨a, m'⟩ | ⟨e, m'⟩
  · exact h.ok m a m' hx
  · exact h.error m e m' hx

/-! ### Computations that unfold -/

/-- A computation with a watch has a log on a machine, and a course along it that begins on a machine
on which the same frame is current. After it that frame is current again. -/
def UnfoldsFrom (met : Set Moment) (start m : Machine) (x : (Event → Run Unit) → Run α) : Prop :=
  ∃ log, Logs x m log ∧ Course met start log ((x fun _ => pure ()).after m) ∧
    ((x fun _ => pure ()).after m).current = m.current

/-- A computation with a watch has a log and a course along it. -/
abbrev Unfolds (met : Set Moment) (m : Machine) (x : (Event → Run Unit) → Run α) : Prop :=
  UnfoldsFrom met m m x

section Rules

variable {x : (Event → Run Unit) → Run α} {k : (Event → Run Unit) → α → Run β}

theorem UnfoldsFrom.mono (h : UnfoldsFrom met start m x) (hmet : met ⊆ met') :
    UnfoldsFrom met' start m x := by
  obtain ⟨log, hlog, hcourse, hcurrent⟩ := h
  exact ⟨log, hlog, hcourse.mono hmet, hcurrent⟩

/-- One computation after another. -/
theorem UnfoldsFrom.bind (hx : UnfoldsFrom met start m x)
    (hk : ∀ a m₁, m₁.current = m.current → Unfolds met m₁ fun watch => k watch a) :
    UnfoldsFrom met start m fun watch => x watch >>= k watch := by
  obtain ⟨log, hlog, hcourse, hcurrent⟩ := hx
  rcases hm : x (fun _ => Pure.pure ()) m with ⟨a, m₁⟩ | ⟨e, m₁⟩
  · rw [after_of_ok hm] at hcourse hcurrent
    obtain ⟨log', hlog', hcourse', hcurrent'⟩ := hk a m₁ hcurrent
    refine ⟨log ++ log', hlog.bind_ok hm hlog', ?_, ?_⟩
    · rw [after_bind_ok hm]
      exact hcourse.append hcourse'
    · rw [after_bind_ok hm]
      exact hcurrent'.trans hcurrent
  · rw [after_of_error hm] at hcourse hcurrent
    refine ⟨log, hlog.bind_error hm k, ?_, ?_⟩
    · rwa [after_bind_error hm]
    · rwa [after_bind_error hm]

/-- An event, and what happens while it is under way, on the machine after the event. -/
theorem Unfolds.event {event : Event} {x : (Event → Run Unit) → Run α}
    (h : UnfoldsFrom (insert ⟨event, m⟩ met) (event.next m) m x) :
    Unfolds met m fun watch => watch event >>= fun _ => x watch := by
  obtain ⟨log, hlog, hcourse, hcurrent⟩ := h
  have hcourse' := Course.event event hcourse (.done met _)
  rw [List.append_nil] at hcourse'
  exact ⟨⟨event, m⟩ :: log, (Logs.event event m).bind_ok rfl hlog, hcourse', hcurrent⟩

/-- A computation in a frame that is entered at a moment. -/
theorem UnfoldsFrom.within {i : Nat} {p : Moment} (hp : p ∈ met)
    (hcurrent : m.current = p.machine.current)
    (hx : Unfolds met { m with current := i } x) :
    UnfoldsFrom met { m with current := i } m fun watch => Run.within i (x watch) := by
  obtain ⟨log, hlog, hcourse, -⟩ := hx
  refine ⟨log, hlog.within, ?_, ?_⟩
  · rw [after_within, hcurrent]
    exact hcourse.leave hp
  · rw [after_within]

/-- A computation that goes on like another one on a different machine. -/
theorem UnfoldsFrom.of_eq {y : (Event → Run Unit) → Run α} (h : UnfoldsFrom met start m₁ x)
    (hcurrent : m₁.current = m.current) (heq : ∀ watch, y watch m = x watch m₁) :
    UnfoldsFrom met start m y := by
  obtain ⟨log, hlog, hcourse, hafter⟩ := h
  refine ⟨log, hlog.of_eq heq, ?_, ?_⟩
  · rwa [after_congr (heq _)]
  · rw [after_congr (heq _), hafter, hcurrent]

/-- A computation that does not use its watch. -/
theorem Unfolds.const {x : Run α} (h : Relation.ReflTransGen (Action met) m (x.after m))
    (hcurrent : (x.after m).current = m.current) : Unfolds met m fun _ => x :=
  ⟨[], .const x m, .of_actions h, hcurrent⟩

/-- A single action. -/
theorem Unfolds.action {x : Run α} (h : Action met m (x.after m))
    (hcurrent : (x.after m).current = m.current) : Unfolds met m fun _ => x :=
  .const (.single h) hcurrent

/-- A computation that leaves the machine as it is. -/
theorem Unfolds.same {x : Run α} (h : x.after m = m) : Unfolds met m fun _ => x :=
  .const (by rw [h]) (congrArg Machine.current h)

theorem Unfolds.pure (a : α) : Unfolds met m fun _ => (Pure.pure a : Run α) :=
  .same rfl

theorem Unfolds.throw (e : Interrupt) : Unfolds met m fun _ => (MonadExcept.throw e : Run α) :=
  .same rfl

theorem Unfolds.get_bind {k : (Event → Run Unit) → Machine → Run α}
    (h : Unfolds met m fun watch => k watch m) :
    Unfolds met m fun watch => MonadState.get >>= k watch :=
  h.of_eq rfl fun _ => rfl

theorem Unfolds.ite {c : Prop} [Decidable c] {x y : (Event → Run Unit) → Run α}
    (hx : Unfolds met m x) (hy : Unfolds met m y) :
    Unfolds met m fun watch => if c then x watch else y watch := by
  by_cases hc : c
  · simpa only [if_pos hc] using hx
  · simpa only [if_neg hc] using hy

end Rules

end Run

end Treewalk
