import Treewalk.Proofs.Run.Calls

/-!
# The moments of a run in order

The evaluators are given a *watch*: a computation that is told of every expression before it is
evaluated, of every statement before it is executed, of every call of a function before its body is
entered, and of every call of a built-in function before it is carried out. A watch that does nothing
leaves the evaluators as they are.

A watch may stop the computation at some moments. The *log* of a computation lists its moments in
order: whichever moments a watch stops at, it is the first of them in the list at which the
computation is stopped, and a watch that stops at none of the list makes no difference.

## Main definitions

* `Event`, `Moment`: what a watch is told, and on which machine.
* `watched`, `interpretWatched`: the evaluators with a watch.
* `Run.Logs`: the moments of a computation in order.

## Main results

* `Run.Logs.bind_ok`, `Run.Logs.within`: the log of a whole computation from those of its parts.
* `Run.Logs.comesTo_iff`, `Run.Logs.calls_iff`: the nodes and the calls in the log of a program.
-/

namespace Treewalk

/-- What a watch is told. -/
inductive Event
  /-- An expression is evaluated, or a statement is executed. -/
  | node (node : Node)
  /-- A function is called with arguments. -/
  | call (f : Closure) (arguments : List Value)
  /-- A built-in function is called with arguments, at a line. -/
  | native (n : Native) (arguments : List Value) (line : Nat)

/-- An event on a machine. -/
structure Moment where
  /-- The event. -/
  event : Event
  /-- The machine just before it. -/
  machine : Machine

/-! ### Evaluators with a watch -/

/-- Tells of the call of a built-in function, if the number of arguments is right. -/
def announce (watch : Event → Run Unit) (callee : Value) (arguments : List Value) (line : Nat) :
    Run Unit :=
  match callee with
  | .native n => if n.arity = arguments.length then watch (.native n arguments line) else pure ()
  | _ => pure ()

/-- Evaluates an expression whose parts are evaluated in a given way, and tells of a built-in
function that it calls. -/
def evaluateAnnounced (watch : Event → Run Unit) (lookup : Lookup) (parts : Evaluators) :
    Expr → Run Value
  | .call callee line arguments => do
    let f ← parts.evaluate callee
    let vs ← evaluateAll parts.evaluate arguments
    announce watch f vs line
    callWith parts.invoke f vs line
  | e => evaluateStep lookup parts e

/-- The evaluators with a given fuel and a watch. -/
def watched (watch : Event → Run Unit) (lookup : Lookup) : (fuel : Nat) → Evaluators
  | 0 => ⟨fun _ => throw .outOfFuel, fun _ => throw .outOfFuel, fun _ _ => throw .outOfFuel⟩
  | fuel + 1 =>
    { evaluate := fun e => do
        watch (.node (.expr e))
        evaluateAnnounced watch lookup (watched watch lookup fuel) e
      execute := fun s => do
        watch (.node (.stmt s))
        executeStep (watched watch lookup fuel) fuel s
      invoke := fun f arguments => do
        watch (.call f arguments)
        invokeStep (watched watch lookup fuel) f arguments }

/-- Executes the statements of a program with a watch. -/
def interpretWatched (watch : Event → Run Unit) (lookup : Lookup) (fuel : Nat) (body : List Stmt) :
    Run Unit := do
  let _ ← executeAll (watched watch lookup fuel).execute body

/-- Without a watch for calls of built-in functions nothing is announced. -/
theorem evaluateAnnounced_eq {watch : Event → Run Unit}
    (hwatch : ∀ n arguments line, watch (.native n arguments line) = pure ()) (lookup : Lookup)
    (parts : Evaluators) (e : Expr) :
    evaluateAnnounced watch lookup parts e = evaluateStep lookup parts e := by
  cases e with
  | call callee line arguments =>
    have hannounce (f : Value) (vs : List Value) : announce watch f vs line = pure () := by
      cases f with
      | native n => exact (congrArg (ite _ · _) (hwatch n vs line)).trans (ite_self _)
      | _ => rfl
    simp only [evaluateAnnounced, hannounce]
    rfl
  | _ => rfl

/-- A watch for nodes only is a probe. -/
theorem watched_eq_probed {watch : Event → Run Unit}
    (hcall : ∀ f arguments, watch (.call f arguments) = pure ())
    (hnative : ∀ n arguments line, watch (.native n arguments line) = pure ()) (lookup : Lookup)
    (fuel : Nat) : watched watch lookup fuel = probed (fun node => watch (.node node)) lookup fuel := by
  induction fuel with
  | zero => rfl
  | succ fuel ih =>
    simp only [watched, probed, evaluateAnnounced_eq hnative, hcall, ih]
    rfl

/-- A watch for calls of functions only is a tap. -/
theorem watched_eq_tapped {watch : Event → Run Unit} (hnode : ∀ node, watch (.node node) = pure ())
    (hnative : ∀ n arguments line, watch (.native n arguments line) = pure ()) (lookup : Lookup)
    (fuel : Nat) :
    watched watch lookup fuel = tapped (fun f vs => watch (.call f vs)) lookup fuel := by
  induction fuel with
  | zero => rfl
  | succ fuel ih =>
    simp only [watched, tapped, evaluateAnnounced_eq hnative, hnode, ih]
    rfl

/-- A watch that does nothing leaves the evaluators as they are. -/
theorem watched_pure (lookup : Lookup) (fuel : Nat) :
    watched (fun _ => pure ()) lookup fuel = evaluators lookup fuel := by
  rw [watched_eq_probed (fun _ _ => rfl) fun _ _ _ => rfl, probed_pure]

theorem interpretWatched_pure (lookup : Lookup) (fuel : Nat) (body : List Stmt) :
    interpretWatched (fun _ => pure ()) lookup fuel body = interpret lookup fuel body := by
  rw [interpretWatched, watched_pure]
  rfl

/-! ### Logs -/

/-- The watch that stops at some moments, as it is told to. -/
def stopping (judge : Moment → Option Interrupt) : Event → Run Unit := fun event m =>
  match judge ⟨event, m⟩ with
  | none => .ok () m
  | some stop => .error stop m

namespace Run

variable {α β : Type}

/-- The moments of a computation on a machine, in order. Of the moments at which a watch stops it is
the first one in the list that counts. -/
structure Logs (x : (Event → Run Unit) → Run α) (m : Machine) (log : List Moment) : Prop where
  passes : ∀ judge, log.findSome? judge = none → x (stopping judge) m = x (fun _ => Pure.pure ()) m
  stops : ∀ judge stop, log.findSome? judge = some stop → Stops (x (stopping judge)) m stop

namespace Logs

variable {x : (Event → Run Unit) → Run α} {k : (Event → Run Unit) → α → Run β} {m m₁ : Machine}
  {log log' : List Moment}

/-- A computation that does not use its watch. -/
theorem const (x : Run α) (m : Machine) : Logs (fun _ => x) m [] where
  passes _ _ := rfl
  stops _ _ h := by cases h

/-- A watch is told of one event. -/
theorem event (event : Event) (m : Machine) : Logs (fun watch => watch event) m [⟨event, m⟩] where
  passes judge h := by
    rw [List.findSome?_singleton] at h
    simp only [stopping, h]
    rfl
  stops judge stop h := by
    rw [List.findSome?_singleton] at h
    exact ⟨m, by simp only [stopping, h]⟩

/-- One computation after another. -/
theorem bind_ok {a : α} (hx : Logs x m log) (ha : x (fun _ => Pure.pure ()) m = .ok a m₁)
    (hk : Logs (fun watch => k watch a) m₁ log') :
    Logs (fun watch => x watch >>= k watch) m (log ++ log') where
  passes judge h := by
    rw [List.findSome?_append, Option.or_eq_none_iff] at h
    rw [bind_apply, bind_apply, hx.passes judge h.1, ha]
    exact hk.passes judge h.2
  stops judge stop h := by
    rw [List.findSome?_append] at h
    cases hlog : log.findSome? judge with
    | none =>
      rw [hlog, Option.none_or] at h
      exact .bind_ok ((hx.passes judge hlog).trans ha) (hk.stops judge stop h)
    | some stop' =>
      rw [hlog, Option.some_or] at h
      cases h
      exact (hx.stops judge stop hlog).bind _

/-- A computation that is cut short does not lead to another. -/
theorem bind_error {e : Interrupt} (hx : Logs x m log)
    (he : x (fun _ => Pure.pure ()) m = .error e m₁) (k : (Event → Run Unit) → α → Run β) :
    Logs (fun watch => x watch >>= k watch) m log where
  passes judge h := by rw [bind_apply, bind_apply, hx.passes judge h, he]
  stops judge stop h := (hx.stops judge stop h).bind _

/-- A computation after which the watch is not used any more. -/
theorem bind_const (hx : Logs x m log) (k : α → Run β) :
    Logs (fun watch => x watch >>= k) m log := by
  rcases hm : x (fun _ => Pure.pure ()) m with ⟨a, m₁⟩ | ⟨e, m₁⟩
  · exact List.append_nil log ▸ hx.bind_ok hm (.const (k a) m₁)
  · exact hx.bind_error hm fun _ => k

theorem within {i : Nat} (hx : Logs x { m with current := i } log) :
    Logs (fun watch => Run.within i (x watch)) m log where
  passes judge h := by simp only [Run.within, hx.passes judge h]
  stops judge stop h := (hx.stops judge stop h).within

/-- What happens in another frame happens on the machine on which the frame has been entered. -/
theorem of_eq {y : (Event → Run Unit) → Run α} (hx : Logs x m₁ log)
    (heq : ∀ watch, y watch m = x watch m₁) : Logs y m log where
  passes judge h := by rw [heq, heq, hx.passes judge h]
  stops judge stop h := by
    obtain ⟨m', hstop⟩ := hx.stops judge stop h
    exact ⟨m', (heq _).trans hstop⟩

/-! ### What is in a log -/

open Classical in
/-- Stops at one moment. -/
noncomputable def only (p : Moment) (stop : Interrupt) : Moment → Option Interrupt :=
  fun q => if q = p then some stop else none

theorem findSome?_only_eq_none {p : Moment} {stop : Interrupt} :
    log.findSome? (only p stop) = none ↔ p ∉ log := by
  rw [List.findSome?_eq_none_iff]
  constructor
  · intro h hp
    have hstop := h p hp
    rw [only, if_pos rfl] at hstop
    cases hstop
  · intro hp q hq
    refine if_neg fun heq => ?_
    subst heq
    exact hp hq

theorem findSome?_only {p : Moment} (hp : p ∈ log) (stop : Interrupt) :
    log.findSome? (only p stop) = some stop := by
  cases h : log.findSome? (only p stop) with
  | none => exact absurd hp (findSome?_only_eq_none.mp h)
  | some stop' =>
    obtain ⟨q, -, hq⟩ := List.exists_of_findSome?_eq_some h
    by_cases heq : q = p
    · rwa [only, if_pos heq, eq_comm] at hq
    · rw [only, if_neg heq] at hq
      cases hq

/-- A moment is in the log just if stopping there, and only there, makes a difference. -/
theorem mem_iff (h : Logs x m log) {p : Moment} : p ∈ log ↔
    ∃ stop, x (stopping (only p stop)) m ≠ x (fun _ => Pure.pure ()) m := by
  constructor
  · exact fun hp => Stops.exists_ne (fun stop => h.stops _ stop (findSome?_only hp stop)) _
  · rintro ⟨stop, hne⟩
    by_contra hp
    exact hne (h.passes _ (findSome?_only_eq_none.mpr hp))

variable {fuel : Nat} {body : List Stmt} {start : Machine}

theorem stopping_only_of_ne {p : Moment} {stop : Interrupt} {event : Event} (h : event ≠ p.event) :
    stopping (only p stop) event = Pure.pure () := by
  funext m
  have hne : (⟨event, m⟩ : Moment) ≠ p := fun heq => h (heq ▸ rfl)
  simp only [stopping, only, if_neg hne]
  rfl

/-- The nodes in the log of a program are those to which its run comes. -/
theorem comesTo_iff
    (h : Logs (fun watch => interpretWatched watch .resolved fuel body) start log) {node : Node}
    {m : Machine} : ⟨.node node, m⟩ ∈ log ↔ ComesTo fuel body start node m := by
  rw [h.mem_iff, ComesTo]
  refine exists_congr fun stop => ?_
  have hprobe : (fun node' => stopping (only ⟨.node node, m⟩ stop) (.node node')) =
      stopAt node m stop := by
    funext node' m'
    by_cases heq : node' = node ∧ m' = m
    · obtain ⟨rfl, rfl⟩ := heq
      simp [stopping, only, stopAt]
    · have hne : (⟨.node node', m'⟩ : Moment) ≠ ⟨.node node, m⟩ := by simpa using heq
      simp only [stopping, only, stopAt, if_neg heq, if_neg hne]
  have hwatched : watched (stopping (only ⟨.node node, m⟩ stop)) .resolved fuel =
      probed (fun node' => stopping (only ⟨.node node, m⟩ stop) (.node node')) .resolved fuel :=
    watched_eq_probed (fun _ _ => stopping_only_of_ne (by simp))
      (fun _ _ _ => stopping_only_of_ne (by simp)) .resolved fuel
  rw [interpretWatched_pure, interpretWatched, hwatched, hprobe]
  rfl

/-- The calls of functions in the log of a program are those of its run. -/
theorem calls_iff
    (h : Logs (fun watch => interpretWatched watch .resolved fuel body) start log) {f : Closure}
    {arguments : List Value} {m : Machine} :
    ⟨.call f arguments, m⟩ ∈ log ↔ Calls fuel body start f arguments m := by
  rw [h.mem_iff, Calls]
  refine exists_congr fun stop => ?_
  have htap : (fun f' vs => stopping (only ⟨.call f arguments, m⟩ stop) (.call f' vs)) =
      tapAt f arguments m stop := by
    funext f' vs m'
    by_cases heq : f' = f ∧ vs = arguments ∧ m' = m
    · obtain ⟨rfl, rfl, rfl⟩ := heq
      simp [stopping, only, tapAt]
    · have hne : (⟨.call f' vs, m'⟩ : Moment) ≠ ⟨.call f arguments, m⟩ := by
        simpa [and_assoc] using heq
      simp only [stopping, only, tapAt, if_neg heq, if_neg hne]
  have hwatched : watched (stopping (only ⟨.call f arguments, m⟩ stop)) .resolved fuel =
      tapped (fun f' vs => stopping (only ⟨.call f arguments, m⟩ stop) (.call f' vs)) .resolved
        fuel :=
    watched_eq_tapped (fun _ => stopping_only_of_ne (by simp))
      (fun _ _ _ => stopping_only_of_ne (by simp)) .resolved fuel
  rw [interpretWatched_pure, interpretWatched, hwatched, htap]
  rfl

end Logs

end Run

end Treewalk
