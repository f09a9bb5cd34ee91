import Treewalk.Proofs.Trimming.Machine

/-!
# Operations without spare frames

A computation *trims* to another one if, from a machine and the one without its spare frames, both answer
or both fail, with machines that correspond again and with answers that do, or with the same fault. The
seating may have grown in between, so what answers correspond by depends on the seating. Either of the
two may be allowed to run out of fuel when the other one does not.

An operation trims to that operation on the frames that stand for its frames. A spare frame that is made
for a computation trims to nothing.

## Main definitions

* `Slack`: which of two computations may run out of fuel.
* `Run.Trims`: computations that do the same with spare frames and without.

## Main results

* `Run.Trims.bind`: one computation after another.
* `Run.Trims.inSpare`: a computation in a spare frame.
* `Run.trims_readVariable`, `Run.trims_assignVariable`: variables.
-/

namespace Treewalk

/-- Which of two computations may run out of fuel when the other one does not. -/
structure Slack where
  /-- The one with spare frames. -/
  whole : Prop
  /-- The one without. -/
  trimmed : Prop

/-- With such amounts of fuel the two computations may run out of it as they are allowed to. -/
def Slack.Allows (S : Slack) (fuel fuel' : Nat) : Prop :=
  fuel ≤ fuel' ∧ S.whole ∨ fuel' ≤ fuel ∧ S.trimmed

namespace Run

section

variable {α β : Type} (S : Slack) (t : Trimming) (W : Seating) (i : Nat)
  (R : Seating → α → β → Prop)

/-- Outcomes that correspond to each other in a seating that has grown. -/
inductive TrimOutcome :
    EStateM.Result Interrupt Machine α → EStateM.Result Interrupt Machine β → Prop
  | ok {W' : Seating} {a : α} {b : β} {m m' : Machine} (hW : W <+: W') (ha : R W' a b)
      (hm : Machine.Trimmed t W' i m m') : TrimOutcome (.ok a m) (.ok b m')
  | raised {W' : Seating} {e : RuntimeError} {m m' : Machine} (hW : W <+: W')
      (hm : Machine.Trimmed t W' i m m') :
    TrimOutcome (.error (.raised e) m) (.error (.raised e) m')
  | whole {m : Machine} {o : EStateM.Result Interrupt Machine β} (h : S.whole) :
    TrimOutcome (.error .outOfFuel m) o
  | trimmed {m : Machine} {o : EStateM.Result Interrupt Machine α} (h : S.trimmed) :
    TrimOutcome o (.error .outOfFuel m)

/-- A computation in the frame `i` does what the other one does without the spare frames. -/
def Trims (x : Run α) (y : Run β) : Prop :=
  ∀ m m', Machine.Trimmed t W i m m' → TrimOutcome S t W i R (x m) (y m')

end

variable {S : Slack} {t : Trimming} {W W' : Seating} {i : Nat} {α β γ δ : Type}
  {R : Seating → α → β → Prop} {Q : Seating → γ → δ → Prop}

/-! ### Computations one after the other -/

theorem TrimOutcome.mono (hW : W <+: W') {o : EStateM.Result Interrupt Machine α}
    {o' : EStateM.Result Interrupt Machine β} (h : TrimOutcome S t W' i R o o') :
    TrimOutcome S t W i R o o' := by
  cases h with
  | ok hW' ha hm => exact .ok (hW.trans hW') ha hm
  | raised hW' hm => exact .raised (hW.trans hW') hm
  | whole h => exact .whole h
  | trimmed h => exact .trimmed h

namespace Trims

variable {x : Run α} {y : Run β}

theorem pure {a : α} {b : β} (h : R W a b) :
    Trims S t W i R (Pure.pure a : Run α) (Pure.pure b : Run β) :=
  fun _ _ hm => .ok (List.prefix_refl W) h hm

theorem bind {f : α → Run γ} {g : β → Run δ} (h : Trims S t W i R x y)
    (h' : ∀ W' a b, W <+: W' → R W' a b → Trims S t W' i Q (f a) (g b)) :
    Trims S t W i Q (x >>= f) (y >>= g) := by
  intro m m' hm
  have hout := h m m' hm
  rw [bind_apply, bind_apply]
  generalize x m = o, y m' = o' at hout
  cases hout with
  | ok hW ha hm => exact (h' _ _ _ hW ha _ _ hm).mono hW
  | raised hW hm => exact .raised hW hm
  | whole h => exact .whole h
  | trimmed h => exact .trimmed h

/-- The machines are looked at before the rest of a computation. -/
theorem get_bind {f : Machine → Run α} {g : Machine → Run β}
    (h : ∀ m m', Machine.Trimmed t W i m m' → Trims S t W i R (f m) (g m')) :
    Trims S t W i R (get >>= f) (get >>= g) :=
  fun m m' hm => h m m' hm m m' hm

/-- The machines are changed. -/
theorem modified {f g : Machine → Machine}
    (h : ∀ m m', Machine.Trimmed t W i m m' → Machine.Trimmed t W i (f m) (g m')) :
    Trims S t W i (fun _ _ _ => True) (modify f : Run PUnit) (modify g : Run PUnit) :=
  fun m m' hm => .ok (List.prefix_refl W) trivial (h m m' hm)

/-- Two computations each, chosen by the same condition. -/
theorem ite {p : Prop} [Decidable p] {x' : Run α} {y' : Run β} (h : Trims S t W i R x y)
    (h' : Trims S t W i R x' y') :
    Trims S t W i R (if p then x else x') (if p then y else y') := by
  split
  · exact h
  · exact h'

/-- The run with spare frames is out of fuel. -/
theorem outOfFuel (h : S.whole) : Trims S t W i R (MonadExcept.throw .outOfFuel : Run α) y :=
  fun _ _ _ => .whole h

/-- The run without spare frames is out of fuel. -/
theorem outOfFuel_trimmed (h : S.trimmed) :
    Trims S t W i R x (MonadExcept.throw .outOfFuel : Run β) :=
  fun _ _ _ => .trimmed h

/-- A computation in another frame. -/
theorem within {k k' : Nat} (hk : k < W.length) (hplace : W.place k = k')
    (h : Trims S t W k R x y) : Trims S t W i R (within k x) (within k' y) := by
  subst hplace
  intro m m' hm
  have hout := h _ _ (hm.move hk)
  have hback {W' : Seating} (hW : W <+: W') {m₁ m₁' : Machine} (hm₁ : Machine.Trimmed t W' k m₁ m₁') :
      Machine.Trimmed t W' i { m₁ with current := m.current } { m₁' with current := m'.current } := by
    rw [hm.current, hm.current', ← Seating.place_mono hW hm.lt_length]
    exact hm₁.move (Nat.lt_of_lt_of_le hm.lt_length hW.length_le)
  unfold Run.within
  generalize x { m with current := k } = o, y { m' with current := W.place k } = o' at hout
  cases hout with
  | ok hW ha hm₁ => exact .ok hW ha (hback hW hm₁)
  | raised hW hm₁ => exact .raised hW (hback hW hm₁)
  | whole h => exact .whole h
  | trimmed h => exact .trimmed h

/-- A computation in a spare frame is done without that in the frame around it. -/
theorem inSpare (hat : W.At i none)
    (h : ∀ (W' : Seating) k, W <+: W' → W'.At k (some 0) → Trims S t W' k R x y) :
    Trims S t W i R (do let k ← newFrame (← currentFrame); Run.within k x) y := by
  intro m m' hm
  obtain ⟨W₁, hW, hspare, hplace, hm₁⟩ := hm.enterSpare hat
  have hout := h W₁ _ hW hspare _ _ hm₁
  have hback {W' : Seating} (hW' : W₁ <+: W') {m₂ m₂' : Machine}
      (hm₂ : Machine.Trimmed t W' m.frames.size m₂ m₂') :
      Machine.Trimmed t W' i { m₂ with current := m.current } m₂' := by
    have hi := Nat.lt_of_lt_of_le hat.lt_length hW.length_le
    rw [hm.current]
    refine hm₂.moveBeside (Nat.lt_of_lt_of_le hi hW'.length_le) ?_
    rw [Seating.place_mono hW' hi, Seating.place_mono hW' hspare.lt_length, hplace]
  rw [← hm.current] at hout
  change TrimOutcome S t W i R (Run.within m.frames.size x
    { m with frames := m.frames.add (some m.current) }) _
  unfold Run.within
  generalize x { m with frames := m.frames.add (some m.current), current := m.frames.size } = o,
    y m' = o' at hout
  cases hout with
  | ok hW' ha hm₂ => exact .ok (hW.trans hW') ha (hback hW' hm₂)
  | raised hW' hm₂ => exact .raised (hW.trans hW') (hback hW' hm₂)
  | whole h => exact .whole h
  | trimmed h => exact .trimmed h

end Trims

theorem trims_raise (fault : RuntimeFault) (line : Nat) :
    Trims S t W i R (raise fault line) (raise fault line) :=
  fun _ _ hm => .raised (List.prefix_refl W) hm

/-! ### Frames and variables -/

/-- A frame is made, with a place of its own. -/
theorem trims_newFrame {j j' : Nat} (hj : j < W.length) (hplace : j' = W.place j) :
    Trims S t W i (fun W' k k' => j < k ∧ W'[k]? = some ⟨some j, k', false⟩) (newFrame j)
      (newFrame j') := by
  subst hplace
  intro m m' hm
  have hW : W <+: W ++ [⟨some j, m'.frames.size, false⟩] := List.prefix_append W _
  refine .ok hW ⟨hm.frames.size.symm ▸ hj, ?_⟩ (hm.withFrames hW (hm.frames.add hj))
  rw [hm.frames.size, List.getElem?_concat_length]

theorem trims_writeSlot {k k' : Nat} (hseats : W.Seats k k') (name : String)
    {slot slot' : Option Value} (hslot : SlotTrimmed t W slot slot') :
    Trims S t W i (fun _ _ _ => True) (writeSlot k name slot) (writeSlot k' name slot') :=
  .modified fun _ _ hm => hm.withFrames (List.prefix_refl W) (hm.frames.write hseats name hslot)

theorem trims_define (hseats : W.Seats i (W.place i)) (name : String) {v v' : Value}
    (hv : Value.Trimmed t W v v') :
    Trims S t W i (fun _ _ _ => True) (define name v) (define name v') :=
  .modified fun m m' hm => by
    refine hm.withFrames (List.prefix_refl W) ?_
    rw [hm.current, hm.current']
    exact hm.frames.write hseats name (.some hv)

theorem trims_declare (hseats : W.Seats i (W.place i)) (name : String) :
    Trims S t W i (fun _ _ _ => True) (declare name) (declare name) :=
  .modified fun m m' hm => by
    refine hm.withFrames (List.prefix_refl W) ?_
    rw [hm.current, hm.current']
    exact hm.frames.write hseats name .none

theorem trims_currentFrame :
    Trims S t W i (fun W' j j' => j = i ∧ j' = W'.place i) currentFrame currentFrame :=
  fun _ _ hm => .ok (List.prefix_refl W) ⟨hm.current, hm.current'⟩ hm

/-- The value of a name in the frame that holds it. -/
theorem trims_checked_readIn {fs fs' : Frames} (h : Frames.Trimmed t W fs fs') (hW : W <+: W')
    {holder holder' : Option Nat} (hholder : Option.Rel W.Seats holder holder') (name : String)
    (line : Nat) :
    Trims S t W' i (Value.Trimmed t) (checked line (fs.readIn holder name))
      (checked line (fs'.readIn holder' name)) := by
  cases hholder with
  | none => exact trims_raise _ line
  | @some j k hseats =>
    have hslot := h.slot hseats name
    rw [Frames.readIn, Frames.readIn, Frames.read, Frames.read]
    generalize fs.slot? j name = slot, fs'.slot? k name = slot' at hslot
    cases hslot with
    | none => exact trims_raise _ line
    | some hslot =>
      cases hslot with
      | none => exact trims_raise _ line
      | some hv => exact .pure (hv.mono hW)

/-- What stands under a name in the frame at a distance. -/
theorem trims_checked_getAt {fs fs' : Frames} (h : Frames.Trimmed t W fs fs') (hW : W <+: W')
    {j : Nat} {spare : Option Nat} (hat : W.At j spare) {hops : Nat} (hne : spare ≠ some hops)
    (name : String) (line : Nat) :
    Trims S t W' i (Value.Trimmed t) (checked line (fs.getAt j hops name))
      (checked line (fs'.getAt (W.place j) (hopsWithout spare hops) name)) :=
  trims_checked_readIn h hW (h.holderAt? hat hne name) name line

/-- The frame that holds the name of an occurrence. -/
theorem holderOf_trimmed {m m' : Machine} (hm : Machine.Trimmed t W i m m') {spare : Option Nat}
    (hat : W.At i spare) {id id' : Nat} (hrefers : t.Refers spare id id') (name : String) :
    Option.Rel W.Seats (m.holderOf .resolved id name) (m'.holderOf .resolved id' name) := by
  simp only [Machine.holderOf, hm.distances, hm.distances', hm.current, hm.current',
    hrefers.distance]
  cases hhops : t.before.get? id with
  | none => exact hm.frames.holder?_global name
  | some hops => exact hm.frames.holderAt? hat (hrefers.ne hops hhops) name

section Variables

variable {spare : Option Nat} (hat : W.At i spare) {id id' : Nat} (hrefers : t.Refers spare id id')
  (name : Name)

include hat hrefers

theorem trims_readVariable :
    Trims S t W i (Value.Trimmed t) (readVariable .resolved id name)
      (readVariable .resolved id' name) :=
  .get_bind fun _ _ hm => trims_checked_readIn hm.frames (List.prefix_refl W)
    (holderOf_trimmed hm hat hrefers name.text) name.text name.line

theorem trims_assignVariable {v v' : Value} (hv : Value.Trimmed t W v v') :
    Trims S t W i (fun _ _ _ => True) (assignVariable .resolved id name v)
      (assignVariable .resolved id' name v') := by
  refine .get_bind fun m m' hm => ?_
  have hholder := holderOf_trimmed hm hat hrefers name.text
  generalize m.holderOf .resolved id name.text = j, m'.holderOf .resolved id' name.text = k
    at hholder
  cases hholder with
  | none => exact trims_raise _ name.line
  | some hseats => exact trims_writeSlot hseats name.text (.some hv)

end Variables

/-! ### Functions, classes and objects -/

theorem trims_newClosure {inward : Nat} {decl decl' : FunctionDecl} {frame frame' : Nat}
    {isInitializer : Bool} (h : ∀ id, Closure.Trimmed t W inward ⟨id, decl, frame, isInitializer⟩
      ⟨id, decl', frame', isInitializer⟩) :
    Trims S t W i (fun W' => Closure.Trimmed t W' inward) (newClosure decl frame isInitializer)
      (newClosure decl' frame' isInitializer) := by
  intro m m' hm
  refine .ok (List.prefix_refl W) ?_
    { hm with tables := { hm.tables with closures := congrArg (· + 1) hm.tables.closures } }
  rw [hm.tables.closures]
  exact h m.closures

/-- Tables of methods that correspond to each other. -/
def MethodsTrimmed (t : Trimming) (W : Seating) (table table' : Bindings Closure) : Prop :=
  ∀ name, Option.Rel (Closure.Trimmed t W 1) (table.get? name) (table'.get? name)

theorem trims_newClass (name : String) (superclass : Option Nat) {table table' : Bindings Closure}
    (htable : MethodsTrimmed t W table table') : Trims S t W i (fun _ => Eq)
      (newClass ⟨name, superclass, table⟩) (newClass ⟨name, superclass, table'⟩) :=
  fun _ _ hm => .ok (List.prefix_refl W) hm.tables.classCount.symm
    { hm with tables := hm.tables.newClass name superclass htable }

theorem trims_newObject (c : Nat) : Trims S t W i (fun _ => Eq) (newObject c) (newObject c) :=
  fun _ _ hm => .ok (List.prefix_refl W) hm.tables.objectCount.symm
    { hm with tables := hm.tables.newObject c }

theorem trims_setField (o : Nat) (name : String) {v v' : Value} (hv : Value.Trimmed t W v v') :
    Trims S t W i (fun _ _ _ => True) (setField o name v) (setField o name v') :=
  .modified fun _ _ hm => { hm with tables := hm.tables.setField o name hv }

/-- A method to which a receiver is bound stands where its frame stands. -/
theorem trims_bindReceiver {f f' : Closure} (hf : Closure.Trimmed t W 1 f f') {v v' : Value}
    (hv : Value.Trimmed t W v v') :
    Trims S t W i (fun W' => Closure.Trimmed t W' 0) (bindReceiver f v) (bindReceiver f' v') := by
  obtain ⟨r, spare, hr, hdecl, hat, hnode, hinitializer⟩ := hf.decl
  unfold bindReceiver
  rw [hf.isInitializer]
  refine (trims_newFrame hat.lt_length hf.frame).bind fun W₁ k k' hW₁ hk => ?_
  obtain ⟨hlt, hseat⟩ := hk
  refine (trims_writeSlot ⟨_, hseat⟩ "this" (.some (hv.mono hW₁))).bind fun W₂ _ _ hW₂ _ => ?_
  have hat₂ := (Seating.At.inside hlt hseat (hat.mono hW₁)).mono hW₂
  have hplace : k' = Seating.place W₂ k := by
    rw [Seating.place, Seating.getElem?_mono hW₂ hseat]
    rfl
  refine trims_newClosure fun id => ⟨rfl, hplace, rfl, r, _, hr, hdecl, hat₂, ?_, ?_⟩
  · rw [Option.map_map]
    exact hnode
  · rw [Option.map_map]
    exact hinitializer

theorem trims_asObject {v v' : Value} (hv : Value.Trimmed t W v v') (what : String) (line : Nat) :
    Trims S t W i (fun _ => Eq) (asObject v what line) (asObject v' what line) := by
  cases hv with
  | function hf => exact trims_raise _ line
  | other hv =>
    cases v with
    | object o => exact .pure rfl
    | _ => exact trims_raise _ line

/-- A method that is found is bound; otherwise the property is not there. -/
theorem trims_bindFound (found found' : Option Closure) (v v' : Value) (name : Name) :
    Option.Rel (Closure.Trimmed t W 1) found found' → Value.Trimmed t W v v' →
    Trims S t W i (Value.Trimmed t)
      (match found with
        | some f => do return .function (← bindReceiver f v)
        | none => raise (.undefinedProperty name.text) name.line)
      (match found' with
        | some f => do return .function (← bindReceiver f v')
        | none => raise (.undefinedProperty name.text) name.line) := by
  intro hfound hv
  cases hfound with
  | some hf => exact (trims_bindReceiver hf hv).bind fun _ _ _ _ hf => .pure (.function hf)
  | none => exact trims_raise _ name.line

theorem trims_property (o : Nat) (name : Name) :
    Trims S t W i (Value.Trimmed t) (property o name) (property o name) := by
  refine .get_bind fun m m' hm => ?_
  have hfield := hm.tables.field o name.text
  generalize m.field? o name.text = v, m'.field? o name.text = v' at hfield
  cases hfield with
  | some hv => exact .pure hv
  | none =>
    refine trims_bindFound _ _ _ _ name ?_ (.object o)
    rw [hm.tables.classOf]
    cases m.classOf? o with
    | none => exact .none
    | some c => exact hm.tables.findMethod? c name.text

theorem trims_superMethod {spare : Option Nat} (hat : W.At i spare) {id id' : Nat}
    (hrefers : t.Refers spare id id')
    (hreceiver : ∀ hops, t.before.get? id = some hops → spare ≠ some (hops - 1)) (line : Nat)
    (method : Name) :
    Trims S t W i (Value.Trimmed t) (superMethod id line method) (superMethod id' line method) := by
  refine .get_bind fun m m' hm => ?_
  rw [hm.distances, hm.distances', hm.current, hm.current', hrefers.distance]
  cases hhops : t.before.get? id with
  | none => exact trims_raise _ line
  | some hops =>
    have hne := hrefers.ne hops hhops
    have hpred := hreceiver hops hhops
    have hthis (W' : Seating) (hW : W <+: W') :
        Trims S t W' i (Value.Trimmed t) (checked line (m.frames.getAt i (hops - 1) "this"))
          (checked line (m'.frames.getAt (W.place i) (hopsWithout spare hops - 1) "this")) := by
      rw [← hopsWithout_pred hne hpred]
      exact trims_checked_getAt hm.frames hW hat hpred "this" line
    refine (trims_checked_getAt hm.frames (List.prefix_refl W) hat hne "super" line).bind
      fun W₁ parent parent' hW₁ hparent => (hthis W₁ hW₁).bind
        fun W₂ receiver receiver' hW₂ hreceiver => ?_
    cases hparent with
    | function hf => exact trims_raise _ line
    | other hother =>
      cases parent with
      | cls c =>
        have hfound := optionRel_imp (fun _ _ hf => hf.mono (hW₁.trans hW₂))
          (hm.tables.findMethod? c method.text)
        exact trims_bindFound _ _ receiver receiver' method hfound hreceiver
      | _ => exact trims_raise _ line

/-! ### Built-in functions -/

/-- The same line is read off both machines. -/
theorem trims_readLine (line : Nat) :
    Trims S t W i (Value.Trimmed t) (readLine line) (readLine line) := by
  rw [readLine_eq]
  refine .get_bind fun m m' hm => ?_
  rw [hm.tables.input]
  have hput (m m' : Machine) (hm : Machine.Trimmed t W i m m') (rest : List UInt8) :
      Machine.Trimmed t W i { m with input := rest } { m' with input := rest } :=
    { hm with tables := { hm.tables with input := rfl } }
  refine Trims.bind (R := fun _ _ _ => True)
    (fun _ _ _ => .ok (List.prefix_refl W) trivial (hput m m' hm _)) fun _ _ _ _ _ => ?_
  cases (Line.read m.input).1 with
  | ended => exact .pure .nil
  | malformed => exact trims_raise _ line
  | text text => exact .pure (.string _)

theorem trims_writeValue {v v' : Value} (hv : Value.Trimmed t W v v') (ending : String) :
    Trims S t W i (Value.Trimmed t) (writeValue v ending) (writeValue v' ending) := by
  refine Trims.bind (R := fun _ _ _ => True) (.modified fun m m' hm => ?_) fun _ _ _ _ _ =>
    .pure .nil
  rw [hm.tables.text hv.alike]
  exact { hm with tables := { hm.tables with output := congrArg (· ++ _) hm.tables.output } }

theorem trims_readClock : Trims S t W i (Value.Trimmed t) readClock readClock := by
  intro m m' hm
  refine .ok (List.prefix_refl W) ?_
    { hm with tables := { hm.tables with readings := congrArg (· + 1) hm.tables.readings } }
  rw [hm.tables.clock, hm.tables.readings]
  exact .number _

theorem trims_native (n : Native) {arguments arguments' : List Value}
    (h : List.Forall₂ (Value.Trimmed t W) arguments arguments') (line : Nat) :
    Trims S t W i (Value.Trimmed t) (n.run arguments line) (n.run arguments' line) := by
  have hhead : Value.Trimmed t W (arguments.headD .nil) (arguments'.headD .nil) := by
    cases h with
    | nil => exact .nil
    | cons hv _ => exact hv
  cases n with
  | clock => exact trims_readClock
  | print => exact trims_writeValue hhead ""
  | printLine => exact trims_writeValue hhead "\n"
  | readLine => exact trims_readLine line

end Run

end Treewalk
