import Treewalk.Proofs.Renaming.Machine
import Treewalk.Proofs.Run.Stocking

/-!
# Operations on renamed machines

Two computations are *twins* if, from a machine and one that runs the renamed program, both answer or
both fail, with machines that correspond again and with answers or faults that do. The layout may have
grown in between, so what answers correspond by depends on the layout.

An operation of the renamed program is the twin of that operation of the program, if it is given the names
that its frames and occurrences have there.

## Main definitions

* `Run.Twins`: computations that do the same on machines of the two programs.
* `Renaming.Refers`: the names of one occurrence in the two programs.

## Main results

* `Run.Twins.bind`: one computation after another.
* `Run.twins_readVariable`, `Run.twins_assignVariable`: variables.
-/

namespace Treewalk

/-- Why a computation of the one program and one of the other are cut short. -/
inductive Interrupt.Renamed (r : Renaming) : Interrupt → Interrupt → Prop
  | raised {e e' : RuntimeError} (h : e.Renamed r e') : Interrupt.Renamed r (.raised e) (.raised e')
  | outOfFuel : Interrupt.Renamed r .outOfFuel .outOfFuel

namespace Run

section

variable {α β : Type} (r : Renaming) (W : Layout) (i : Nat) (R : Layout → α → β → Prop)

/-- Outcomes that correspond to each other in a layout that has grown. -/
inductive TwinOutcome :
    EStateM.Result Interrupt Machine α → EStateM.Result Interrupt Machine β → Prop
  | ok {W' : Layout} {a : α} {b : β} {m m' : Machine} (hW : W <+: W') (ha : R W' a b)
      (hm : Machine.Renamed r W' i m m') : TwinOutcome (.ok a m) (.ok b m')
  | error {W' : Layout} {e e' : Interrupt} {m m' : Machine} (he : e.Renamed r e')
      (hm : Machine.Renamed r W' i m m') : TwinOutcome (.error e m) (.error e' m')

/-- Two computations in the frame `i` do the same. -/
def Twins (x : Run α) (y : Run β) : Prop :=
  ∀ m m', Machine.Renamed r W i m m' → TwinOutcome r W i R (x m) (y m')

end

variable {r : Renaming} {W W' : Layout} {i : Nat} {α β γ δ : Type} {R : Layout → α → β → Prop}
  {S : Layout → γ → δ → Prop}

/-! ### Computations one after the other -/

theorem TwinOutcome.mono (hW : W <+: W') {o : EStateM.Result Interrupt Machine α}
    {o' : EStateM.Result Interrupt Machine β} (h : TwinOutcome r W' i R o o') :
    TwinOutcome r W i R o o' := by
  cases h with
  | ok hW' ha hm => exact .ok (hW.trans hW') ha hm
  | error he hm => exact .error he hm

namespace Twins

variable {x : Run α} {y : Run β}

theorem pure {a : α} {b : β} (h : R W a b) :
    Twins r W i R (Pure.pure a : Run α) (Pure.pure b : Run β) :=
  fun _ _ hm => .ok (List.prefix_refl W) h hm

theorem bind {f : α → Run γ} {g : β → Run δ} (h : Twins r W i R x y)
    (h' : ∀ W' a b, W <+: W' → R W' a b → Twins r W' i S (f a) (g b)) :
    Twins r W i S (x >>= f) (y >>= g) := by
  intro m m' hm
  have hout := h m m' hm
  rw [bind_apply, bind_apply]
  generalize x m = o, y m' = o' at hout
  cases hout with
  | ok hW ha hm => exact (h' _ _ _ hW ha _ _ hm).mono hW
  | error he hm => exact .error he hm

/-- The machines are looked at before the rest of a computation. -/
theorem get_bind {f : Machine → Run α} {g : Machine → Run β}
    (h : ∀ m m', Machine.Renamed r W i m m' → Twins r W i R (f m) (g m')) :
    Twins r W i R (get >>= f) (get >>= g) :=
  fun m m' hm => h m m' hm m m' hm

/-- The machines are changed. -/
theorem modified {f g : Machine → Machine}
    (h : ∀ m m', Machine.Renamed r W i m m' → Machine.Renamed r W i (f m) (g m')) :
    Twins r W i (fun _ _ _ => True) (modify f : Run PUnit) (modify g : Run PUnit) :=
  fun m m' hm => .ok (List.prefix_refl W) trivial (h m m' hm)

/-- Two computations each, chosen by the same condition. -/
theorem ite {p : Prop} [Decidable p] {x' : Run α} {y' : Run β} (h : Twins r W i R x y)
    (h' : Twins r W i R x' y') : Twins r W i R (if p then x else x') (if p then y else y') := by
  split
  · exact h
  · exact h'

/-- A computation in another frame. -/
theorem within {k : Nat} (h : Twins r W k R x y) : Twins r W i R (within k x) (within k y) := by
  intro m m' hm
  have hout := h { m with current := k } { m' with current := k }
    { hm with current := rfl, current' := rfl }
  unfold Run.within
  generalize x { m with current := k } = o, y { m' with current := k } = o' at hout
  cases hout with
  | ok hW ha hm' => exact .ok hW ha { hm' with current := hm.current, current' := hm.current' }
  | error he hm' => exact .error he { hm' with current := hm.current, current' := hm.current' }

end Twins

/-! ### Faults -/

theorem twins_raise_renamed {fault fault' : RuntimeFault} {line : Nat}
    (h : RuntimeError.Renamed r ⟨fault, line⟩ ⟨fault', line⟩) :
    Twins r W i R (raise fault line) (raise fault' line) :=
  fun _ _ hm => .error (.raised h) hm

/-- A fault that is not about a variable. -/
theorem twins_raise {fault : RuntimeFault} (h : fault.variable? = none) (line : Nat) :
    Twins r W i R (raise fault line) (raise fault line) :=
  twins_raise_renamed (.other fun heq => Option.some_ne_none _ (heq.symm.trans h))

/-! ### Frames and variables -/

theorem twins_newFrame (j : Nat) (renamed : Bool) :
    Twins r W i (fun W' k k' => k' = k ∧ W'[k]? = some ⟨some j, renamed⟩) (newFrame j)
      (newFrame j) := by
  intro m m' hm
  have hW : W <+: W ++ [⟨some j, renamed⟩] := List.prefix_append W _
  refine .ok hW ⟨hm.frames.size'.trans hm.frames.size.symm, ?_⟩
    (hm.withFrames hW (hm.frames.add ⟨some j, renamed⟩))
  rw [hm.frames.size, List.getElem?_concat_length]

theorem twins_writeSlot {k : Nat} {name name' : String} {slot slot' : Option Value}
    (hname : name' = W.word r k name) (hslot : SlotRenamed r W slot slot') :
    Twins r W i (fun _ _ _ => True) (writeSlot k name slot) (writeSlot k name' slot') :=
  .modified fun m m' hm => by
    rw [hname]
    exact hm.withFrames (List.prefix_refl W) (hm.frames.write k name hslot)

theorem twins_define {name name' : String} {v v' : Value} (hname : name' = W.word r i name)
    (hv : Value.Renamed r W v v') :
    Twins r W i (fun _ _ _ => True) (define name v) (define name' v') :=
  .modified fun m m' hm => by
    refine hm.withFrames (List.prefix_refl W) ?_
    rw [hm.current, hm.current', hname]
    exact hm.frames.write i name (.some hv)

theorem twins_declare {name name' : String} (hname : name' = W.word r i name) :
    Twins r W i (fun _ _ _ => True) (declare name) (declare name') :=
  .modified fun m m' hm => by
    refine hm.withFrames (List.prefix_refl W) ?_
    rw [hm.current, hm.current', hname]
    exact hm.frames.write i name .none

theorem twins_currentFrame : Twins r W i (fun _ j j' => j = i ∧ j' = i) currentFrame currentFrame :=
  fun _ _ hm => .ok (List.prefix_refl W) ⟨hm.current, hm.current'⟩ hm

end Run

/-- The names of one occurrence in the two programs: where it is bound to the renamed scope, the second
one has taken the place of the first one. -/
structure Renaming.Refers (r : Renaming) (depth : Option Nat) (id : Nat) (name name' : Name) :
    Prop where
  new : name.text ≠ r.new
  text : name'.text = r.reference depth (r.distances.get? id) name.text
  line : name'.line = name.line
  undefined : RuntimeError.Renamed r ⟨.undefinedVariable name.text, name.line⟩
    ⟨.undefinedVariable name'.text, name.line⟩
  unassigned : RuntimeError.Renamed r ⟨.unassignedVariable name.text, name.line⟩
    ⟨.unassignedVariable name'.text, name.line⟩

namespace Renaming.Refers

variable {r : Renaming}

theorem of_pair (hr : r.IsLocal) {depth : Option Nat} {e e' : Expr} {id : Nat} {name : Name}
    (h : r.Pair (.expr e) (.expr e')) (he : e.named? = some (id, name))
    (he' : e'.named? = some (id, r.occurrence depth id name)) :
    r.Refers depth id name (r.occurrence depth id name) := by
  obtain ⟨⟨above, hbefore⟩, above', hafter⟩ := h
  have hoccurrence : e.occurrence? = some (id, name.text) := by
    cases e <;> cases he <;> rfl
  refine ⟨fun heq => ?_, r.text_occurrence depth id name, r.line_occurrence depth id name,
    .undefined ⟨above, e, hbefore, he⟩ ⟨above', e', hafter, he'⟩,
    .unassigned ⟨above, e, hbefore, he⟩ ⟨above', e', hafter, he'⟩⟩
  exact hr.fresh hbefore (by simp [Node.words, hoccurrence, heq])

/-- Reserved words are not renamed. -/
theorem keyword (hr : r.IsLocal) (depth : Option Nat) (id : Nat) (k : Keyword) (line : Nat) :
    r.Refers depth id ⟨k.text, line⟩ ⟨k.text, line⟩ where
  new := (hr.new_ne k).symm
  text := (Renaming.reference_of_ne (hr.old_ne k).symm).symm
  line := rfl
  undefined := .other fun heq => hr.old_ne k (Option.some.inj heq).symm
  unassigned := .other fun heq => hr.old_ne k (Option.some.inj heq).symm

end Renaming.Refers

namespace Layout

variable {r : Renaming} {W : Layout}

/-- A reserved word is the same in all frames. -/
theorem word_keyword (hr : r.IsLocal) (i : Nat) (k : Keyword) : W.word r i k.text = k.text := by
  unfold word
  split
  · exact Equiv.swap_apply_of_ne_of_ne (hr.old_ne k).symm (hr.new_ne k).symm
  · rfl

/-- A name in the frame that a distance leads to. -/
theorem At.reference_eq {fs : Frames} (hfs : ∀ i, fs.enclosing? i = W[i]?.bind (·.enclosing)) {i : Nat}
    {depth : Option Nat} (h : W.At i depth) {name : String} (hnew : name ≠ r.new) (distance : Nat) :
    r.reference depth (some distance) name = W.word r (fs.ancestor i distance) name := by
  by_cases hdepth : depth = some distance
  · rw [word, if_pos ((h.renames_ancestor hfs distance).mpr hdepth), hdepth,
      Renaming.reference_self hnew]
  · rw [word, if_neg fun hrenames => hdepth ((h.renames_ancestor hfs distance).mp hrenames),
      Renaming.reference_of_distance_ne (Ne.symm hdepth)]

/-- A name that is declared in the scope of a frame. -/
theorem At.word_eq {i : Nat} {depth : Option Nat} (h : W.At i depth) (name : String) :
    r.word depth name = W.word r i name := by
  rw [Renaming.word, word]
  exact if_congr h.renames_iff.symm rfl rfl

end Layout

theorem Frames.holderAt?_eq_some {fs : Frames} {i distance j : Nat} {name : String}
    (h : fs.holderAt? i distance name = some j) : j = fs.ancestor i distance := by
  rw [holderAt?] at h
  split at h
  · exact (Option.some.inj h).symm
  · cases h

namespace Run

variable {r : Renaming} {W W' : Layout} {i : Nat}

/-- The value of a name in the frame that holds it, which may have another name there. -/
theorem twins_checked_readIn {fs fs' : Frames} (h : Frames.Renamed r W fs fs') (hW : W <+: W')
    {holder : Option Nat} {name name' : String}
    (hname : ∀ j, holder = some j → name' = W.word r j name) {line : Nat}
    (hundefined : RuntimeError.Renamed r ⟨.undefinedVariable name, line⟩
      ⟨.undefinedVariable name', line⟩)
    (hunassigned : RuntimeError.Renamed r ⟨.unassignedVariable name, line⟩
      ⟨.unassignedVariable name', line⟩) :
    Twins r W' i (Value.Renamed r) (checked line (fs.readIn holder name))
      (checked line (fs'.readIn holder name')) := by
  cases holder with
  | none => exact twins_raise_renamed hundefined
  | some j =>
    have hslot := h.slot j name
    rw [← hname j rfl] at hslot
    rw [Frames.readIn, Frames.readIn, Frames.read, Frames.read]
    generalize fs.slot? j name = slot, fs'.slot? j name' = slot' at hslot
    cases hslot with
    | none => exact twins_raise_renamed hundefined
    | some hslot =>
      cases hslot with
      | none => exact twins_raise_renamed hunassigned
      | some hv => exact .pure (hv.mono hW)

/-- The frame that holds the name of an occurrence. -/
theorem holderOf_renamed {m m' : Machine} (hm : Machine.Renamed r W i m m') {depth : Option Nat}
    (hat : W.At i depth) {id : Nat} {name name' : Name} (hrefers : r.Refers depth id name name') :
    m'.holderOf .resolved id name'.text = m.holderOf .resolved id name.text ∧
      ∀ j, m.holderOf .resolved id name.text = some j → name'.text = W.word r j name.text := by
  simp only [Machine.holderOf, hm.distances, hm.distances', hm.current, hm.current']
  have htext := hrefers.text
  cases hdistance : r.distances.get? id with
  | none =>
    have hglobal : name'.text = name.text := by
      rw [htext, hdistance]
      cases depth <;> simp [Renaming.reference]
    rw [hglobal]
    refine ⟨hm.frames.holder?_global name.text, fun j hj => ?_⟩
    change m.frames.holder? globalFrame name.text = some j at hj
    rw [hm.frames.holder?_global_eq] at hj
    split at hj
    · obtain rfl := Option.some.inj hj
      exact (hm.frames.word_global name.text).symm
    · cases hj
  | some distance =>
    rw [hdistance, hat.reference_eq hm.frames.enclosing hrefers.new] at htext
    refine ⟨hm.frames.holderAt? htext, fun j hj => ?_⟩
    rw [Frames.holderAt?_eq_some hj, htext]

theorem twins_readVariable {depth : Option Nat} (hat : W.At i depth) {id : Nat} {name name' : Name}
    (hrefers : r.Refers depth id name name') :
    Twins r W i (Value.Renamed r) (readVariable .resolved id name)
      (readVariable .resolved id name') := by
  refine .get_bind fun m m' hm => ?_
  obtain ⟨hholder, hname⟩ := holderOf_renamed hm hat hrefers
  rw [hholder, hrefers.line]
  exact twins_checked_readIn hm.frames (List.prefix_refl W) hname hrefers.undefined hrefers.unassigned

theorem twins_assignVariable {depth : Option Nat} (hat : W.At i depth) {id : Nat} {name name' : Name}
    (hrefers : r.Refers depth id name name') {v v' : Value} (hv : Value.Renamed r W v v') :
    Twins r W i (fun _ _ _ => True) (assignVariable .resolved id name v)
      (assignVariable .resolved id name' v') := by
  refine .get_bind fun m m' hm => ?_
  obtain ⟨hholder, hname⟩ := holderOf_renamed hm hat hrefers
  rw [hholder]
  cases hj : m.holderOf .resolved id name.text with
  | none =>
    unfold assignIn
    rw [hrefers.line]
    exact twins_raise_renamed hrefers.undefined
  | some j => exact twins_writeSlot (hname j hj) (.some hv)

/-! ### Functions, classes and objects -/

theorem twins_newClosure {inward : Nat} {decl decl' : FunctionDecl} {frame : Nat}
    {isInitializer : Bool} (h : ∀ id, Closure.Renamed r W inward ⟨id, decl, frame, isInitializer⟩
      ⟨id, decl', frame, isInitializer⟩) :
    Twins r W i (fun W' => Closure.Renamed r W' inward) (newClosure decl frame isInitializer)
      (newClosure decl' frame isInitializer) := by
  intro m m' hm
  refine .ok (List.prefix_refl W) ?_ { hm with closures := congrArg (· + 1) hm.closures }
  rw [hm.closures]
  exact h m.closures

/-- Tables of methods that correspond to each other. -/
def MethodsRenamed (r : Renaming) (W : Layout) (table table' : Bindings Closure) : Prop :=
  ∀ name, Option.Rel (Closure.Renamed r W 1) (table.get? name) (table'.get? name)

theorem twins_newClass (name : String) (superclass : Option Nat) {table table' : Bindings Closure}
    (htable : MethodsRenamed r W table table') : Twins r W i (fun _ => Eq)
      (newClass ⟨name, superclass, table⟩) (newClass ⟨name, superclass, table'⟩) := by
  intro m m' hm
  exact .ok (List.prefix_refl W) hm.classCount.symm
    { hm.tables.newClass name superclass htable, hm with }

theorem twins_newObject (c : Nat) : Twins r W i (fun _ => Eq) (newObject c) (newObject c) := by
  intro m m' hm
  exact .ok (List.prefix_refl W) hm.objectCount.symm { hm.tables.newObject c, hm with }

theorem twins_setField (o : Nat) (name : String) {v v' : Value} (hv : Value.Renamed r W v v') :
    Twins r W i (fun _ _ _ => True) (setField o name v) (setField o name v') := by
  exact .modified fun m m' hm => { hm.tables.setField o name hv, hm with }

/-- A method to which a receiver is bound stands where its frame stands. -/
theorem twins_bindReceiver (hr : r.IsLocal) {f f' : Closure} (hf : Closure.Renamed r W 1 f f')
    {v v' : Value} (hv : Value.Renamed r W v v') :
    Twins r W i (fun W' => Closure.Renamed r W' 0) (bindReceiver f v) (bindReceiver f' v') := by
  unfold bindReceiver
  rw [hf.frame, hf.isInitializer]
  refine (twins_newFrame f.frame false).bind fun W₁ k k' hW₁ hk => ?_
  obtain ⟨rfl, hshape⟩ := hk
  have hthis : "this" = Layout.word r W₁ k' "this" := (Layout.word_keyword hr k' .thisWord).symm
  refine (twins_writeSlot hthis (.some (hv.mono hW₁))).bind fun W₂ _ _ hW₂ _ => ?_
  obtain ⟨g, depth, hat, hdepth, hdecl⟩ := hf.decl
  have hat₂ := (Layout.At.inside hshape (hat.mono hW₁)).mono hW₂
  refine twins_newClosure fun id => ⟨rfl, rfl, rfl, ⟨g, _, hat₂, ?_, hdecl⟩, hf.pair⟩
  rw [hdepth, Option.map_map]
  rfl

theorem twins_asObject {v v' : Value} (hv : Value.Renamed r W v v') (what : String) (line : Nat) :
    Twins r W i (fun _ => Eq) (asObject v what line) (asObject v' what line) := by
  cases hv with
  | function hf => exact twins_raise rfl line
  | other hv =>
    cases v with
    | object o => exact .pure rfl
    | _ => exact twins_raise rfl line

/-- A method that is found is bound; otherwise the property is not there. -/
theorem twins_bindFound (hr : r.IsLocal) (found found' : Option Closure) (v v' : Value) (name : Name) :
    Option.Rel (Closure.Renamed r W 1) found found' → Value.Renamed r W v v' →
    Twins r W i (Value.Renamed r)
      (match found with
        | some f => do return .function (← bindReceiver f v)
        | none => raise (.undefinedProperty name.text) name.line)
      (match found' with
        | some f => do return .function (← bindReceiver f v')
        | none => raise (.undefinedProperty name.text) name.line) := by
  intro hfound hv
  cases hfound with
  | some hf => exact (twins_bindReceiver hr hf hv).bind fun _ _ _ _ hf => .pure (.function hf)
  | none => exact twins_raise rfl name.line

theorem twins_property (hr : r.IsLocal) (o : Nat) (name : Name) :
    Twins r W i (Value.Renamed r) (property o name) (property o name) := by
  refine .get_bind fun m m' hm => ?_
  have hfield := hm.field o name.text
  generalize m.field? o name.text = v, m'.field? o name.text = v' at hfield
  cases hfield with
  | some hv => exact .pure hv
  | none =>
    refine twins_bindFound hr _ _ _ _ name ?_ (.object o)
    rw [hm.classOf]
    cases m.classOf? o with
    | none => exact .none
    | some c => exact hm.tables.findMethod? c name.text

/-- What stands under a reserved word in the frame at a distance. -/
theorem twins_checked_getAt (hr : r.IsLocal) {fs fs' : Frames} (h : Frames.Renamed r W fs fs')
    (hW : W <+: W') (j distance : Nat) (k : Keyword) (line : Nat) :
    Twins r W' i (Value.Renamed r) (checked line (fs.getAt j distance k.text))
      (checked line (fs'.getAt j distance k.text)) := by
  have hrefers := Renaming.Refers.keyword hr none 0 k line
  have hword (j : Nat) : k.text = W.word r j k.text := (Layout.word_keyword hr j k).symm
  rw [Frames.getAt, Frames.getAt, h.holderAt? (hword _)]
  exact twins_checked_readIn h hW (fun j _ => hword j) hrefers.undefined hrefers.unassigned

theorem twins_superMethod (hr : r.IsLocal) (id line : Nat) (method : Name) :
    Twins r W i (Value.Renamed r) (superMethod id line method) (superMethod id line method) := by
  refine .get_bind fun m m' hm => ?_
  rw [hm.distances, hm.distances', hm.current, hm.current']
  cases r.distances.get? id with
  | none => exact twins_raise_renamed (Renaming.Refers.keyword hr none 0 .superWord line).undefined
  | some distance =>
    refine (twins_checked_getAt hr hm.frames (List.prefix_refl W) i distance .superWord line).bind
      fun W₁ parent parent' hW₁ hparent => ?_
    refine (twins_checked_getAt hr hm.frames hW₁ i (distance - 1) .thisWord line).bind
      fun W₂ receiver receiver' hW₂ hreceiver => ?_
    cases hparent with
    | function hf => exact twins_raise rfl line
    | other hother =>
      cases parent with
      | cls c =>
        have hfound := optionRel_imp (fun _ _ hf => hf.mono (hW₁.trans hW₂))
          (hm.tables.findMethod? c method.text)
        exact twins_bindFound hr _ _ receiver receiver' method hfound hreceiver
      | _ => exact twins_raise rfl line

/-! ### Built-in functions -/

/-- The same line is read off both machines. -/
theorem twins_readLine (line : Nat) :
    Twins r W i (Value.Renamed r) (readLine line) (readLine line) := by
  rw [readLine_eq]
  refine .get_bind fun m m' hm => ?_
  rw [hm.input]
  refine Twins.bind (R := fun _ _ _ => True)
    (fun _ _ _ => .ok (List.prefix_refl W) trivial { hm with input := rfl }) fun _ _ _ _ _ => ?_
  cases (Line.read m.input).1 with
  | ended => exact .pure .nil
  | malformed => exact twins_raise rfl line
  | text t => exact .pure (.string _)

theorem twins_writeValue {v v' : Value} (hv : Value.Renamed r W v v') (ending : String) :
    Twins r W i (Value.Renamed r) (writeValue v ending) (writeValue v' ending) := by
  refine Twins.bind (R := fun _ _ _ => True) (.modified fun m m' hm => ?_) fun _ _ _ _ _ =>
    .pure .nil
  rw [hm.tables.text hv.alike]
  exact { hm with output := congrArg (· ++ _) hm.output }

theorem twins_readClock : Twins r W i (Value.Renamed r) readClock readClock := by
  intro m m' hm
  refine .ok (List.prefix_refl W) ?_ { hm with readings := congrArg (· + 1) hm.readings }
  rw [hm.clock, hm.readings]
  exact .number _

theorem twins_native (n : Native) {arguments arguments' : List Value}
    (h : List.Forall₂ (Value.Renamed r W) arguments arguments') (line : Nat) :
    Twins r W i (Value.Renamed r) (n.run arguments line) (n.run arguments' line) := by
  have hhead : Value.Renamed r W (arguments.headD .nil) (arguments'.headD .nil) := by
    cases h with
    | nil => exact .nil
    | cons hv _ => exact hv
  cases n with
  | clock => exact twins_readClock
  | print => exact twins_writeValue hhead ""
  | printLine => exact twins_writeValue hhead "\n"
  | readLine => exact twins_readLine line

end Run

end Treewalk
