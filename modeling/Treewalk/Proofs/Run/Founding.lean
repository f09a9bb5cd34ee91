import Treewalk.Proofs.Relocation.Operations
import Treewalk.Proofs.Run.Declaring
import Treewalk.Proofs.Run.Tracking

/-!
# What is on the machine has been made

Every class on the machine has been made by a declaration to which a run has come, and looks as that
declaration says. Every object that is stored in a variable or in a field is there, so that an object
that is made next is stored nowhere.

This is kept by every operation, and it passes from the parts of a computation to the whole.

## Main definitions

* `Value.Known`: values that are no objects, or objects that are there.
* `Machine.Founded`: machines on which everything has been made.
* `Upholds`: computations with the same outcome that keep a machine founded.

## Main results

* `Upholds.bind`, `Upholds.within`: computations one after the other, and in another frame.
* `Upholds.declareClass`: the declaration of a class to which a run has come.
-/

namespace Treewalk

/-- A value is no object, or one of a number of objects. -/
def Value.Known (objects : Nat) : Value → Prop
  | .object o => o < objects
  | _ => True

theorem Value.Known.mono {n n' : Nat} {v : Value} (h : v.Known n) (hle : n ≤ n') : v.Known n' := by
  cases v with
  | object o => exact Nat.lt_of_lt_of_le h hle
  | _ => trivial

/-- Everything on the machine has been made. -/
structure Machine.Founded (came : Node → Machine → Prop) (m : Machine) : Prop where
  classes : ∀ c < m.classes.size, ∃ δ : Declaration came, m.DeclaredBy c δ
  slots : ∀ i name v, m.frames.slot? i name = some (some v) → v.Known m.objects.size
  fields : ∀ i name v, m.field? i name = some v → v.Known m.objects.size

namespace Machine.Founded

variable {came : Node → Machine → Prop} {m m' : Machine}

theorem classes_of_eq (h : m.Founded came) (hclasses : m'.classes = m.classes) :
    ∀ c < m'.classes.size, ∃ δ : Declaration came, m'.DeclaredBy c δ := by
  intro c hc
  rw [hclasses] at hc
  obtain ⟨δ, hmade, hinfo⟩ := h.classes c hc
  exact ⟨δ, hmade, hclasses ▸ hinfo⟩

/-- Only frames, classes and objects matter. -/
theorem of_tables (h : m.Founded came) (hframes : m'.frames = m.frames)
    (hclasses : m'.classes = m.classes) (hobjects : m'.objects = m.objects) : m'.Founded came where
  classes := h.classes_of_eq hclasses
  slots i name v hv := by
    rw [hframes] at hv
    rw [hobjects]
    exact h.slots i name v hv
  fields i name v hv := by
    rw [field?, hobjects] at hv
    rw [hobjects]
    exact h.fields i name v hv

/-- Frames change, and what is new in them is known. -/
theorem of_frames (h : m.Founded came) {fs : Frames}
    (hslots : ∀ i name v, fs.slot? i name = some (some v) →
      m.frames.slot? i name = some (some v) ∨ v.Known m.objects.size) :
    Founded came { m with frames := fs } where
  classes := h.classes_of_eq rfl
  slots i name v hv := (hslots i name v hv).elim (h.slots i name v) id
  fields := h.fields

theorem write (h : m.Founded came) {i : Nat} {name : String} {slot : Option Value}
    (hslot : ∀ v, slot = some v → v.Known m.objects.size) :
    Founded came { m with frames := m.frames.write i name slot } := by
  refine h.of_frames fun j other v hv => ?_
  rcases Nat.lt_or_ge i m.frames.size with hi | hi
  · rw [m.frames.slot?_write hi] at hv
    split at hv
    · exact .inr (hslot v (Option.some.inj hv))
    · exact .inl hv
  · rw [Frames.slot?_write_of_le hi] at hv
    exact .inl hv

theorem add (h : m.Founded came) (enclosing : Nat) :
    Founded came { m with frames := m.frames.add (some enclosing) } := by
  refine h.of_frames fun i name v hv => .inl ?_
  rw [Frames.slot?_add] at hv
  split at hv
  · cases hv
  · exact hv

theorem addBinding (h : m.Founded came) (enclosing : Nat) (name : String) {v : Value}
    (hv : v.Known m.objects.size) :
    Founded came { m with frames := m.frames.addBinding enclosing name v } := by
  refine h.of_frames fun i other w hw => ?_
  rw [Frames.slot?_addBinding] at hw
  split at hw
  · split at hw
    · cases hw
      exact .inr hv
    · cases hw
  · exact .inl hw

/-- A class is made as its declaration says. -/
theorem addClass (h : m.Founded came) (δ : Declaration came) (hδ : δ.made = m.classes.size) :
    Founded came { m with classes := m.classes.push δ.info } where
  classes c hc := by
    rw [Array.size_push] at hc
    rcases Nat.lt_or_eq_of_le (Nat.le_of_lt_succ hc) with hlt | rfl
    · obtain ⟨δ', hmade, hinfo⟩ := h.classes c hlt
      refine ⟨δ', hmade, ?_⟩
      rwa [Array.getElem?_push, if_neg (Nat.ne_of_lt hlt)]
    · exact ⟨δ, hδ, by simp⟩
  slots := h.slots
  fields := h.fields

/-- An object is made, without fields. -/
theorem addObject (h : m.Founded came) (c : Nat) :
    Founded came { m with objects := m.objects.push ⟨c, []⟩ } where
  classes := h.classes_of_eq rfl
  slots i name v hv := by
    rw [Array.size_push]
    exact (h.slots i name v hv).mono (Nat.le_succ _)
  fields i name v hv := by
    rw [Array.size_push]
    refine (h.fields i name v ?_).mono (Nat.le_succ _)
    simp only [field?, Array.getElem?_push] at hv
    split at hv
    · cases hv
    · exact hv

theorem setField (h : m.Founded came) (i : Nat) (name : String) {v : Value}
    (hv : v.Known m.objects.size) : Founded came { m with
      objects := m.objects.modify i fun o => { o with fields := o.fields.insert name v } } where
  classes := h.classes_of_eq rfl
  slots j other w hw := by
    rw [Array.size_modify]
    exact h.slots j other w hw
  fields j other w hw := by
    rw [Array.size_modify]
    rw [Run.field?_modify] at hw
    split at hw
    · cases hw
      exact hv
    · exact h.fields j other w hw

/-- A value that is read is known. -/
theorem readIn (h : m.Founded came) {holder : Option Nat} {name : String} {v : Value}
    (hv : m.frames.readIn holder name = .ok v) : v.Known m.objects.size := by
  obtain ⟨i, hslot⟩ := Frames.exists_slot?_of_readIn hv
  exact h.slots i name v hslot

/-- More moments keep a machine founded. -/
theorem mono {came' : Node → Machine → Prop} (h : m.Founded came)
    (hcame : ∀ node m, came node m → came' node m) : m.Founded came' where
  classes c hc := by
    obtain ⟨δ, hmade, hinfo⟩ := h.classes c hc
    exact ⟨δ.mono hcame, hmade, hinfo⟩
  slots := h.slots
  fields := h.fields

end Machine.Founded

/-! ### Computations -/

/-- What computations leave that keep a machine founded. Objects are only added. If they answer, then
`Q` holds of the answer and the machine, and the frame is current that was current before. -/
def Uphold {α : Type} (came : Node → Machine → Prop) (m : Machine) (Q : α → Machine → Prop) :
    EStateM.Result Interrupt Machine α → Prop
  | .ok a m' => m'.Founded came ∧ m.objects.size ≤ m'.objects.size ∧ m'.current = m.current ∧ Q a m'
  | .error _ m' => m'.Founded came

/-- Two computations have the same outcome, and they keep a machine founded. -/
structure Upholds {α : Type} (came : Node → Machine → Prop) (x' x : Run α) (m : Machine)
    (Q : α → Machine → Prop) : Prop where
  same : x' m = x m
  leaves : Uphold came m Q (x m)

/-- The values that computations give are known. -/
abbrev Value.KnownOn (v : Value) (m : Machine) : Prop :=
  v.Known m.objects.size

namespace Upholds

variable {α β : Type} {came : Node → Machine → Prop} {m : Machine} {x' x : Run α}
  {Q R : α → Machine → Prop}

theorem ok {a : α} {m' : Machine} (hx' : x' m = .ok a m') (hx : x m = .ok a m')
    (hm' : m'.Founded came) (hsize : m.objects.size ≤ m'.objects.size)
    (hcurrent : m'.current = m.current) (hq : Q a m') : Upholds came x' x m Q :=
  ⟨hx'.trans hx.symm, by rw [hx]; exact ⟨hm', hsize, hcurrent, hq⟩⟩

theorem pure (hm : m.Founded came) {a : α} (hq : Q a m) :
    Upholds came (Pure.pure a) (Pure.pure a) m Q :=
  ok rfl rfl hm (Nat.le_refl _) rfl hq

theorem throw (hm : m.Founded came) (e : Interrupt) :
    Upholds came (MonadExcept.throw e : Run α) (MonadExcept.throw e) m Q :=
  ⟨rfl, hm⟩

theorem raise (hm : m.Founded came) (fault : RuntimeFault) (line : Nat) :
    Upholds came (Run.raise fault line : Run α) (Run.raise fault line) m Q :=
  throw hm _

theorem checked (hm : m.Founded came) (line : Nat) {outcome : Except RuntimeFault α}
    (hq : ∀ a, outcome = .ok a → Q a m) :
    Upholds came (Run.checked line outcome) (Run.checked line outcome) m Q := by
  cases outcome with
  | ok a => exact pure hm (hq a rfl)
  | error fault => exact raise hm fault line

/-- One computation after another. -/
theorem bind {k' k : α → Run β} {R : β → Machine → Prop} (h : Upholds came x' x m Q)
    (hk : ∀ a m', m'.Founded came → m.objects.size ≤ m'.objects.size → m'.current = m.current →
      Q a m' → Upholds came (k' a) (k a) m' R) :
    Upholds came (x' >>= k') (x >>= k) m R := by
  obtain ⟨hsame, hleaves⟩ := h
  cases hx : x m with
  | ok a m' =>
    rw [hx] at hsame hleaves
    obtain ⟨hm', hsize, hcurrent, hq⟩ := hleaves
    have hnext := hk a m' hm' hsize hcurrent hq
    refine ⟨by rw [Run.bind_apply, Run.bind_apply, hsame, hx]; exact hnext.same, ?_⟩
    have hafter := hnext.leaves
    rw [Run.bind_apply, hx]
    change Uphold came m R (k a m')
    cases hk' : k a m' with
    | ok b m'' =>
      rw [hk'] at hafter
      exact ⟨hafter.1, Nat.le_trans hsize hafter.2.1, hafter.2.2.1.trans hcurrent, hafter.2.2.2⟩
    | error e m'' =>
      rw [hk'] at hafter
      exact hafter
  | error e m' =>
    rw [hx] at hsame hleaves
    refine ⟨by rw [Run.bind_apply, Run.bind_apply, hsame, hx], ?_⟩
    rw [Run.bind_apply, hx]
    exact hleaves

/-- The machine is looked at before the rest of a computation. -/
theorem getBind {k' k : Machine → Run α} (h : Upholds came (k' m) (k m) m Q) :
    Upholds came (get >>= k') (get >>= k) m Q :=
  ⟨h.same, h.leaves⟩

theorem currentBind {k' k : Nat → Run α} (h : Upholds came (k' m.current) (k m.current) m Q) :
    Upholds came (Run.currentFrame >>= k') (Run.currentFrame >>= k) m Q :=
  ⟨h.same, h.leaves⟩

theorem ite {c : Prop} [Decidable c] {y' y : Run α} (h : Upholds came x' x m Q)
    (hnot : Upholds came y' y m Q) :
    Upholds came (if c then x' else y') (if c then x else y) m Q := by
  by_cases hc : c
  · simpa only [if_pos hc] using h
  · simpa only [if_neg hc] using hnot

/-- A computation in another frame. What is known of its outcome does not depend on the current
frame. -/
theorem within {i : Nat} (h : Upholds came x' x { m with current := i } Q)
    (hQ : ∀ a m' j, Q a m' → Q a { m' with current := j }) :
    Upholds came (Run.within i x') (Run.within i x) m Q := by
  obtain ⟨hsame, hleaves⟩ := h
  refine ⟨by simp only [Run.within, hsame], ?_⟩
  unfold Run.within
  cases hx : x { m with current := i } with
  | ok a m' =>
    rw [hx] at hleaves
    exact ⟨hleaves.1.of_tables rfl rfl rfl, hleaves.2.1, rfl, hQ a m' m.current hleaves.2.2.2⟩
  | error e m' =>
    rw [hx] at hleaves
    exact Machine.Founded.of_tables hleaves rfl rfl rfl

/-! ### Frames and variables -/

theorem newFrame (hm : m.Founded came) (enclosing : Nat) :
    Upholds came (Run.newFrame enclosing) (Run.newFrame enclosing) m fun _ _ => True :=
  ok rfl rfl (hm.add enclosing) (Nat.le_refl _) rfl trivial

theorem writeSlot (hm : m.Founded came) {i : Nat} {name : String} {slot : Option Value}
    (hslot : ∀ v, slot = some v → v.KnownOn m) :
    Upholds came (Run.writeSlot i name slot) (Run.writeSlot i name slot) m fun _ _ => True :=
  ok rfl rfl (hm.write hslot) (Nat.le_refl _) rfl trivial

theorem define (hm : m.Founded came) {name : String} {v : Value} (hv : v.KnownOn m) :
    Upholds came (Run.define name v) (Run.define name v) m fun _ _ => True :=
  ok rfl rfl (hm.write (by rintro _ ⟨⟩; exact hv)) (Nat.le_refl _) rfl trivial

theorem declare (hm : m.Founded came) (name : String) :
    Upholds came (Run.declare name) (Run.declare name) m fun _ _ => True :=
  ok rfl rfl (hm.write (by rintro _ ⟨⟩)) (Nat.le_refl _) rfl trivial

theorem readVariable (hm : m.Founded came) (lookup : Lookup) (id : Nat) (name : Name) :
    Upholds came (Run.readVariable lookup id name) (Run.readVariable lookup id name) m
      Value.KnownOn :=
  getBind (checked hm _ fun _ hv => hm.readIn hv)

theorem assignIn (hm : m.Founded came) (holder : Option Nat) (name : Name) {v : Value}
    (hv : v.KnownOn m) :
    Upholds came (Run.assignIn holder name v) (Run.assignIn holder name v) m fun _ _ => True := by
  cases holder with
  | none => exact raise hm _ _
  | some i => exact writeSlot hm (by rintro _ ⟨⟩; exact hv)

theorem assignVariable (hm : m.Founded came) (lookup : Lookup) (id : Nat) (name : Name) {v : Value}
    (hv : v.KnownOn m) :
    Upholds came (Run.assignVariable lookup id name v) (Run.assignVariable lookup id name v) m
      fun _ _ => True :=
  getBind (assignIn hm _ name hv)

/-! ### Functions, classes and objects -/

theorem newClosure (hm : m.Founded came) (decl : FunctionDecl) (frame : Nat)
    (isInitializer : Bool) :
    Upholds came (Run.newClosure decl frame isInitializer)
      (Run.newClosure decl frame isInitializer) m fun _ _ => True :=
  ok rfl rfl (hm.of_tables rfl rfl rfl) (Nat.le_refl _) rfl trivial

theorem newObject (hm : m.Founded came) (c : Nat) :
    Upholds came (Run.newObject c) (Run.newObject c) m fun i m' => (Value.object i).KnownOn m' := by
  have hlt : m.objects.size < (m.objects.push (⟨c, []⟩ : ObjectInfo)).size := by
    rw [Array.size_push]
    exact Nat.lt_succ_self _
  exact ok rfl rfl (hm.addObject c) (Nat.le_of_lt hlt) rfl hlt

theorem setField (hm : m.Founded came) (i : Nat) (name : String) {v : Value} (hv : v.KnownOn m) :
    Upholds came (Run.setField i name v) (Run.setField i name v) m fun _ _ => True :=
  ok rfl rfl (hm.setField i name hv) (Nat.le_of_eq Array.size_modify.symm) rfl trivial

theorem bindReceiver (hm : m.Founded came) (f : Closure) {receiver : Value}
    (hreceiver : receiver.KnownOn m) :
    Upholds came (Run.bindReceiver f receiver) (Run.bindReceiver f receiver) m fun _ _ => True :=
  ok rfl rfl ((hm.addBinding f.frame "this" hreceiver).of_tables rfl rfl rfl) (Nat.le_refl _) rfl
    trivial

theorem asObject (hm : m.Founded came) {v : Value} (hv : v.KnownOn m) (what : String)
    (line : Nat) :
    Upholds came (Run.asObject v what line) (Run.asObject v what line) m
      fun i m' => (Value.object i).KnownOn m' := by
  cases v with
  | object i => exact pure hm hv
  | _ => exact raise hm _ _

/-- A method that is found is bound; otherwise there is a fault. -/
theorem bindFound (hm : m.Founded came) {x : Run Value} {found : Option Closure} {receiver : Value}
    {fault : RuntimeFault} {line : Nat} (hx : x = match found with
      | some f => do return .function (← Run.bindReceiver f receiver)
      | none => Run.raise fault line)
    (hreceiver : receiver.KnownOn m) : Upholds came x x m Value.KnownOn := by
  subst hx
  cases found with
  | some f => exact (bindReceiver hm f hreceiver).bind fun g m' hm' _ _ _ => pure hm' trivial
  | none => exact raise hm fault line

theorem property (hm : m.Founded came) {i : Nat} (hi : (Value.object i).KnownOn m) (name : Name) :
    Upholds came (Run.property i name) (Run.property i name) m Value.KnownOn := by
  refine getBind ?_
  cases hfield : m.field? i name.text with
  | some v => exact pure hm (hm.fields i name.text v hfield)
  | none => exact bindFound hm rfl hi

theorem superMethod (hm : m.Founded came) (id line : Nat) (method : Name) :
    Upholds came (Run.superMethod id line method) (Run.superMethod id line method) m
      Value.KnownOn := by
  refine getBind ?_
  cases m.distances.get? id with
  | none => exact raise hm _ _
  | some distance =>
    have hread (i : Nat) (name : String) : Upholds came
        (Run.checked line (m.frames.getAt m.current i name)) (Run.checked line _) m
        fun v m' => m' = m ∧ v.KnownOn m :=
      checked hm line fun _ hv => ⟨rfl, hm.readIn hv⟩
    refine (hread distance "super").bind fun parent m₁ _ _ _ h₁ => ?_
    obtain ⟨rfl, -⟩ := h₁
    refine (hread (distance - 1) "this").bind fun receiver m₂ _ _ _ h₂ => ?_
    obtain ⟨rfl, hreceiver⟩ := h₂
    cases parent with
    | cls c => exact bindFound hm rfl hreceiver
    | _ => exact raise hm _ _

theorem asSuperclass (hm : m.Founded came) (v : Value) (line : Nat) :
    Upholds came (asSuperclass v line) (asSuperclass v line) m
      fun c m' => v = .cls c ∧ m' = m := by
  cases v with
  | cls c => exact pure hm ⟨rfl, rfl⟩
  | _ => exact raise hm _ _

/-- The declaration of a class to which a run has come, on the machine on which it begins. -/
theorem declareClass (δ : Declaration came) (hm : δ.start.Founded came) :
    Upholds came (declareClass δ.name δ.parent δ.methods)
      (declareClass δ.name δ.parent δ.methods) δ.start fun _ _ => True := by
  have hnil : Value.nil.Known δ.start.objects.size := trivial
  have hdefine : Machine.Founded came
      { δ.start with frames := δ.start.frames.define δ.start.current δ.name.text .nil } :=
    hm.write (by rintro _ ⟨⟩; exact hnil)
  have hmade : (δ.start.declaring δ.name δ.parent δ.methods).Founded came := by
    refine Machine.Founded.addClass (m := { δ.start.declaring δ.name δ.parent δ.methods with
      classes := δ.start.classes }) ?_ δ rfl
    rw [Machine.declaring]
    cases δ.parent with
    | none => exact hdefine.of_tables rfl rfl rfl
    | some c =>
      have hcls : (Value.cls c).Known δ.start.objects.size := trivial
      exact (hdefine.addBinding δ.start.current "super" hcls).of_tables rfl rfl rfl
  have hassign := assignIn hmade
    ((δ.start.declaring δ.name δ.parent δ.methods).frames.holder? δ.start.current δ.name.text)
    δ.name (v := .cls δ.start.classes.size) trivial
  refine ⟨rfl, ?_⟩
  rw [declareClass_apply]
  exact hassign.leaves

/-! ### Built-in functions -/

/-- What a computation does outside of the tables makes nothing. -/
theorem outside (hm : m.Founded came) {a : α} {m' : Machine} (hx : x m = .ok a m')
    (hm' : m' = { m with input := m'.input, output := m'.output, readings := m'.readings })
    (hq : Q a m') : Upholds came x x m Q := by
  refine ok hx hx ?_ ?_ ?_ hq
  · rw [hm']
    exact hm.of_tables rfl rfl rfl
  · rw [hm']
  · rw [hm']

theorem readLine (hm : m.Founded came) (line : Nat) :
    Upholds came (Run.readLine line) (Run.readLine line) m Value.KnownOn := by
  rw [Run.readLine_eq]
  refine getBind ?_
  have hset : Upholds came (set { m with input := (Line.read m.input).2 } : Run PUnit) _ m
      fun _ _ => True :=
    outside hm rfl rfl trivial
  refine hset.bind fun _ m' hm' _ _ _ => ?_
  cases (Line.read m.input).1 with
  | ended => exact pure hm' trivial
  | malformed => exact raise hm' _ _
  | text t => exact pure hm' trivial

theorem native (hm : m.Founded came) (n : Native) (arguments : List Value) (line : Nat) :
    Upholds came (n.run arguments line) (n.run arguments line) m Value.KnownOn := by
  cases n with
  | clock => exact outside hm rfl rfl trivial
  | print => exact outside hm rfl rfl trivial
  | printLine => exact outside hm rfl rfl trivial
  | readLine => exact readLine hm line

end Upholds

end Treewalk
