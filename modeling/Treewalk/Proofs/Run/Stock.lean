import Treewalk.Proofs.Run.Restoration
import Treewalk.Proofs.Run.Tracking
import Treewalk.Proofs.Scope.Rules

/-!
# What programs put on the machine

Every function on the machine comes from a declaration in one of the programs that were run, and it is
an initializer just if it is the method `init` of a class. The global frame holds only the built-in
functions and names that these programs declare outside of all local scopes.

This is kept by every step, on any machine and wherever names are looked up, since no step makes
functions or names but those of a declaration.

## Main definitions

* `FunctionDecl.DeclaredIn`: the declarations in programs.
* `Stock`, `Machine.Stocks`: what may be stored, and machines that store nothing else.
* `Abides`: computations with the same outcome that store nothing else.

## Main results

* `Abides.bind`, `Abides.within`: computations one after the other, and in another frame.
* `Abides.define`, `Abides.assignIn`, `Abides.bindReceiver`: the operations of the machine.
-/

namespace Treewalk

/-! ### Programs -/

/-- A node of one of some programs, with the nodes around it. -/
def OccursIn (bodies : List (List Stmt)) (above : List Node) (node : Node) : Prop :=
  ∃ body ∈ bodies, Occurs body above node

theorem OccursIn.child {bodies : List (List Stmt)} {above : List Node} {node inner : Node}
    (h : OccursIn bodies above node) (hinner : inner ∈ node.children) :
    OccursIn bodies (node :: above) inner := by
  obtain ⟨body, hbody, hoccurs⟩ := h
  exact ⟨body, hbody, hoccurs.child hinner⟩

/-- The declarations in programs, with whether they declare initializers. -/
inductive FunctionDecl.DeclaredIn (bodies : List (List Stmt)) : FunctionDecl → Bool → Prop
  /-- A function is no initializer, whatever its name. -/
  | function {above : List Node} {decl : FunctionDecl}
      (h : OccursIn bodies above (.stmt (.function decl))) : DeclaredIn bodies decl false
  /-- A method is an initializer by its name. -/
  | method {above : List Node} {name : Name} {superclass : Option Superclass}
      {methods : List FunctionDecl} {decl : FunctionDecl}
      (h : OccursIn bodies above (.stmt (.class name superclass methods)))
      (hdecl : decl ∈ methods) : DeclaredIn bodies decl (decl.name.text == initializerName)

/-- What a machine may store: functions, with whether they are initializers, and global names. -/
structure Stock where
  functions : FunctionDecl → Bool → Prop
  globals : String → Prop

/-- What programs may store: functions that they declare, and global names that are built in or that
they declare outside of local scopes. -/
def stockOf (bodies : List (List Stmt)) : Stock where
  functions decl isInitializer := decl.DeclaredIn bodies isInitializer
  globals name := (∃ n : Native, n.name = name) ∨
    ∃ above s, OccursIn bodies above (.stmt s) ∧ ¬ above.any Node.opensScope ∧
      name ∈ s.declared.map Name.text

theorem OccursIn.mono {bodies : List (List Stmt)} {body : List Stmt} {above : List Node}
    {node : Node} (h : OccursIn bodies above node) : OccursIn (body :: bodies) above node := by
  obtain ⟨b, hb, hoccurs⟩ := h
  exact ⟨b, List.mem_cons_of_mem body hb, hoccurs⟩

/-! ### Machines -/

section Machines

variable (K : Stock)

/-- A function that may be stored. -/
def Closure.Stocked (f : Closure) : Prop :=
  K.functions f.decl f.isInitializer

/-- A value is no function, or one that may be stored. -/
def Value.Stocked : Value → Prop
  | .function f => f.Stocked K
  | _ => True

/-- A machine that stores only what may be stored. -/
structure Machine.Stocks (m : Machine) : Prop where
  global : globalFrame < m.frames.size
  names : ∀ name, m.frames.holds globalFrame name → K.globals name
  slots : ∀ i name v, m.frames.slot? i name = some (some v) → v.Stocked K
  fields : ∀ i name v, m.field? i name = some v → v.Stocked K
  methods : ∀ c name f, m.ownMethod? c name = some f → f.Stocked K

end Machines

variable {K : Stock}

namespace Machine.Stocks

variable {m m' : Machine}

/-- Only frames, classes and objects matter. -/
theorem of_tables (h : m.Stocks K) (hframes : m'.frames = m.frames)
    (hclasses : m'.classes = m.classes) (hobjects : m'.objects = m.objects) : m'.Stocks K where
  global := hframes ▸ h.global
  names := hframes ▸ h.names
  slots := hframes ▸ h.slots
  fields i name v hv := h.fields i name v (by rwa [field?, hobjects] at hv)
  methods c name f hf := h.methods c name f (by rwa [ownMethod?, hclasses] at hf)

/-- A slot is written. In the global frame it has a name that may be global or is there already. -/
theorem write (h : m.Stocks K) {i : Nat} {name : String} {slot : Option Value}
    (hname : i = globalFrame → K.globals name ∨ m.frames.holds i name)
    (hslot : ∀ v, slot = some v → v.Stocked K) :
    Stocks K { m with frames := m.frames.write i name slot } := by
  refine ⟨?_, fun other hother => ?_, fun j other v hv => ?_, h.fields, h.methods⟩
  · exact (m.frames.size_write i name slot).symm ▸ h.global
  · rcases Nat.lt_or_ge i m.frames.size with hi | hi
    · rcases (m.frames.holds_write hi globalFrame name other slot).mp hother with
        ⟨rfl, rfl⟩ | hother
      · exact (hname rfl).elim id (h.names name)
      · exact h.names other hother
    · rw [Frames.holds, Frames.slot?_write_of_le hi] at hother
      exact h.names other hother
  · rcases Nat.lt_or_ge i m.frames.size with hi | hi
    · rw [m.frames.slot?_write hi] at hv
      split at hv
      · exact hslot v (Option.some.inj hv)
      · exact h.slots j other v hv
    · rw [Frames.slot?_write_of_le hi] at hv
      exact h.slots j other v hv

theorem add (h : m.Stocks K) (enclosing : Nat) :
    Stocks K { m with frames := m.frames.add (some enclosing) } := by
  refine ⟨?_, fun name hname => ?_, fun i name v hv => ?_, h.fields, h.methods⟩
  · exact (m.frames.size_add (some enclosing)).symm ▸ Nat.lt_succ_of_lt h.global
  · rw [Frames.holds, Frames.slot?_add, if_neg (Nat.ne_of_lt h.global)] at hname
    exact h.names name hname
  · rw [Frames.slot?_add] at hv
    split at hv
    · cases hv
    · exact h.slots i name v hv

/-- The method that is found is one of some class. -/
theorem findMethod? (h : m.Stocks K) {c : Nat} {name : String} {f : Closure}
    (hf : m.findMethod? c name = some f) : f.Stocked K := by
  obtain ⟨c', _, hf⟩ := List.exists_of_findSome?_eq_some hf
  exact h.methods c' name f hf

/-- A value that is read is stored. -/
theorem readIn (h : m.Stocks K) {holder : Option Nat} {name : String} {v : Value}
    (hv : m.frames.readIn holder name = .ok v) : v.Stocked K := by
  obtain ⟨i, hslot⟩ := Frames.exists_slot?_of_readIn hv
  exact h.slots i name v hslot

end Machine.Stocks

/-! ### Computations -/

/-- What computations leave that store only what may be stored. If they answer, then `Q` holds of the
answer, and the frame is current that was current before. -/
def Supplied {α : Type} (K : Stock) (current : Nat) (Q : α → Prop) :
    EStateM.Result Interrupt Machine α → Prop
  | .ok a m => m.Stocks K ∧ m.current = current ∧ Q a
  | .error _ m => m.Stocks K

/-- Two computations have the same outcome, and they store only what may be stored. -/
structure Abides {α : Type} (K : Stock) (x' x : Run α) (m : Machine) (Q : α → Prop) : Prop where
  same : x' m = x m
  supplied : Supplied K m.current Q (x m)

namespace Abides

variable {α β : Type} {m : Machine} {x' x : Run α} {Q : α → Prop}

theorem ok {a : α} {m' : Machine} (hx' : x' m = .ok a m') (hx : x m = .ok a m') (hm' : m'.Stocks K)
    (hcurrent : m'.current = m.current) (hq : Q a) : Abides K x' x m Q :=
  ⟨hx'.trans hx.symm, by rw [hx]; exact ⟨hm', hcurrent, hq⟩⟩

theorem pure (hm : m.Stocks K) {a : α} (hq : Q a) : Abides K (Pure.pure a) (Pure.pure a) m Q :=
  ok rfl rfl hm rfl hq

theorem throw (hm : m.Stocks K) (e : Interrupt) :
    Abides K (MonadExcept.throw e : Run α) (MonadExcept.throw e) m Q :=
  ⟨rfl, hm⟩

theorem raise (hm : m.Stocks K) (fault : RuntimeFault) (line : Nat) :
    Abides K (Run.raise fault line : Run α) (Run.raise fault line) m Q :=
  throw hm _

theorem checked (hm : m.Stocks K) (line : Nat) {outcome : Except RuntimeFault α}
    (hq : ∀ a, outcome = .ok a → Q a) :
    Abides K (Run.checked line outcome) (Run.checked line outcome) m Q := by
  cases outcome with
  | ok a => exact pure hm (hq a rfl)
  | error fault => exact raise hm fault line

/-- One computation after another. -/
theorem bind {k' k : α → Run β} {R : β → Prop} (h : Abides K x' x m Q)
    (hk : ∀ a m', m'.Stocks K → m'.current = m.current → Q a → Abides K (k' a) (k a) m' R) :
    Abides K (x' >>= k') (x >>= k) m R := by
  obtain ⟨hsame, hsupplied⟩ := h
  cases hx : x m with
  | ok a m' =>
    rw [hx] at hsame hsupplied
    obtain ⟨hm', hcurrent, hq⟩ := hsupplied
    have hnext := hk a m' hm' hcurrent hq
    constructor
    · rw [Run.bind_apply, Run.bind_apply, hsame, hx]
      exact hnext.same
    · rw [Run.bind_apply, hx, ← hcurrent]
      exact hnext.supplied
  | error e m' =>
    rw [hx] at hsame hsupplied
    constructor
    · rw [Run.bind_apply, Run.bind_apply, hsame, hx]
    · rw [Run.bind_apply, hx]
      exact hsupplied

/-- The machine is looked at before the rest of a computation. -/
theorem getBind {k' k : Machine → Run α} (h : Abides K (k' m) (k m) m Q) :
    Abides K (get >>= k') (get >>= k) m Q :=
  ⟨h.same, h.supplied⟩

theorem currentBind {k' k : Nat → Run α} (h : Abides K (k' m.current) (k m.current) m Q) :
    Abides K (Run.currentFrame >>= k') (Run.currentFrame >>= k) m Q :=
  ⟨h.same, h.supplied⟩

theorem ite {c : Prop} [Decidable c] {y' y : Run α} (h : Abides K x' x m Q)
    (hnot : Abides K y' y m Q) :
    Abides K (if c then x' else y') (if c then x else y) m Q := by
  by_cases hc : c
  · simpa only [if_pos hc] using h
  · simpa only [if_neg hc] using hnot

theorem within {i : Nat} (h : Abides K x' x { m with current := i } Q) :
    Abides K (Run.within i x') (Run.within i x) m Q := by
  obtain ⟨hsame, hsupplied⟩ := h
  refine ⟨by simp only [Run.within, hsame], ?_⟩
  unfold Run.within
  cases hx : x { m with current := i } with
  | ok a m' =>
    rw [hx] at hsupplied
    exact ⟨hsupplied.1.of_tables rfl rfl rfl, rfl, hsupplied.2.2⟩
  | error e m' =>
    rw [hx] at hsupplied
    exact Machine.Stocks.of_tables hsupplied rfl rfl rfl

/-! ### Frames and variables -/

/-- A new frame is not the global one. -/
theorem newFrame (hm : m.Stocks K) (enclosing : Nat) :
    Abides K (Run.newFrame enclosing) (Run.newFrame enclosing) m (· ≠ globalFrame) :=
  ok rfl rfl (hm.add enclosing) rfl (Nat.ne_of_gt hm.global)

theorem writeSlot (hm : m.Stocks K) {i : Nat} {name : String} {slot : Option Value}
    (hname : i = globalFrame → K.globals name ∨ m.frames.holds i name)
    (hslot : ∀ v, slot = some v → v.Stocked K) :
    Abides K (Run.writeSlot i name slot) (Run.writeSlot i name slot) m fun _ => True :=
  ok rfl rfl (hm.write hname hslot) rfl trivial

theorem define (hm : m.Stocks K) {name : String} {v : Value}
    (hname : m.current = globalFrame → K.globals name) (hv : v.Stocked K) :
    Abides K (Run.define name v) (Run.define name v) m fun _ => True :=
  ok rfl rfl (hm.write (fun h => .inl (hname h)) (by rintro _ ⟨⟩; exact hv)) rfl trivial

theorem declare (hm : m.Stocks K) {name : String}
    (hname : m.current = globalFrame → K.globals name) :
    Abides K (Run.declare name) (Run.declare name) m fun _ => True :=
  ok rfl rfl (hm.write (fun h => .inl (hname h)) fun _ hv => nomatch hv) rfl trivial

theorem readVariable (hm : m.Stocks K) (lookup : Lookup) (id : Nat) (name : Name) :
    Abides K (Run.readVariable lookup id name) (Run.readVariable lookup id name) m
      (Value.Stocked K) :=
  getBind (checked hm _ fun _ hv => hm.readIn hv)

/-- Assigning to a name where it is held makes no name. -/
theorem assignIn (hm : m.Stocks K) {holder : Option Nat} {name : Name} {v : Value}
    (hholder : ∀ i, holder = some i → m.frames.holds i name.text) (hv : v.Stocked K) :
    Abides K (Run.assignIn holder name v) (Run.assignIn holder name v) m fun _ => True := by
  cases holder with
  | none => exact raise hm _ _
  | some i => exact writeSlot hm (fun _ => .inr (hholder i rfl)) (by rintro _ ⟨⟩; exact hv)

theorem assignVariable (hm : m.Stocks K) (lookup : Lookup) (id : Nat) (name : Name) {v : Value}
    (hv : v.Stocked K) :
    Abides K (Run.assignVariable lookup id name v) (Run.assignVariable lookup id name v) m
      fun _ => True :=
  getBind (assignIn hm (fun _ => Tracks.holds_of_holderOf) hv)

/-! ### Functions, classes and objects -/

theorem newClosure (hm : m.Stocks K) {decl : FunctionDecl} {isInitializer : Bool}
    (h : K.functions decl isInitializer) (frame : Nat) :
    Abides K (Run.newClosure decl frame isInitializer) (Run.newClosure decl frame isInitializer) m
      (Closure.Stocked K) :=
  ok rfl rfl (hm.of_tables rfl rfl rfl) rfl h

theorem newClass (hm : m.Stocks K) {info : ClassInfo}
    (h : ∀ name f, info.methods.get? name = some f → f.Stocked K) :
    Abides K (Run.newClass info) (Run.newClass info) m fun _ => True := by
  refine ok rfl rfl ⟨hm.global, hm.names, hm.slots, hm.fields, fun c name f hf => ?_⟩ rfl trivial
  simp only [Machine.ownMethod?, Array.getElem?_push] at hf
  split at hf
  · exact h name f hf
  · exact hm.methods c name f hf

theorem newObject (hm : m.Stocks K) (c : Nat) :
    Abides K (Run.newObject c) (Run.newObject c) m fun _ => True := by
  refine ok rfl rfl ⟨hm.global, hm.names, hm.slots, fun i name v hv => ?_, hm.methods⟩ rfl trivial
  simp only [Machine.field?, Array.getElem?_push] at hv
  split at hv
  · cases hv
  · exact hm.fields i name v hv

theorem setField (hm : m.Stocks K) (i : Nat) (name : String) {v : Value} (hv : v.Stocked K) :
    Abides K (Run.setField i name v) (Run.setField i name v) m fun _ => True := by
  refine ok rfl rfl ⟨hm.global, hm.names, hm.slots, fun j other w hw => ?_, hm.methods⟩ rfl trivial
  rw [Run.field?_modify] at hw
  split at hw
  · cases hw
    exact hv
  · exact hm.fields j other w hw

theorem bindReceiver (hm : m.Stocks K) {f : Closure} {receiver : Value} (hf : f.Stocked K)
    (hreceiver : receiver.Stocked K) :
    Abides K (Run.bindReceiver f receiver) (Run.bindReceiver f receiver) m (Closure.Stocked K) := by
  refine (newFrame hm f.frame).bind fun i m₁ hm₁ _ hi => ?_
  have hwrite : Abides K (Run.writeSlot i "this" (some receiver)) _ m₁ fun _ => True :=
    writeSlot hm₁ (fun h => absurd h hi) (by rintro _ ⟨⟩; exact hreceiver)
  exact hwrite.bind fun _ m₂ hm₂ _ _ => newClosure hm₂ hf i

theorem asObject (hm : m.Stocks K) (v : Value) (what : String) (line : Nat) :
    Abides K (Run.asObject v what line) (Run.asObject v what line) m fun _ => True := by
  cases v with
  | object i => exact pure hm trivial
  | _ => exact raise hm _ _

/-- A method that is found is bound; otherwise there is a fault. -/
theorem bindFound (hm : m.Stocks K) {x : Run Value} {found : Option Closure} {receiver : Value}
    {fault : RuntimeFault} {line : Nat} (hx : x = match found with
      | some f => do return .function (← Run.bindReceiver f receiver)
      | none => Run.raise fault line)
    (hfound : ∀ f, found = some f → f.Stocked K) (hreceiver : receiver.Stocked K) :
    Abides K x x m (Value.Stocked K) := by
  subst hx
  cases found with
  | some f =>
    exact (bindReceiver hm (hfound f rfl) hreceiver).bind fun g m' hm' _ hg => pure hm' hg
  | none => exact raise hm fault line

theorem property (hm : m.Stocks K) (i : Nat) (name : Name) :
    Abides K (Run.property i name) (Run.property i name) m (Value.Stocked K) := by
  refine getBind ?_
  cases hfield : m.field? i name.text with
  | some v => exact pure hm (hm.fields i name.text v hfield)
  | none =>
    refine bindFound hm rfl (fun f hf => ?_) trivial
    obtain ⟨c, -, hf⟩ := Option.bind_eq_some_iff.mp hf
    exact hm.findMethod? hf

theorem superMethod (hm : m.Stocks K) (id line : Nat) (method : Name) :
    Abides K (Run.superMethod id line method) (Run.superMethod id line method) m
      (Value.Stocked K) := by
  refine getBind ?_
  cases m.distances.get? id with
  | none => exact raise hm _ _
  | some distance =>
    refine (checked hm line fun _ hv => hm.readIn hv).bind fun parent m₁ hm₁ _ _ => ?_
    refine (checked hm₁ line fun _ hv => hm.readIn hv).bind fun receiver m₂ hm₂ _ hreceiver => ?_
    cases parent with
    | cls c => exact bindFound hm₂ rfl (fun f hf => hm.findMethod? hf) hreceiver
    | _ => exact raise hm₂ _ _

/-! ### Built-in functions -/

/-- What a computation does outside of the tables stores nothing. -/
theorem outside (hm : m.Stocks K) {x : Run α} {a : α} {m' : Machine} (hx : x m = .ok a m')
    (hm' : m' = { m with input := m'.input, output := m'.output, readings := m'.readings })
    (hq : Q a) : Abides K x x m Q := by
  refine ok hx hx ?_ ?_ hq
  · rw [hm']
    exact hm.of_tables rfl rfl rfl
  · rw [hm']

theorem readLine (hm : m.Stocks K) (line : Nat) :
    Abides K (Run.readLine line) (Run.readLine line) m (Value.Stocked K) := by
  rw [Run.readLine_eq]
  refine getBind ?_
  have hset : Abides K (set { m with input := (Line.read m.input).2 } : Run PUnit) _ m
      fun _ => True :=
    outside hm rfl rfl trivial
  refine hset.bind fun _ m' hm' _ _ => ?_
  cases (Line.read m.input).1 with
  | ended => exact pure hm' trivial
  | malformed => exact raise hm' _ _
  | text t => exact pure hm' trivial

theorem native (hm : m.Stocks K) (n : Native) (arguments : List Value) (line : Nat) :
    Abides K (n.run arguments line) (n.run arguments line) m (Value.Stocked K) := by
  cases n with
  | clock => exact outside hm rfl rfl trivial
  | print => exact outside hm rfl rfl trivial
  | printLine => exact outside hm rfl rfl trivial
  | readLine => exact readLine hm line

end Abides

end Treewalk
