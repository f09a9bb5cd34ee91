import Treewalk.Proofs.Run.Unbound

/-!
# The nearest binding of a name

A table of frames is built step by step: a frame is made on its own or inside another one, a name is
given a value or an empty slot in a frame, and a name is assigned to, looked for outward or at a known
distance. So a frame lies inside frames that were made before it, and the way outward from it comes to
an end.

Reading and assigning use the slot of the nearest frame that holds the name, whether the way is walked
or its length is known. An assignment is seen from all frames from which the same slot is the nearest
one, and from no others; if no frame on the way holds the name, nothing changes. A slot has what was
written to it last, so one that was declared and not assigned to since has no value, and no slot
further outward is asked instead.

## Main definitions

* `Frames.hop?`, `Frames.Nearest`: the way outward, and the nearest frame on it that holds a name.
* `Frames.Write`, `Frames.Built`: tables that are built step by step, with what has been written.

## Main results

* `Frames.Built.getElem?_chain`: a chain is the whole way outward.
* `Frames.Built.slot?_eq`: a slot has what was written to it last.
* `Frames.Built.nearest_binding`: reading and assigning by the nearest binding.
-/

namespace Treewalk

namespace Frames

/-! ### The way outward -/

/-- The frame a number of steps outward from a frame, if there are as many. -/
def hop? (fs : Frames) (i : Nat) : (steps : Nat) → Option Nat
  | 0 => some i
  | steps + 1 => (fs.enclosing? i).bind fun j => hop? fs j steps

/-- The frame `j`, so many steps outward from a frame, is the nearest one that holds a name. -/
structure Nearest (fs : Frames) (i : Nat) (name : String) (steps j : Nat) : Prop where
  hop : fs.hop? i steps = some j
  holds : fs.holds j name
  nearer : ∀ k < steps, ∀ i', fs.hop? i k = some i' → ¬ fs.holds i' name

/-- Every frame was made after the one around it. -/
def Inward (fs : Frames) : Prop :=
  ∀ i j, fs.enclosing? i = some j → j < i

variable {fs fs' : Frames} {i j steps : Nat} {name other : String} {v : Value}

theorem ancestor_of_hop? (h : fs.hop? i steps = some j) : fs.ancestor i steps = j := by
  induction steps generalizing i with
  | zero => exact Option.some.inj h
  | succ steps ih =>
    obtain ⟨i', henclosing, h⟩ := Option.bind_eq_some_iff.mp h
    rw [ancestor, henclosing, Option.elim_some, ih h]

/-- The way is the same in tables with the same enclosing frames. -/
theorem hop?_congr (h : ∀ i, fs'.enclosing? i = fs.enclosing? i) (i steps : Nat) :
    fs'.hop? i steps = fs.hop? i steps := by
  induction steps generalizing i with
  | zero => rfl
  | succ steps ih =>
    rw [hop?, hop?, h]
    exact congrArg _ (funext ih)

/-- The nearest frame is the same in tables whose frames enclose each other and hold the name alike. -/
theorem nearest_congr (henclosing : ∀ i, fs'.enclosing? i = fs.enclosing? i)
    (hholds : ∀ i, fs'.holds i name = fs.holds i name) :
    fs'.Nearest i name steps j ↔ fs.Nearest i name steps j := by
  constructor
  · rintro ⟨hhop, hj, hnearer⟩
    simp only [hop?_congr henclosing, hholds] at hhop hj hnearer
    exact ⟨hhop, hj, hnearer⟩
  · rintro ⟨hhop, hj, hnearer⟩
    constructor <;> simpa only [hop?_congr henclosing, hholds]

namespace Inward

/-- Steps lead to frames that were made before. -/
theorem add_le_of_hop? (h : fs.Inward) (hj : fs.hop? i steps = some j) : j + steps ≤ i := by
  induction steps generalizing i with
  | zero => exact Nat.le_of_eq (Option.some.inj hj).symm
  | succ steps ih =>
    obtain ⟨i', henclosing, hj⟩ := Option.bind_eq_some_iff.mp hj
    have hlt := h i i' henclosing
    have hle := ih hj
    omega

theorem getElem?_chainFrom (h : fs.Inward) {bound : Nat} (hi : i < bound) (steps : Nat) :
    (fs.chainFrom bound i)[steps]? = fs.hop? i steps := by
  induction bound generalizing i steps with
  | zero => exact absurd hi (Nat.not_lt_zero i)
  | succ bound ih =>
    cases steps with
    | zero => rfl
    | succ steps =>
      rw [chainFrom, List.getElem?_cons_succ, hop?]
      cases henclosing : fs.enclosing? i with
      | none => rfl
      | some i' => exact ih (Nat.lt_of_lt_of_le (h i i' henclosing) (Nat.le_of_lt_succ hi)) steps

/-- The frame that is found outward is the nearest one that holds the name. -/
theorem holder?_eq_some_iff (h : fs.Inward) (hi : i < fs.size) :
    fs.holder? i name = some j ↔ ∃ steps, fs.Nearest i name steps j := by
  have hchain := h.getElem?_chainFrom hi
  rw [holder?, chain, List.find?_eq_some_iff_getElem]
  constructor
  · rintro ⟨hj, steps, hsteps, heq, hnearer⟩
    refine ⟨steps, by rw [← hchain, List.getElem?_eq_getElem hsteps, heq], hj, fun k hk i' hi' => ?_⟩
    rw [← hchain, List.getElem?_eq_getElem (hk.trans hsteps)] at hi'
    simpa [Option.some.inj hi'] using hnearer k hk
  · rintro ⟨steps, hhop, hj, hnearer⟩
    obtain ⟨hsteps, heq⟩ := List.getElem?_eq_some_iff.mp ((hchain steps).trans hhop)
    refine ⟨hj, steps, hsteps, heq, fun k hk => ?_⟩
    have hnot := hnearer k hk _ (by rw [← hchain, List.getElem?_eq_getElem (hk.trans hsteps)])
    simpa using hnot

theorem holder?_eq_none_iff (h : fs.Inward) (hi : i < fs.size) :
    fs.holder? i name = none ↔ ∀ steps j, ¬ fs.Nearest i name steps j := by
  rw [Option.eq_none_iff_forall_ne_some]
  simp only [ne_eq, h.holder?_eq_some_iff hi, not_exists]
  exact forall_comm

end Inward

theorem Nearest.unique (h : fs.Nearest i name steps j) {steps' j' : Nat}
    (h' : fs.Nearest i name steps' j') : steps = steps' ∧ j = j' := by
  have hle : steps ≤ steps' := Nat.le_of_not_lt fun hlt => h.nearer _ hlt _ h'.hop h'.holds
  have hge : steps' ≤ steps := Nat.le_of_not_lt fun hlt => h'.nearer _ hlt _ h.hop h.holds
  obtain rfl := Nat.le_antisymm hle hge
  exact ⟨rfl, Option.some.inj (h.hop.symm.trans h'.hop)⟩

/-- At the distance of the nearest frame that frame is found. -/
theorem Nearest.holderAt?_eq (h : fs.Nearest i name steps j) :
    fs.holderAt? i steps name = some j := by
  obtain rfl := ancestor_of_hop? h.hop
  exact holderAt?_of_holds h.holds

/-- A value that is given to a name is read wherever the same slot is the nearest one, and nowhere
else. -/
theorem Inward.get_define (h : fs.Inward) (hj : fs.holds j name) (hi : i < fs.size) (other : String)
    (v : Value) : (fs.define j name v).get i other =
      if other = name ∧ fs.holder? i other = some j then .ok v else fs.get i other := by
  have hjsize := lt_size_of_holds hj
  have henclosing : ∀ i, (fs.define j name v).enclosing? i = fs.enclosing? i :=
    fun i => enclosing?_write ..
  have hholds : ∀ i, (fs.define j name v).holds i other = fs.holds i other := by
    intro i
    rw [Bool.eq_iff_iff, define, fs.holds_write hjsize]
    constructor
    · rintro (⟨rfl, rfl⟩ | hi)
      · exact hj
      · exact hi
    · exact .inr
  have hinward : (fs.define j name v).Inward := fun i k hk => h i k ((henclosing i).symm.trans hk)
  have hholder : (fs.define j name v).holder? i other = fs.holder? i other := by
    refine Option.ext fun k => ?_
    rw [hinward.holder?_eq_some_iff (by rwa [define, size_write]), h.holder?_eq_some_iff hi]
    exact exists_congr fun steps => nearest_congr henclosing hholds
  rw [get, get, hholder]
  cases hfound : fs.holder? i other with
  | none => simp [readIn]
  | some k =>
    rw [readIn, readIn, read, define, fs.slot?_write hjsize]
    by_cases heq : j = k ∧ name = other
    · rw [if_pos heq, if_pos ⟨heq.2.symm, congrArg some heq.1.symm⟩]
    · rw [if_neg heq, if_neg fun hsame => heq ⟨(Option.some.inj hsame.2).symm, hsame.1.symm⟩]
      rfl

/-! ### Tables that are built -/

/-- What is written: a slot of a frame, with a value or empty. -/
structure Write where
  /-- The frame. -/
  frame : Nat
  /-- The name of the slot. -/
  name : String
  /-- Its value, if it has one. -/
  slot : Option Value

/-- Whether a write is to a certain slot. -/
def Write.isTo (w : Write) (i : Nat) (name : String) : Bool :=
  w.frame == i && w.name == name

/-- Tables that are built step by step, with all that has been written, the last write first. Each step
is about frames that are there. An assignment that fails is no step. -/
inductive Built : List Write → Frames → Prop
  /-- Nothing has been made. -/
  | empty : Built [] #[]
  /-- A frame on its own. -/
  | new {ws : List Write} {fs : Frames} (h : Built ws fs) : Built ws (fs.add none)
  /-- A frame inside another one. -/
  | child {ws : List Write} {fs : Frames} {i : Nat} (h : Built ws fs) (hi : i < fs.size) :
    Built ws (fs.add (some i))
  /-- A name is given a value. -/
  | define {ws : List Write} {fs : Frames} {i : Nat} (h : Built ws fs) (hi : i < fs.size)
      (name : String) (v : Value) : Built (⟨i, name, some v⟩ :: ws) (fs.define i name v)
  /-- A name is given an empty slot. -/
  | declare {ws : List Write} {fs : Frames} {i : Nat} (h : Built ws fs) (hi : i < fs.size)
      (name : String) : Built (⟨i, name, none⟩ :: ws) (fs.declare i name)
  /-- A name is assigned to that is found outward. -/
  | assign {ws : List Write} {fs fs' : Frames} {i j : Nat} {name : String} {v : Value}
      (h : Built ws fs) (hi : i < fs.size) (hj : fs.holder? i name = some j)
      (hfs' : fs.assign i name v = .ok fs') : Built (⟨j, name, some v⟩ :: ws) fs'
  /-- A name is assigned to that is found at a distance. -/
  | assignAt {ws : List Write} {fs fs' : Frames} {i j distance : Nat} {name : String} {v : Value}
      (h : Built ws fs) (hi : i < fs.size) (hj : fs.holderAt? i distance name = some j)
      (hfs' : fs.assignAt i distance name v = .ok fs') : Built (⟨j, name, some v⟩ :: ws) fs'

theorem enclosing?_of_le (hi : fs.size ≤ i) : fs.enclosing? i = none := by
  rw [enclosing?, Array.getElem?_eq_none hi, Option.bind_none]

/-- A new frame inside one that is there. -/
theorem Inward.add (h : fs.Inward) {enclosing : Option Nat}
    (hlt : ∀ j, enclosing = some j → j < fs.size) : (fs.add enclosing).Inward := by
  intro i j henclosing
  rw [enclosing?_add] at henclosing
  split at henclosing
  · next heq => exact heq ▸ hlt j henclosing
  · exact h i j henclosing

theorem Inward.write (h : fs.Inward) (i : Nat) (name : String) (slot : Option Value) :
    (fs.write i name slot).Inward :=
  fun j k henclosing => h j k ((enclosing?_write ..).symm.trans henclosing)

/-- An assignment writes the slot that was found, in a frame that is there. -/
theorem assignIn_eq_ok (hfs' : fs.assignIn (some j) name v = .ok fs') :
    fs' = fs.write j name (some v) :=
  (Except.ok.inj hfs').symm

namespace Built

variable {ws : List Write}

/-- Every step puts new frames inside those that are there, or writes a slot. -/
theorem inward (h : Built ws fs) : fs.Inward := by
  induction h with
  | empty =>
    intro i j henclosing
    rw [enclosing?_of_le (Nat.zero_le i)] at henclosing
    cases henclosing
  | new _ ih =>
    refine ih.add fun j hj => ?_
    cases hj
  | child _ hi ih =>
    refine ih.add fun j hj => ?_
    rwa [← Option.some.inj hj]
  | define _ _ name v ih => exact ih.write _ name (some v)
  | declare _ _ name ih => exact ih.write _ name none
  | @assign _ _ _ _ _ name v _ _ hj hfs' ih =>
    rw [Frames.assign, hj] at hfs'
    rw [assignIn_eq_ok hfs']
    exact ih.write _ name (some v)
  | @assignAt _ _ _ _ _ _ name v _ _ hj hfs' ih =>
    rw [Frames.assignAt, hj] at hfs'
    rw [assignIn_eq_ok hfs']
    exact ih.write _ name (some v)

/-- A chain is the whole way outward: it has a frame for each step that there is. -/
theorem getElem?_chain (h : Built ws fs) (hi : i < fs.size) (steps : Nat) :
    (fs.chain i)[steps]? = fs.hop? i steps :=
  h.inward.getElem?_chainFrom hi steps

/-- What a write does to the slots is what it adds to the writes. -/
theorem slot?_write_eq (hj : j < fs.size) {slot : Option Value}
    (ih : ∀ i name, fs.slot? i name = (ws.find? (·.isTo i name)).map (·.slot)) (i : Nat)
    (other : String) : (fs.write j name slot).slot? i other =
      ((⟨j, name, slot⟩ :: ws : List Write).find? (·.isTo i other)).map (·.slot) := by
  rw [fs.slot?_write hj, List.find?_cons, Write.isTo]
  by_cases heq : j = i ∧ name = other
  · simp [heq]
  · rw [if_neg heq, ih]
    have hnot : (j == i && name == other) = false := by simpa using heq
    rw [hnot]

/-- A slot has what was written to it last, and a name to which nothing was written has no slot. -/
theorem slot?_eq (h : Built ws fs) (i : Nat) (name : String) :
    fs.slot? i name = (ws.find? (·.isTo i name)).map (·.slot) := by
  induction h generalizing i name with
  | empty => rfl
  | @new ws fs h ih | @child ws fs _ h _ ih =>
    rw [slot?_add]
    split
    · next heq =>
      have hnone : fs.slot? i name = none := by
        rw [slot?, Array.getElem?_eq_none (Nat.le_of_eq heq.symm), Option.bind_none]
      rw [← ih, hnone]
    · exact ih i name
  | define _ hi name' v ih => exact slot?_write_eq hi ih i name
  | declare _ hi name' ih => exact slot?_write_eq hi ih i name
  | assign _ _ hj hfs' ih =>
    rw [Frames.assign, hj] at hfs'
    rw [assignIn_eq_ok hfs']
    exact slot?_write_eq (lt_size_of_holds (Tracks.holds_of_holder? hj)) ih i name
  | assignAt _ _ hj hfs' ih =>
    rw [Frames.assignAt, hj] at hfs'
    rw [assignIn_eq_ok hfs']
    exact slot?_write_eq (lt_size_of_holds (Tracks.holds_of_holderAt? hj)) ih i name

/-- What is read of a name is what was written to its slot last. -/
theorem read_eq (h : Built ws fs) {later earlier : List Write} {slot : Option Value}
    (hws : ws = later ++ ⟨j, name, slot⟩ :: earlier) (hlater : ∀ w ∈ later, ¬ w.isTo j name) :
    fs.read j name = slot.elim (.error (.unassignedVariable name)) .ok := by
  have hfind : later.find? (·.isTo j name) = none := List.find?_eq_none.mpr hlater
  have hslot : fs.slot? j name = some slot := by
    rw [h.slot?_eq, hws, List.find?_append, hfind, Option.none_or,
      List.find?_cons_of_pos (by simp [Write.isTo]), Option.map_some]
  rw [read, hslot]
  cases slot <;> rfl

/-- Let tables be built by making frames, on their own or inside other ones, by giving names values or
empty slots in them, and by assigning to names, found outward or at a known distance.

The way outward from a frame is finite, and its chain is all of it. If the nearest frame that holds a
name is so many steps away, then to read the name is to read it at that distance, and to assign to it
is to assign to it at that distance. The assignment succeeds, and then a name has the new value from
all frames from which that slot is the nearest one for it; all other names have what they had. What is
read is what was written to that slot last: with an empty slot the name has no value, whatever frames
further outward hold. If no frame on the way holds the name, reading and assigning say that it is not
defined, and the machine whose table it is stays as it is. -/
theorem nearest_binding (h : Built ws fs) (hi : i < fs.size) (name : String) :
    (∀ steps, (fs.chain i)[steps]? = fs.hop? i steps) ∧
    (∀ steps j, fs.Nearest i name steps j →
      fs.get i name = fs.getAt i steps name ∧
      (∀ v, fs.assign i name v = fs.assignAt i steps name v ∧
        ∃ fs', fs.assign i name v = .ok fs' ∧ Built (⟨j, name, some v⟩ :: ws) fs' ∧
          (∀ line m, m.frames = fs →
            Run.assignIn (fs.holder? i name) ⟨name, line⟩ v m = .ok () { m with frames := fs' }) ∧
          ∀ i' < fs.size, ∀ name',
            (name' = name → (∃ steps', fs.Nearest i' name' steps' j) → fs'.get i' name' = .ok v) ∧
            (¬ (name' = name ∧ ∃ steps', fs.Nearest i' name' steps' j) →
              fs'.get i' name' = fs.get i' name')) ∧
      ∀ later slot earlier, ws = later ++ ⟨j, name, slot⟩ :: earlier →
        (∀ w ∈ later, ¬ w.isTo j name) →
        fs.get i name = slot.elim (.error (.unassignedVariable name)) .ok) ∧
    ((∀ steps j, ¬ fs.Nearest i name steps j) →
      fs.get i name = .error (.undefinedVariable name) ∧
      ∀ v, fs.assign i name v = .error (.undefinedVariable name) ∧
        ∀ line m, m.frames = fs → Run.assignIn (fs.holder? i name) ⟨name, line⟩ v m =
          .error (.raised ⟨.undefinedVariable name, line⟩) m) := by
  refine ⟨h.getElem?_chain hi, fun steps j hnearest => ?_, fun hnone => ?_⟩
  · have hholder := (h.inward.holder?_eq_some_iff hi).mpr ⟨steps, hnearest⟩
    have hassign : ∀ v, fs.assign i name v = .ok (fs.define j name v) := by
      intro v
      rw [Frames.assign, hholder, assignIn]
    refine ⟨?_, fun v => ⟨?_, fs.define j name v, hassign v, .assign h hi hholder (hassign v), ?_, ?_⟩,
      fun later slot earlier hws hlater => ?_⟩
    · rw [get, getAt, hholder, hnearest.holderAt?_eq]
    · rw [Frames.assign, Frames.assignAt, hholder, hnearest.holderAt?_eq]
    · rintro line m rfl
      rw [hholder]
      rfl
    · intro i' hi' name'
      have hseen : fs.holder? i' name' = some j ↔ ∃ steps', fs.Nearest i' name' steps' j :=
        h.inward.holder?_eq_some_iff hi'
      rw [h.inward.get_define hnearest.holds hi']
      exact ⟨fun hname hsteps => if_pos ⟨hname, hseen.mpr hsteps⟩,
        fun hnot => if_neg fun hsame => hnot ⟨hsame.1, hseen.mp hsame.2⟩⟩
    · rw [get, hholder, readIn, h.read_eq hws hlater]
  · have hholder := (h.inward.holder?_eq_none_iff hi).mpr hnone
    refine ⟨by rw [get, hholder, readIn], fun v => ⟨?_, fun line m _ => ?_⟩⟩
    · rw [Frames.assign, hholder, assignIn]
    · rw [hholder]
      rfl

/-- A frame between two others hides a global variable by an empty slot of the same name: an
assignment from inside gives that slot a value, and the global variable keeps its own. -/
theorem nearest_binding_hidden :
    let fs : Frames := #[⟨none, [("a", some .nil)]⟩, ⟨some 0, [("a", none)]⟩, ⟨some 1, []⟩]
    fs.get 2 "a" = .error (.unassignedVariable "a") ∧
      ∃ fs', fs.assign 2 "a" (.bool true) = .ok fs' ∧ fs'.get 1 "a" = .ok (.bool true) ∧
        fs'.get 0 "a" = .ok .nil := by
  intro fs
  have hbuilt : Built [⟨1, "a", none⟩, ⟨0, "a", some .nil⟩] fs :=
    .child (.declare (.child (.define (.new .empty) (by decide) "a" .nil) (by decide)) (by decide) "a")
      (by decide)
  have hnearest : fs.Nearest 2 "a" 1 1 := by
    refine ⟨rfl, rfl, fun k hk i' hi' => ?_⟩
    obtain rfl := Nat.lt_one_iff.mp hk
    cases hi'
    exact Bool.false_ne_true
  have hsame : fs.Nearest 1 "a" 0 1 := ⟨rfl, rfl, fun k hk => absurd hk (Nat.not_lt_zero k)⟩
  have hother : ¬ ("a" = "a" ∧ ∃ steps, fs.Nearest 0 "a" steps 1) := by
    rintro ⟨-, steps, h⟩
    exact absurd (hbuilt.inward.add_le_of_hop? h.hop) (by omega)
  obtain ⟨-, hread, -⟩ := hbuilt.nearest_binding (i := 2) (by decide) "a"
  obtain ⟨-, hassign, hwritten⟩ := hread 1 1 hnearest
  obtain ⟨-, fs', hfs', -, -, hseen⟩ := hassign (.bool true)
  refine ⟨hwritten [] none _ rfl (fun w hw => by cases hw), fs', hfs', ?_, ?_⟩
  · exact (hseen 1 (by decide) "a").1 rfl ⟨0, hsame⟩
  · exact (hseen 0 (by decide) "a").2 hother

end Built

end Frames

end Treewalk
