import Treewalk.Proofs.Run.Holding
import Treewalk.Proofs.Run.Tables
import Treewalk.Proofs.Trimming.Trees

/-!
# Machines without spare frames

A program with a scope left out runs on a machine that has no frames for that scope. All other frames are
there, in places of their own, and each of them lies inside of the frame that stands for the one around
it; a spare frame, in which nothing is ever bound, is stood for by the frame around it. Which frames are
spare and what stands for them is remembered in a *seating*, to which every new frame is added and in
which nothing ever changes.

## Main definitions

* `Seating`, `Seating.Seats`: what is remembered of frames, and the frames that have a place of their own.
* `Seating.At`: how far outward from a frame the spare one is.
* `Closure.Trimmed`, `Value.Trimmed`: functions and values.
* `Frames.Trimmed`, `Machine.Trimmed`: frames and machines without the spare frames.

## Main results

* `Frames.Trimmed.ancestor`: where a distance leads to without the spare frames.
* `Frames.Trimmed.write`, `Frames.Trimmed.add`, `Frames.Trimmed.addSpare`: frames that change.
* `Machine.Trimmed.enterSpare`: a spare frame that is entered.
-/

namespace Treewalk

/-! ### Seatings -/

/-- What is remembered of a frame. -/
structure Seat where
  /-- The frame around it. -/
  enclosing : Option Nat
  /-- The frame that stands for it where there are no spare frames. -/
  place : Nat
  /-- Whether it is spare. -/
  spare : Bool

/-- What is remembered of the frames of a machine. -/
abbrev Seating := List Seat

namespace Seating

/-- The frame that stands for a frame where there are no spare frames. -/
def place (W : Seating) (i : Nat) : Nat :=
  W[i]?.elim i (·.place)

/-- A frame that is not spare has a place of its own. -/
def Seats (W : Seating) (i k : Nat) : Prop :=
  ∃ enclosing, W[i]? = some ⟨enclosing, k, false⟩

/-- How many frames outward from a frame the spare one is, if there is any. The place of the spare frame
is that of the frame around it. -/
inductive At (W : Seating) : Nat → Option Nat → Prop
  | outermost {i k : Nat} (h : W[i]? = some ⟨none, k, false⟩) : At W i none
  | spare {i j : Nat} (hlt : j < i) (h : W[i]? = some ⟨some j, W.place j, true⟩) (hj : At W j none) :
    At W i (some 0)
  | inside {i j k : Nat} {spare : Option Nat} (hlt : j < i) (h : W[i]? = some ⟨some j, k, false⟩)
    (hj : At W j spare) : At W i (spare.map (· + 1))

variable {W W' : Seating} {i k : Nat} {seat : Seat} {spare : Option Nat}

theorem getElem?_mono (hW : W <+: W') (h : W[i]? = some seat) : W'[i]? = some seat := by
  obtain ⟨later, rfl⟩ := hW
  rw [List.getElem?_append_left (List.getElem?_eq_some_iff.mp h).1, h]

theorem place_mono (hW : W <+: W') (hi : i < W.length) : W'.place i = W.place i := by
  rw [place, place, getElem?_mono hW (List.getElem?_eq_getElem hi), List.getElem?_eq_getElem hi]

theorem Seats.place_eq (h : W.Seats i k) : W.place i = k := by
  obtain ⟨enclosing, h⟩ := h
  rw [place, h]
  rfl

theorem Seats.lt_length (h : W.Seats i k) : i < W.length :=
  let ⟨_, h⟩ := h
  (List.getElem?_eq_some_iff.mp h).1

theorem Seats.mono (h : W.Seats i k) (hW : W <+: W') : W'.Seats i k :=
  let ⟨enclosing, h⟩ := h
  ⟨enclosing, getElem?_mono hW h⟩

/-- A frame that is not there before is the new one. -/
theorem Seats.of_add {seat : Seat} (h : Seats (W ++ [seat]) i k) :
    W.Seats i k ∨ i = W.length ∧ seat.place = k ∧ seat.spare = false := by
  obtain ⟨enclosing, h⟩ := h
  rw [getElem?_append_singleton] at h
  split at h
  · next hi =>
    cases h
    exact .inr ⟨hi, rfl, rfl⟩
  · exact .inl ⟨enclosing, h⟩

namespace At

theorem lt_length (h : W.At i spare) : i < W.length := by
  cases h with
  | outermost h => exact (List.getElem?_eq_some_iff.mp h).1
  | spare _ h _ => exact (List.getElem?_eq_some_iff.mp h).1
  | inside _ h _ => exact (List.getElem?_eq_some_iff.mp h).1

theorem mono (h : W.At i spare) (hW : W <+: W') : W'.At i spare := by
  induction h with
  | outermost h => exact .outermost (getElem?_mono hW h)
  | spare hlt h hj ih =>
    refine .spare hlt ?_ ih
    rw [getElem?_mono hW h, place_mono hW hj.lt_length]
  | inside hlt h _ ih => exact .inside hlt (getElem?_mono hW h) ih

/-- A frame that is not spare itself has a place of its own. -/
theorem seats (h : W.At i spare) (hne : spare ≠ some 0) : W.Seats i (W.place i) := by
  cases h with
  | outermost h => exact ⟨none, by rw [place, h]; rfl⟩
  | spare => exact absurd rfl hne
  | inside _ h _ => exact ⟨_, by rw [place, h]; rfl⟩

end At

end Seating

/-! ### Functions and values -/

section

variable (t : Trimming) (W : Seating)

/-- A function and the one that stands for it. Its declaration stands so many scopes inside of that of its
frame: a method that no receiver has been bound for stands inside of the scope of `this`. An initializer
does not stand in a spare scope. -/
structure Closure.Trimmed (inward : Nat) (f f' : Closure) : Prop where
  id : f'.id = f.id
  frame : f'.frame = W.place f.frame
  isInitializer : f'.isInitializer = f.isInitializer
  decl : ∃ r spare, Relocation.KeepsLines r ∧ f'.decl = f.decl.relocate r ∧ W.At f.frame spare ∧
    (Node.routine f.decl).Trimmed t r (spare.map (· + inward)) ∧
    (f.isInitializer = true → spare.map (· + inward) ≠ some 0)

/-- A value and the one that stands for it. -/
inductive Value.Trimmed : Value → Value → Prop
  | function {f f' : Closure} (h : Closure.Trimmed t W 0 f f') :
    Value.Trimmed (.function f) (.function f')
  | other {v : Value} (h : ∀ f, v ≠ .function f) : Value.Trimmed v v

/-- Slots of frames. -/
abbrev SlotTrimmed : Option Value → Option Value → Prop :=
  Option.Rel (Value.Trimmed t W)

/-- The frames `fs'` are `fs` without the spare ones. Every frame that is not spare has a place of its
own, and there is no other place; it holds the same variables there, and lies in the frame that stands
for the one around it, if that was made before it. A spare frame holds nothing. -/
structure Frames.Trimmed (fs fs' : Frames) : Prop where
  outermost : W[globalFrame]? = some ⟨none, globalFrame, false⟩
  size : fs.size = W.length
  enclosing : ∀ i, fs.enclosing? i = W[i]?.bind (·.enclosing)
  lt_size : ∀ i, i < W.length → W.place i < fs'.size
  seat : ∀ k, k < fs'.size → ∃ i, W.Seats i k
  seat_unique : ∀ {i j k}, W.Seats i k → W.Seats j k → i = j
  root : ∀ {i k}, W.Seats i k → fs.enclosing? i = none → fs'.enclosing? k = none
  around : ∀ {i j k}, W.Seats i k → fs.enclosing? i = some j → j < i →
    fs'.enclosing? k = some (W.place j)
  slot : ∀ {i k}, W.Seats i k → ∀ name,
    Option.Rel (SlotTrimmed t W) (fs.slot? i name) (fs'.slot? k name)
  empty : ∀ i seat, W[i]? = some seat → seat.spare = true → ∀ name, fs.slot? i name = none

/-- The machine `m'` is `m` without the spare frames, where `m` is in the frame `i`. -/
structure Machine.Trimmed (i : Nat) (m m' : Machine) : Prop where
  frames : Frames.Trimmed t W m.frames m'.frames
  tables : Machine.Tables (Closure.Trimmed t W 1) (Value.Trimmed t W) m m'
  distances : m.distances = t.before
  distances' : m'.distances = t.after
  current : m.current = i
  current' : m'.current = W.place i
  lt_length : i < W.length

end

variable {t : Trimming} {W W' : Seating}

namespace Closure.Trimmed

variable {inward : Nat} {f f' : Closure}

theorem mono (h : Closure.Trimmed t W inward f f') (hW : W <+: W') :
    Closure.Trimmed t W' inward f f' := by
  obtain ⟨r, spare, hr, hdecl, hat, hrest⟩ := h.decl
  refine { h with frame := ?_, decl := ⟨r, spare, hr, hdecl, hat.mono hW, hrest⟩ }
  rw [h.frame, Seating.place_mono hW hat.lt_length]

theorem name_eq (h : Closure.Trimmed t W inward f f') : f'.decl.name = f.decl.name := by
  obtain ⟨r, -, hr, hdecl, -⟩ := h.decl
  rw [hdecl, FunctionDecl.name_relocate, Name.relocate_eq_self hr]

theorem arity_eq (h : Closure.Trimmed t W inward f f') : f'.decl.arity = f.decl.arity := by
  obtain ⟨r, -, -, hdecl, -⟩ := h.decl
  rw [hdecl, FunctionDecl.arity_relocate]

theorem alike (h : Closure.Trimmed t W inward f f') : f.Alike f' :=
  ⟨h.id, h.name_eq, h.arity_eq⟩

end Closure.Trimmed

namespace Value.Trimmed

theorem nil : Value.Trimmed t W .nil .nil := .other fun _ h => nomatch h

theorem bool (b : Bool) : Value.Trimmed t W (.bool b) (.bool b) := .other fun _ h => nomatch h

theorem number (x : Float) : Value.Trimmed t W (.number x) (.number x) := .other fun _ h => nomatch h

theorem string (s : String) : Value.Trimmed t W (.string s) (.string s) := .other fun _ h => nomatch h

theorem cls (c : Nat) : Value.Trimmed t W (.cls c) (.cls c) := .other fun _ h => nomatch h

theorem object (o : Nat) : Value.Trimmed t W (.object o) (.object o) := .other fun _ h => nomatch h

variable {v v' : Value}

theorem mono (h : Value.Trimmed t W v v') (hW : W <+: W') : Value.Trimmed t W' v v' := by
  cases h with
  | function h => exact .function (h.mono hW)
  | other h => exact .other h

theorem alike (h : Value.Trimmed t W v v') : v.Alike v' := by
  cases h with
  | function hf => exact .function hf.alike
  | other _ => exact .same v

end Value.Trimmed

/-! ### Frames -/

namespace Frames.Trimmed

variable {fs fs' : Frames} (h : Frames.Trimmed t W fs fs')

include h

/-- A distance leads to the frame with the place to which the distance without the spare frame leads. -/
theorem ancestor {i : Nat} {spare : Option Nat} (hat : W.At i spare) (hops : Nat)
    (hne : spare ≠ some hops) :
    W.Seats (fs.ancestor i hops) (fs'.ancestor (W.place i) (hopsWithout spare hops)) := by
  induction hat generalizing hops with
  | @outermost i k hi =>
    have hat : W.At i none := .outermost hi
    have hseats := hat.seats (Option.some_ne_none 0).symm
    have hnone : fs.enclosing? i = none := by
      rw [h.enclosing, hi]
      rfl
    cases hops with
    | zero => exact hseats
    | succ hops =>
      rw [Frames.ancestor, hnone, hopsWithout, Frames.ancestor, h.root hseats hnone]
      exact hseats
  | @spare i j hlt hi hj ih =>
    cases hops with
    | zero => exact absurd rfl hne
    | succ hops =>
      have hplace : W.place i = W.place j := by
        rw [Seating.place, hi]
        rfl
      rw [Frames.ancestor, h.enclosing, hi, hplace]
      exact ih hops (Option.some_ne_none hops).symm
  | @inside i j k spare hlt hi hj ih =>
    have hseats : W.Seats i k := ⟨_, hi⟩
    have henclosing : fs.enclosing? i = some j := by
      rw [h.enclosing, hi]
      rfl
    rw [hseats.place_eq]
    cases hops with
    | zero =>
      rw [hopsWithout_zero]
      exact hseats
    | succ hops =>
      have hne : spare ≠ some hops := fun heq => hne (by rw [heq]; rfl)
      rw [hopsWithout_succ hne, Frames.ancestor, Frames.ancestor, henclosing,
        h.around hseats henclosing hlt]
      exact ih hops hne

/-- A frame holds the same names in its place. -/
theorem holds {i k : Nat} (hseats : W.Seats i k) (name : String) :
    fs'.holds k name = fs.holds i name := by
  have hslot := h.slot hseats name
  unfold Frames.holds
  generalize fs.slot? i name = slot, fs'.slot? k name = slot' at hslot
  cases hslot <;> rfl

theorem holderAt? {i : Nat} {spare : Option Nat} (hat : W.At i spare) {hops : Nat}
    (hne : spare ≠ some hops) (name : String) :
    Option.Rel W.Seats (fs.holderAt? i hops name)
      (fs'.holderAt? (W.place i) (hopsWithout spare hops) name) := by
  have hseats := h.ancestor hat hops hne
  simp only [Frames.holderAt?, h.holds hseats]
  split
  · exact .some hseats
  · exact .none

theorem seats_global : W.Seats globalFrame globalFrame :=
  ⟨none, h.outermost⟩

theorem holder?_global (name : String) :
    Option.Rel W.Seats (fs.holder? globalFrame name) (fs'.holder? globalFrame name) := by
  have hseats := h.seats_global
  have hnone : fs.enclosing? globalFrame = none := by
    rw [h.enclosing, h.outermost]
    rfl
  have hlt' := h.lt_size globalFrame hseats.lt_length
  rw [hseats.place_eq] at hlt'
  rw [holder?_of_outermost hnone (h.size.symm ▸ hseats.lt_length),
    holder?_of_outermost (h.root hseats hnone) hlt', h.holds hseats]
  split
  · exact .some hseats
  · exact .none

/-- A variable is written in a frame and in its place. -/
theorem write {i k : Nat} (hseats : W.Seats i k) (name : String) {slot slot' : Option Value}
    (hslot : SlotTrimmed t W slot slot') :
    Frames.Trimmed t W (fs.write i name slot) (fs'.write k name slot') := by
  have hi : i < fs.size := h.size.symm ▸ hseats.lt_length
  have hk : k < fs'.size := hseats.place_eq ▸ h.lt_size i hseats.lt_length
  refine
    { outermost := h.outermost
      size := by rw [size_write, h.size]
      enclosing := fun j => by rw [enclosing?_write, h.enclosing]
      lt_size := fun j hj => by rw [size_write]; exact h.lt_size j hj
      seat := fun l hl => h.seat l (by rwa [size_write] at hl)
      seat_unique := h.seat_unique
      root := fun hj hnone => ?_
      around := fun hj hsome hlt => ?_
      slot := fun {j l} hj other => ?_
      empty := fun j seat hj hspare other => ?_ }
  · rw [enclosing?_write] at hnone ⊢
    exact h.root hj hnone
  · rw [enclosing?_write] at hsome ⊢
    exact h.around hj hsome hlt
  · rw [slot?_write fs hi, slot?_write fs' hk]
    have hiff : i = j ↔ k = l := by
      constructor
      · rintro rfl
        exact hseats.place_eq.symm.trans hj.place_eq
      · rintro rfl
        exact h.seat_unique hseats hj
    by_cases heq : i = j ∧ name = other
    · rw [if_pos heq, if_pos ⟨hiff.mp heq.1, heq.2⟩]
      exact .some hslot
    · rw [if_neg heq, if_neg fun heq' => heq ⟨hiff.mpr heq'.1, heq'.2⟩]
      exact h.slot hj other
  · rw [slot?_write fs hi, if_neg, h.empty j seat hj hspare]
    rintro ⟨rfl, -⟩
    obtain ⟨enclosing, hseat⟩ := hseats
    cases hj.symm.trans hseat
    cases hspare

/-- What is known of the frames of before after a new one, whose place, if it has one of its own, is
new. -/
theorem slot_mono {seat : Seat} {i k : Nat} (hseats : W.Seats i k) (name : String) :
    Option.Rel (SlotTrimmed t (W ++ [seat])) (fs.slot? i name) (fs'.slot? k name) :=
  optionRel_imp (fun _ _ => optionRel_imp fun _ _ hv => hv.mono (List.prefix_append W _))
    (h.slot hseats name)

/-- A new frame lies where its seat says. -/
theorem enclosing_add (j place : Nat) (spare : Bool) (i : Nat) :
    (fs.add (some j)).enclosing? i = (W ++ [⟨some j, place, spare⟩])[i]?.bind (·.enclosing) := by
  rw [enclosing?_add, h.size, h.enclosing, getElem?_append_singleton]
  split <;> rfl

/-- A new frame holds nothing. -/
theorem empty_add (enclosing : Option Nat) (new : Seat) (i : Nat) (seat : Seat)
    (hi : (W ++ [new])[i]? = some seat) (hspare : seat.spare = true) (name : String) :
    (fs.add enclosing).slot? i name = none := by
  rw [getElem?_append_singleton] at hi
  rw [slot?_add, h.size]
  split at hi
  · next hnew => rw [if_pos hnew]
  · next hne =>
    rw [if_neg hne]
    exact h.empty i seat hi hspare name

/-- A frame is made inside of one of before, with the next place. -/
theorem add {j : Nat} (hj : j < W.length) :
    Frames.Trimmed t (W ++ [⟨some j, fs'.size, false⟩]) (fs.add (some j))
      (fs'.add (some (W.place j))) := by
  have hW : W <+: W ++ [⟨some j, fs'.size, false⟩] := List.prefix_append W _
  have hold {i k : Nat} (hseats : W.Seats i k) : i ≠ W.length ∧ k ≠ fs'.size := by
    have hlt := h.lt_size i hseats.lt_length
    rw [hseats.place_eq] at hlt
    exact ⟨Nat.ne_of_lt hseats.lt_length, Nat.ne_of_lt hlt⟩
  have hplace {i : Nat} (hi : i < W.length) :
      Seating.place (W ++ [⟨some j, fs'.size, false⟩]) i = W.place i := Seating.place_mono hW hi
  refine
    { outermost := Seating.getElem?_mono hW h.outermost
      size := by rw [size_add, h.size, List.length_append, List.length_singleton]
      enclosing := h.enclosing_add j _ _
      lt_size := fun i hi => ?_
      seat := fun k hk => ?_
      seat_unique := fun hi hi' => ?_
      root := fun {i k} hi hnone => ?_
      around := fun {i l k} hi hsome hlt => ?_
      slot := fun {i k} hi name => ?_
      empty := h.empty_add _ _ }
  · rw [List.length_append, List.length_singleton] at hi
    rw [size_add]
    rcases Nat.lt_succ_iff_lt_or_eq.mp hi with hi | rfl
    · rw [hplace hi]
      exact Nat.lt_succ_of_lt (h.lt_size i hi)
    · rw [Seating.place, List.getElem?_concat_length]
      exact Nat.lt_succ_self _
  · rw [size_add] at hk
    rcases Nat.lt_succ_iff_lt_or_eq.mp hk with hk | rfl
    · obtain ⟨i, hi⟩ := h.seat k hk
      exact ⟨i, hi.mono hW⟩
    · exact ⟨W.length, some j, List.getElem?_concat_length⟩
  · rcases hi.of_add with hi | ⟨rfl, rfl, -⟩
    · rcases hi'.of_add with hi' | ⟨rfl, rfl, -⟩
      · exact h.seat_unique hi hi'
      · exact absurd rfl (hold hi).2
    · rcases hi'.of_add with hi' | ⟨rfl, -, -⟩
      · exact absurd rfl (hold hi').2
      · rfl
  · rw [enclosing?_add, h.size] at hnone
    rcases hi.of_add with hi | ⟨rfl, -, -⟩
    · rw [if_neg (hold hi).1] at hnone
      rw [enclosing?_add, if_neg (hold hi).2]
      exact h.root hi hnone
    · rw [if_pos rfl] at hnone
      cases hnone
  · rw [enclosing?_add, h.size] at hsome
    rcases hi.of_add with hi | ⟨rfl, rfl, -⟩
    · rw [if_neg (hold hi).1] at hsome
      rw [enclosing?_add, if_neg (hold hi).2, hplace (hlt.trans hi.lt_length)]
      exact h.around hi hsome hlt
    · rw [if_pos rfl] at hsome
      cases hsome
      rw [enclosing?_add, if_pos rfl, hplace hj]
  · rw [slot?_add, slot?_add, h.size]
    rcases hi.of_add with hi | ⟨rfl, rfl, -⟩
    · rw [if_neg (hold hi).1, if_neg (hold hi).2]
      exact h.slot_mono hi name
    · rw [if_pos rfl, if_pos rfl]
      exact .none

/-- A spare frame is made, for which the frame around it stands. -/
theorem addSpare {j : Nat} (hj : j < W.length) :
    Frames.Trimmed t (W ++ [⟨some j, W.place j, true⟩]) (fs.add (some j)) fs' := by
  have hW : W <+: W ++ [⟨some j, W.place j, true⟩] := List.prefix_append W _
  have hplace {i : Nat} (hi : i < W.length) :
      Seating.place (W ++ [⟨some j, W.place j, true⟩]) i = W.place i := Seating.place_mono hW hi
  have hold {i k : Nat} (hseats : Seating.Seats (W ++ [⟨some j, W.place j, true⟩]) i k) :
      W.Seats i k := by
    rcases hseats.of_add with hi | ⟨-, -, hspare⟩
    · exact hi
    · cases hspare
  refine
    { outermost := Seating.getElem?_mono hW h.outermost
      size := by rw [size_add, h.size, List.length_append, List.length_singleton]
      enclosing := h.enclosing_add j _ _
      lt_size := fun i hi => ?_
      seat := fun k hk => ?_
      seat_unique := fun hi hi' => h.seat_unique (hold hi) (hold hi')
      root := fun hi hnone => ?_
      around := fun hi hsome hlt => ?_
      slot := fun hi name => ?_
      empty := h.empty_add _ _ }
  · rw [List.length_append, List.length_singleton] at hi
    rcases Nat.lt_succ_iff_lt_or_eq.mp hi with hi | rfl
    · rw [hplace hi]
      exact h.lt_size i hi
    · rw [Seating.place, List.getElem?_concat_length]
      exact h.lt_size j hj
  · obtain ⟨i, hi⟩ := h.seat k hk
    exact ⟨i, hi.mono hW⟩
  · have hi := hold hi
    rw [enclosing?_add, h.size, if_neg (Nat.ne_of_lt hi.lt_length)] at hnone
    exact h.root hi hnone
  · have hi := hold hi
    rw [enclosing?_add, h.size, if_neg (Nat.ne_of_lt hi.lt_length)] at hsome
    rw [hplace (hlt.trans hi.lt_length)]
    exact h.around hi hsome hlt
  · have hi := hold hi
    rw [slot?_add, h.size, if_neg (Nat.ne_of_lt hi.lt_length)]
    exact h.slot_mono hi name

end Frames.Trimmed

/-! ### Machines -/

namespace Machine.Trimmed

variable {m m' : Machine} {i : Nat} (h : Machine.Trimmed t W i m m')

include h

/-- Another frame is current, and on the machine without spare frames the one that stands for it. -/
theorem move {k : Nat} (hk : k < W.length) :
    Machine.Trimmed t W k { m with current := k } { m' with current := W.place k } :=
  { h with
    tables := { h.tables with }
    current := rfl
    current' := rfl
    lt_length := hk }

/-- The frames of both machines are changed, and the seating grows. -/
theorem withFrames (hW : W <+: W') {fs fs' : Frames} (hframes : Frames.Trimmed t W' fs fs') :
    Machine.Trimmed t W' i { m with frames := fs } { m' with frames := fs' } where
  frames := hframes
  tables := { h.tables.mono (fun _ _ hf => hf.mono hW) fun _ _ hv => hv.mono hW with }
  distances := h.distances
  distances' := h.distances'
  current := h.current
  current' := h.current'.trans (Seating.place_mono hW h.lt_length).symm
  lt_length := Nat.lt_of_lt_of_le h.lt_length hW.length_le

/-- Another frame is current that has the same place. -/
theorem moveBeside {k : Nat} (hk : k < W.length) (hplace : W.place k = W.place i) :
    Machine.Trimmed t W k { m with current := k } m' := by
  have hmove := h.move hk
  rwa [hplace, ← h.current'] at hmove

/-- A spare frame is made and entered, for which nothing happens on the machine without spare frames. -/
theorem enterSpare (hat : W.At i none) : ∃ W' : Seating, W <+: W' ∧
    W'.At m.frames.size (some 0) ∧ W'.place m.frames.size = W'.place i ∧
    Machine.Trimmed t W' m.frames.size
      { m with frames := m.frames.add (some i), current := m.frames.size } m' := by
  have hW : W <+: W ++ [⟨some i, W.place i, true⟩] := List.prefix_append W _
  have hi := Seating.place_mono hW hat.lt_length
  have hnew := List.getElem?_concat_length (l := W) (a := ⟨some i, W.place i, true⟩)
  rw [h.frames.size]
  have hspare : Seating.At (W ++ [⟨some i, W.place i, true⟩]) W.length (some 0) :=
    .spare hat.lt_length (by rw [hnew, hi]) (hat.mono hW)
  have hplace : Seating.place (W ++ [⟨some i, W.place i, true⟩]) W.length =
      Seating.place (W ++ [⟨some i, W.place i, true⟩]) i := by
    rw [Seating.place, hnew, hi]
    rfl
  exact ⟨_, hW, hspare, hplace,
    (h.withFrames hW (h.frames.addSpare hat.lt_length)).moveBeside hspare.lt_length hplace⟩

end Machine.Trimmed

end Treewalk
