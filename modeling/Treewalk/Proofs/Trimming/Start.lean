import Treewalk.Proofs.Run.Alignment
import Treewalk.Proofs.Trimming.Machine

/-!
# Machines in order without spare frames

A machine in order has no spare frames. If the distances of other nodes are recorded on it besides those
of its programs, the machine is itself without spare frames: each frame stands for itself, and so does
each function.

## Main definitions

* `Frames.seating`: frames none of which is spare.

## Main results

* `Ordered.trimmed`: a machine in order on which distances of other nodes are recorded.
* `Lies.chain_eq`: the frames outward from a frame later on.
-/

namespace Treewalk

/-! ### Seatings without spare frames -/

namespace Frames

/-- What is remembered of frames none of which is spare. -/
def seating (fs : Frames) : Seating :=
  (List.range fs.size).map fun i => ⟨fs.enclosing? i, i, false⟩

variable (fs : Frames) {i k : Nat}

@[simp] theorem length_seating : fs.seating.length = fs.size := by
  rw [seating, List.length_map, List.length_range]

theorem getElem?_seating (hi : i < fs.size) :
    fs.seating[i]? = some ⟨fs.enclosing? i, i, false⟩ := by
  rw [seating, List.getElem?_map, List.getElem?_range hi]
  rfl

theorem place_seating (hi : i < fs.size) : fs.seating.place i = i := by
  rw [Seating.place, fs.getElem?_seating hi]
  rfl

theorem lt_of_getElem?_seating {seat : Seat} (h : fs.seating[i]? = some seat) : i < fs.size :=
  fs.length_seating ▸ (List.getElem?_eq_some_iff.mp h).1

/-- Each frame stands for itself. -/
theorem seats_seating_iff : fs.seating.Seats i k ↔ i = k ∧ i < fs.size := by
  constructor
  · rintro ⟨enclosing, hseat⟩
    have hi := fs.lt_of_getElem?_seating hseat
    rw [fs.getElem?_seating hi] at hseat
    cases hseat
    exact ⟨rfl, hi⟩
  · rintro ⟨rfl, hi⟩
    exact ⟨_, fs.getElem?_seating hi⟩

end Frames

namespace Lies

variable {fs : Frames} {plan : Plan} {ids : List Nat} {i : Nat} {scopes closed : Scopes}

/-- There is no spare frame outward from a frame that lies at scopes. -/
theorem at_seating (h : Lies fs plan ids i scopes closed) (hglobal : globalFrame < fs.size)
    (hroot : fs.enclosing? globalFrame = none) : fs.seating.At i none := by
  induction h with
  | global =>
    refine .outermost (k := globalFrame) ?_
    rw [fs.getElem?_seating hglobal, hroot]
  | @frame i j _ _ _ _ hlt hsize henclosing _ _ _ _ ih =>
    have hseat := fs.getElem?_seating hsize
    rw [henclosing] at hseat
    exact .inside hlt hseat ih

end Lies

/-! ### What stands for itself -/

section

variable {W : World} {fs : Frames} {plan : Plan} {t : Trimming} (hglobal : globalFrame < fs.size)
  (hroot : fs.enclosing? globalFrame = none)
  (hkept : ∀ v, W.seen v → ∀ id ∈ v.ids, t.after.get? id = t.before.get? id)

include hglobal hroot hkept

/-- A function whose frame lies at scopes stands for itself. -/
theorem Closure.trimmed_self {f : Closure} {σ : Site} (hseen : W.seen ⟨.routine f.decl, σ⟩)
    {ids : List Nat} {scopes closed : Scopes} (hlies : Lies fs plan ids f.frame scopes closed)
    (inward : Nat) : Closure.Trimmed t fs.seating inward f f where
  id := rfl
  frame := (fs.place_seating (hlies.lt_size hglobal)).symm
  isInitializer := rfl
  decl := by
    have hself : f.decl.relocate (.ofId fun id => id) = f.decl :=
      f.decl.relocate_eq_self (fun _ => rfl) fun _ _ => rfl
    exact ⟨.ofId fun id => id, none, fun _ => rfl, hself.symm, hlies.at_seating hglobal hroot,
      Node.trimmed_of_kept σ (hkept _ hseen), fun _ h => nomatch h⟩

theorem Closure.Bindable.trimmed {f : Closure} (h : f.Bindable W fs plan) :
    Closure.Trimmed t fs.seating 1 f f := by
  obtain ⟨σ, outer, closed, hseen, -, -, hlies⟩ := h
  exact trimmed_self hglobal hroot hkept hseen hlies 1

theorem Value.Placed.trimmed {v : Value} (h : v.Placed W fs plan) :
    Value.Trimmed t fs.seating v v := by
  cases v with
  | function f =>
    obtain ⟨σ, hseen, hlies, -⟩ := h
    exact .function (Closure.trimmed_self hglobal hroot hkept hseen hlies 0)
  | _ => exact .other fun _ h => nomatch h

end

/-- What is related to itself in all its values is so as a whole. -/
theorem optionRel_self {α : Type} {R : α → α → Prop} {x : Option α} (h : ∀ a, x = some a → R a a) :
    Option.Rel R x x := by
  cases x with
  | none => exact .none
  | some a => exact .some (h a rfl)

/-- Frames none of which is spare. -/
theorem Frames.trimmed_self {t : Trimming} {fs : Frames} (hglobal : globalFrame < fs.size)
    (hroot : fs.enclosing? globalFrame = none)
    (hvalue : ∀ i name v, fs.slot? i name = some (some v) → Value.Trimmed t fs.seating v v) :
    Frames.Trimmed t fs.seating fs fs where
  outermost := by rw [fs.getElem?_seating hglobal, hroot]
  size := fs.length_seating.symm
  enclosing i := by
    rcases Nat.lt_or_ge i fs.size with hi | hi
    · rw [fs.getElem?_seating hi]
      rfl
    · rw [List.getElem?_eq_none (fs.length_seating.symm ▸ hi), enclosing?,
        Array.getElem?_eq_none hi]
      rfl
  lt_size i hi := by
    rw [fs.length_seating] at hi
    rwa [fs.place_seating hi]
  seat k hk := ⟨k, fs.seats_seating_iff.mpr ⟨rfl, hk⟩⟩
  seat_unique hi hj := by
    obtain ⟨rfl, -⟩ := fs.seats_seating_iff.mp hi
    exact (fs.seats_seating_iff.mp hj).1.symm
  root hi hnone := by
    obtain ⟨rfl, -⟩ := fs.seats_seating_iff.mp hi
    exact hnone
  around hi hsome hlt := by
    obtain ⟨rfl, hsize⟩ := fs.seats_seating_iff.mp hi
    rw [fs.place_seating (hlt.trans hsize)]
    exact hsome
  slot hi name := by
    obtain ⟨rfl, -⟩ := fs.seats_seating_iff.mp hi
    exact optionRel_self fun slot hslot => optionRel_self fun v hv =>
      hvalue _ name v (hv ▸ hslot)
  empty i seat hi hspare := by
    rw [fs.getElem?_seating (fs.lt_of_getElem?_seating hi)] at hi
    cases hi
    cases hspare

/-- A machine in order has no spare frames, whatever distances of other nodes are recorded on it. -/
theorem Ordered.trimmed {W : World} {ds : Distances} {plan : Plan} {m : Machine}
    (ho : Ordered W ds plan m) {ids : List Nat} {scopes closed : Scopes}
    (hlies : Lies m.frames plan ids m.current scopes closed) {ds' : Distances}
    (hkept : ∀ v, W.seen v → ∀ id ∈ v.ids, ds'.get? id = m.distances.get? id) :
    Machine.Trimmed ⟨m.distances, ds'⟩ m.frames.seating m.current m
      { m with distances := ds' } := by
  have hvalue {v : Value} (hv : v.Placed W m.frames plan) :
      Value.Trimmed ⟨m.distances, ds'⟩ m.frames.seating v v := hv.trimmed ho.global ho.root hkept
  have hcurrent := hlies.lt_size ho.global
  exact
    { frames := Frames.trimmed_self ho.global ho.root fun i name v hv => hvalue (ho.slots i name v hv)
      tables :=
        { classCount := rfl
          className := fun _ => rfl
          superclass := fun _ => rfl
          method := fun c name => optionRel_self fun f hf =>
            (ho.methods c name f hf).trimmed ho.global ho.root hkept
          objectCount := rfl
          classOf := fun _ => rfl
          field := fun o name => optionRel_self fun v hv => hvalue (ho.fields o name v hv)
          closures := rfl
          input := rfl
          output := rfl
          clock := rfl
          readings := rfl }
      distances := rfl
      distances' := rfl
      current := rfl
      current' := (m.frames.place_seating hcurrent).symm
      lt_length := by rwa [m.frames.length_seating] }

/-! ### Later on -/

namespace Machine.Trimmed

variable {t : Trimming} {W : Seating} {i : Nat} {m m' : Machine}

/-- Frames that were there before keep the frame around them. -/
theorem enclosing_eq {fs : Frames} (h : Machine.Trimmed t W i m m') (hW : fs.seating <+: W) {j : Nat}
    (hj : j < fs.size) : m.frames.enclosing? j = fs.enclosing? j := by
  rw [h.frames.enclosing, Seating.getElem?_mono hW (fs.getElem?_seating hj)]
  rfl

end Machine.Trimmed

/-- The frames outward from a frame that lies at scopes stay the same while all frames keep the frame
around them. -/
theorem Lies.chain_eq {fs fs' : Frames} {plan : Plan} {ids : List Nat} {i : Nat}
    {scopes closed : Scopes} (h : Lies fs plan ids i scopes closed)
    (hglobal : globalFrame < fs.size) (hroot : fs.enclosing? globalFrame = none)
    (hle : fs.size ≤ fs'.size) (hsame : ∀ j < fs.size, fs'.enclosing? j = fs.enclosing? j) :
    fs'.chain i = fs.chain i := by
  have hlater (bound : Nat) : fs'.chainFrom bound i = fs.chainFrom bound i := by
    induction h generalizing bound with
    | global =>
      cases bound with
      | zero => rfl
      | succ bound => rw [Frames.chainFrom, Frames.chainFrom, hsame _ hglobal, hroot]; rfl
    | frame hlt hsize henclosing _ _ _ _ ih =>
      cases bound with
      | zero => rfl
      | succ bound =>
        rw [Frames.chainFrom, Frames.chainFrom, hsame _ hsize, henclosing, Option.elim_some,
          Option.elim_some, ih bound]
  obtain ⟨locals, -, -, hchain, -⟩ := h.exists_locals hroot
  have hi := h.lt_size hglobal
  rw [Frames.chain, Frames.chain, hlater, hchain _ hi, hchain _ (Nat.lt_of_lt_of_le hi hle)]

end Treewalk
