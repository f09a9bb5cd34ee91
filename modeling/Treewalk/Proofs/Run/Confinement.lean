import Treewalk.Proofs.Run.Unfolding

/-!
# Writes to local frames

Along the course of a run frames are made and written. A frame is made when a block is executed, when
a function is called, when a method is bound to a receiver, and for the methods of a class with a
superclass; then it has a few bindings, and its enclosing frame is settled for good. Afterwards a
local frame is written by declarations and assignments only, and only if it lies outward from the
frame that is current there.

While a function is called, every frame that becomes current lies inside the frame of some call that
has been made meanwhile. So a call that writes a frame of before calls a function that closes over
that frame, or over one inside it.

## Main definitions

* `Frames.Made`, `Frames.Written`, `Frames.Changes`: how the frames of a run change.
* `Frames.Confined`: what this means for each frame.

## Main results

* `Frames.Changes.confined`: every change is confined.
* `Course.pairwise_changes`, `Course.pairwise_changes_next`: the frames of a run change in these ways.
* `Course.pairwise_size_lt`: every block and every call has a frame of its own.
* `invoke_confined`: what a call writes it reaches through a function that it calls.
-/

namespace Treewalk

namespace Frames

/-! ### Later frames -/

/-- The frames of before are among later ones, and each has the enclosing frame that it had. -/
structure LinkedIn (fs fs' : Frames) : Prop where
  size : fs.size ≤ fs'.size
  enclosing : ∀ i < fs.size, fs'.enclosing? i = fs.enclosing? i

variable {fs fs' fs'' : Frames} {i j : Nat} {name : String}

theorem lt_size_of_enclosing? (h : fs.enclosing? i = some j) : i < fs.size := by
  by_contra hi
  rw [enclosing?, Array.getElem?_eq_none (Nat.le_of_not_lt hi)] at h
  cases h

namespace LinkedIn

theorem refl (fs : Frames) : LinkedIn fs fs :=
  ⟨Nat.le_refl _, fun _ _ => rfl⟩

theorem trans (h : LinkedIn fs fs') (h' : LinkedIn fs' fs'') : LinkedIn fs fs'' where
  size := Nat.le_trans h.size h'.size
  enclosing i hi :=
    (h'.enclosing i (Nat.lt_of_lt_of_le hi h.size)).trans (h.enclosing i hi)

theorem add (fs : Frames) (enclosing : Option Nat) : LinkedIn fs (fs.add enclosing) where
  size := by rw [size_add]; exact Nat.le_succ _
  enclosing i hi := by rw [enclosing?_add, if_neg (Nat.ne_of_lt hi)]

theorem write (fs : Frames) (i : Nat) (name : String) (slot : Option Value) :
    LinkedIn fs (fs.write i name slot) where
  size := Nat.le_of_eq (fs.size_write i name slot).symm
  enclosing j _ := fs.enclosing?_write i j name slot

theorem enclosing?_some (h : LinkedIn fs fs') (hi : fs.enclosing? i = some j) :
    fs'.enclosing? i = some j :=
  (h.enclosing i (lt_size_of_enclosing? hi)).trans hi

/-- What lies outward stays there. -/
theorem outward (h : LinkedIn fs fs') (hi : fs.Outward i j) : fs'.Outward i j :=
  Relation.ReflTransGen.mono (fun _ _ => h.enclosing?_some) _ _ hi

/-- The global frame stays the outermost one. -/
theorem root (h : LinkedIn fs fs') (hglobal : globalFrame < fs.size)
    (hroot : fs.enclosing? globalFrame = none) :
    globalFrame < fs'.size ∧ fs'.enclosing? globalFrame = none :=
  ⟨Nat.lt_of_lt_of_le hglobal h.size, (h.enclosing _ hglobal).trans hroot⟩

end LinkedIn

/-- No frame lies outward from one without an enclosing frame. -/
theorem Outward.eq_of_root (h : fs.Outward i j) (hroot : fs.enclosing? i = none) : j = i := by
  induction h using Relation.ReflTransGen.head_induction_on with
  | refl => rfl
  | head h =>
    rw [hroot] at h
    cases h

/-! ### Parameters -/

@[simp] theorem size_bindAll (fs : Frames) (i : Nat) (params : List Name)
    (arguments : List Value) : (fs.bindAll i params arguments).size = fs.size := by
  induction params generalizing fs arguments with
  | nil => rfl
  | cons p params ih =>
    cases arguments with
    | nil => rfl
    | cons v arguments => exact (ih _ arguments).trans (fs.size_write _ _ _)

@[simp] theorem enclosing?_bindAll (fs : Frames) (i j : Nat) (params : List Name)
    (arguments : List Value) :
    (fs.bindAll i params arguments).enclosing? j = fs.enclosing? j := by
  induction params generalizing fs arguments with
  | nil => rfl
  | cons p params ih =>
    cases arguments with
    | nil => rfl
    | cons v arguments => exact (ih _ arguments).trans (fs.enclosing?_write _ _ _ _)

theorem size_bindAll_add (fs : Frames) (enclosing : Option Nat) (i : Nat) (params : List Name)
    (arguments : List Value) :
    ((fs.add enclosing).bindAll i params arguments).size = fs.size + 1 :=
  (size_bindAll _ _ _ _).trans (size_add _ _)

/-- A frame that is made for a call stays where it is while the parameters get their values. -/
theorem enclosing?_bindAll_add (fs : Frames) (enclosing : Option Nat) (i : Nat)
    (params : List Name) (arguments : List Value) :
    ((fs.add enclosing).bindAll i params arguments).enclosing? fs.size = enclosing :=
  (enclosing?_bindAll _ _ _ _ _).trans ((enclosing?_add _ _ _).trans (if_pos rfl))

/-- A write that is seen is at its own frame and name. -/
theorem eq_of_slot?_write_ne {i j : Nat} {name other : String} {slot : Option Value}
    (h : (fs.write i name slot).slot? j other ≠ fs.slot? j other) : i = j ∧ name = other := by
  by_contra hne
  refine h ?_
  by_cases hi : i < fs.size
  · rw [fs.slot?_write hi, if_neg hne]
  · exact slot?_write_of_le (Nat.le_of_not_lt hi) j name other slot

theorem slot?_bindAll_of_ne (fs : Frames) {i j : Nat} (hij : i ≠ j) (params : List Name)
    (arguments : List Value) (name : String) :
    (fs.bindAll i params arguments).slot? j name = fs.slot? j name := by
  induction params generalizing fs arguments with
  | nil => rfl
  | cons p params ih =>
    cases arguments with
    | nil => rfl
    | cons v arguments =>
      refine (ih _ arguments).trans ?_
      by_contra hne
      exact hij (eq_of_slot?_write_ne hne).1

/-! ### How frames change -/

/-- A frame is made, after a run has come to certain moments. -/
inductive Made (met : Set Moment) : Frames → Frames → Prop
  /-- A block is executed in a frame without variables. -/
  | block {body : List Stmt} {m : Machine} (hmet : ⟨.node (.stmt (.block body)), m⟩ ∈ met) :
    Made met m.frames m.inside.frames
  /-- A function is called, in a frame in which the parameters have their values. -/
  | call {f : Closure} {arguments : List Value} {m : Machine}
      (hmet : ⟨.call f arguments, m⟩ ∈ met) : Made met m.frames (f.entered arguments m).frames
  /-- A method is bound to a receiver. -/
  | receiver (fs : Frames) (f : Closure) (v : Value) :
    Made met fs (fs.addBinding f.frame "this" v)
  /-- The methods of a class close over its superclass. -/
  | superclass {name : Name} {s : Superclass} {methods : List FunctionDecl} {m : Machine}
      (hmet : ⟨.node (.stmt (.class name (some s) methods)), m⟩ ∈ met) (fs : Frames) (c : Nat) :
    Made met fs (fs.addBinding m.current "super" (.cls c))

/-- A variable is written by a declaration or an assignment at a node to which a run has come: a
variable in a frame outward from the one that is current there, or a global one. -/
inductive Written (met : Set Moment) (i : Nat) (name : String) : Frames → Frames → Prop
  | mk {node : Node} {m : Machine} {fs : Frames} (hmet : ⟨.node node, m⟩ ∈ met)
      (hnode : node.Binds name) (hi : fs.Outward m.current i ∨ fs.Outward globalFrame i)
      (slot : Option Value) : Written met i name fs (fs.write i name slot)

/-- The frames of a run change step by step. -/
abbrev Changes (met : Set Moment) : Frames → Frames → Prop :=
  Relation.ReflTransGen fun fs fs' => Made met fs fs' ∨ ∃ i name, Written met i name fs fs'

variable {met met' : Set Moment}

theorem Made.size_eq (h : Made met fs fs') : fs'.size = fs.size + 1 := by
  cases h with
  | block => exact size_add _ _
  | call => exact size_bindAll_add _ _ _ _ _
  | receiver => exact size_addBinding _ _ _ _
  | superclass => exact size_addBinding _ _ _ _

theorem Made.linkedIn (h : Made met fs fs') : LinkedIn fs fs' where
  size := Nat.le_of_lt (Nat.lt_of_lt_of_eq (Nat.lt_succ_self _) h.size_eq.symm)
  enclosing i hi := by
    cases h with
    | block => exact (LinkedIn.add _ _).enclosing i hi
    | call => exact (enclosing?_bindAll _ _ _ _ _).trans ((LinkedIn.add _ _).enclosing i hi)
    | receiver => rw [enclosing?_addBinding, if_neg (Nat.ne_of_lt hi)]
    | superclass => rw [enclosing?_addBinding, if_neg (Nat.ne_of_lt hi)]

/-- The frames of before keep their variables when a frame is made. -/
theorem Made.slot?_eq (h : Made met fs fs') (hi : i < fs.size) (name : String) :
    fs'.slot? i name = fs.slot? i name := by
  have hne := Nat.ne_of_lt hi
  cases h with
  | block => exact (slot?_add _ _ _ _).trans (if_neg hne)
  | call => exact (slot?_bindAll_of_ne _ hne.symm _ _ _).trans ((slot?_add _ _ _ _).trans (if_neg hne))
  | receiver => rw [slot?_addBinding, if_neg hne]
  | superclass => rw [slot?_addBinding, if_neg hne]

theorem Written.linkedIn (h : Written met i name fs fs') : LinkedIn fs fs' := by
  cases h with
  | mk _ _ _ slot => exact .write fs i name slot

theorem Written.size_eq (h : Written met i name fs fs') : fs'.size = fs.size := by
  cases h with
  | mk _ _ _ slot => exact fs.size_write i name slot

theorem Written.eq_of_slot?_ne {other : String} (h : Written met i name fs fs')
    (hne : fs'.slot? j other ≠ fs.slot? j other) : i = j ∧ name = other := by
  cases h with
  | mk => exact eq_of_slot?_write_ne hne

theorem Changes.linkedIn (h : Changes met fs fs') : LinkedIn fs fs' := by
  induction h with
  | refl => exact .refl fs
  | tail _ h ih =>
    rcases h with h | ⟨i, name, h⟩
    · exact ih.trans h.linkedIn
    · exact ih.trans h.linkedIn

/-! ### Confinement -/

/-- Among the changes from some frames to others there is a write of a variable, while its frame lay
outward from the frame that was current at the declaration or the assignment. -/
def WrittenBetween (met : Set Moment) (fs fs' : Frames) (i : Nat) (name : String) : Prop :=
  ∃ (node : Node) (m : Machine) (fs₁ : Frames) (slot : Option Value),
    ⟨.node node, m⟩ ∈ met ∧ node.Binds name ∧ Changes met fs fs₁ ∧ fs₁.Outward m.current i ∧
      Changes met (fs₁.write i name slot) fs'

/-- What the changes from some frames to others mean for each frame. -/
structure Confined (met : Set Moment) (fs fs' : Frames) : Prop where
  size : fs.size ≤ fs'.size
  /-- A frame keeps its enclosing frame. -/
  enclosing : ∀ i < fs.size, fs'.enclosing? i = fs.enclosing? i
  /-- A local frame of before changes by writes outward. -/
  slots : ∀ i < fs.size, i ≠ globalFrame → ∀ name, fs'.slot? i name ≠ fs.slot? i name →
    WrittenBetween met fs fs' i name
  /-- A new frame is made, with its enclosing frame and its first variables, and from then on it
  changes by writes outward. -/
  made : ∀ i, fs.size ≤ i → i < fs'.size → ∃ fs₁ fs₂, Changes met fs fs₁ ∧ fs₁.size = i ∧
    Made met fs₁ fs₂ ∧ fs'.enclosing? i = fs₂.enclosing? i ∧
      ∀ name, fs'.slot? i name ≠ fs₂.slot? i name → WrittenBetween met fs₂ fs' i name

theorem WrittenBetween.tail (h : WrittenBetween met fs fs' i name) (h' : Changes met fs' fs'') :
    WrittenBetween met fs fs'' i name := by
  obtain ⟨node, m, fs₁, slot, hmet, hnode, hbefore, hi, hafter⟩ := h
  exact ⟨node, m, fs₁, slot, hmet, hnode, hbefore, hi, hafter.trans h'⟩

/-- A variable of a local frame that has changed has been written. -/
theorem Changes.writtenBetween (h : Changes met fs fs') (hglobal : globalFrame < fs.size)
    (hroot : fs.enclosing? globalFrame = none) (hi : i < fs.size) (hlocal : i ≠ globalFrame)
    (hne : fs'.slot? i name ≠ fs.slot? i name) : WrittenBetween met fs fs' i name := by
  induction h with
  | refl => exact absurd rfl hne
  | @tail fs₁ fs₂ hbefore hlast ih =>
    by_cases hchanged : fs₁.slot? i name = fs.slot? i name
    · -- the last change is the one
      rw [← hchanged] at hne
      rcases hlast with hlast | ⟨j, other, hlast⟩
      · exact absurd (hlast.slot?_eq (Nat.lt_of_lt_of_le hi (Changes.linkedIn hbefore).size) name) hne
      · obtain ⟨rfl, rfl⟩ := hlast.eq_of_slot?_ne hne
        cases hlast with
        | @mk node m _ hmet hnode hj slot =>
          have hroot₁ := (Changes.linkedIn hbefore).root hglobal hroot
          have hj := hj.resolve_right fun hj => hlocal (hj.eq_of_root hroot₁.2)
          exact ⟨node, m, fs₁, slot, hmet, hnode, hbefore, hj, .refl⟩
    · exact (ih hchanged).tail (.single hlast)

/-- A new frame has been made. -/
theorem Changes.exists_made (h : Changes met fs fs') (hi : fs.size ≤ i) (hi' : i < fs'.size) :
    ∃ fs₁ fs₂, Changes met fs fs₁ ∧ fs₁.size = i ∧ Made met fs₁ fs₂ ∧ Changes met fs₂ fs' := by
  induction h with
  | refl => exact absurd hi' (Nat.not_lt.mpr hi)
  | @tail fs₁ fs₂ hbefore hlast ih =>
    by_cases hlt : i < fs₁.size
    · obtain ⟨fs₃, fs₄, h₃, hsize, hmade, h₄⟩ := ih hlt
      exact ⟨fs₃, fs₄, h₃, hsize, hmade, h₄.tail hlast⟩
    · rcases hlast with hlast | ⟨j, other, hlast⟩
      · have hsize := hlast.size_eq
        exact ⟨fs₁, fs₂, hbefore, by omega, hlast, .refl⟩
      · have hsize := hlast.size_eq
        exact absurd (hsize ▸ hi') hlt

/-- Every change is confined. -/
theorem Changes.confined (h : Changes met fs fs') (hglobal : globalFrame < fs.size)
    (hroot : fs.enclosing? globalFrame = none) : Confined met fs fs' where
  size := h.linkedIn.size
  enclosing := h.linkedIn.enclosing
  slots _ hi hlocal _ := h.writtenBetween hglobal hroot hi hlocal
  made i hi hi' := by
    obtain ⟨fs₁, fs₂, hbefore, rfl, hmade, hafter⟩ := h.exists_made hi hi'
    have hlt : fs₁.size < fs₂.size := hmade.size_eq ▸ Nat.lt_succ_self _
    have hroot₁ := (Changes.linkedIn hbefore).root hglobal hroot
    have hroot₂ := hmade.linkedIn.root hroot₁.1 hroot₁.2
    refine ⟨fs₁, fs₂, hbefore, rfl, hmade, (Changes.linkedIn hafter).enclosing _ hlt, fun name hne => ?_⟩
    exact hafter.writtenBetween hroot₂.1 hroot₂.2 hlt (Nat.ne_of_gt hroot₁.1) hne

end Frames

/-! ### The frames of a run -/

variable {met all : Set Moment} {m m' : Machine} {log : List Moment}

theorem Frames.Update.changes {fs fs' : Frames} {current : Nat} (h : Update met current fs fs') :
    Changes met fs fs' := by
  cases h with
  | write hmet hcurrent hnode hi slot =>
    subst hcurrent
    exact .single (.inr ⟨_, _, .mk hmet hnode hi slot⟩)
  | receiver _ f v => exact .single (.inl (.receiver fs f v))
  | superclass hmet hcurrent _ c =>
    subst hcurrent
    exact .single (.inl (.superclass hmet fs c))

theorem Action.changes (h : Action met m m') : Frames.Changes met m.frames m'.frames := by
  cases h with
  | update h => exact h.changes
  | _ => exact .refl

/-- Built-in functions leave the frames as they are. -/
theorem Native.frames_after (n : Native) (arguments : List Value) (line : Nat) (m : Machine) :
    ((n.run arguments line).after m).frames = m.frames := by
  cases n with
  | clock | print | printLine => rfl
  | readLine =>
    have hframes := congrArg Machine.frames (Run.after_readLine line m)
    exact hframes

/-- A block and a function are entered in a frame that is made for them; otherwise the frames stay. -/
theorem Event.changes_next {event : Event} (hmet : ⟨event, m⟩ ∈ met) :
    Frames.Changes met m.frames (event.next m).frames := by
  cases event with
  | call f arguments => exact .single (.inl (.call hmet))
  | native n arguments line => rw [next, n.frames_after]
  | node node =>
    cases node with
    | stmt s =>
      cases s with
      | block body => exact .single (.inl (.block hmet))
      | _ => exact .refl
    | _ => exact .refl

namespace Course

/-- What holds from each machine to each later one, up to some machine and from that machine on,
holds from each to each later one of all of them. -/
theorem pairwise_join {R : Machine → Machine → Prop} (htrans : ∀ {a b c}, R a b → R b c → R a c)
    {before after : List Machine} (h : (before ++ [m]).Pairwise R) (h' : (m :: after).Pairwise R) :
    (before ++ after).Pairwise R := by
  obtain ⟨hbefore, -, hend⟩ := List.pairwise_append.mp h
  obtain ⟨hbegin, hafter⟩ := List.pairwise_cons.mp h'
  refine List.pairwise_append.mpr ⟨hbefore, hafter, fun a ha b hb => ?_⟩
  exact htrans (hend a ha m (List.mem_singleton_self m)) (hbegin b hb)

/-- From each moment of a run to each later one, and to the end, the frames change in the ways in
which the frames of runs change. -/
theorem pairwise_changes (h : Course met m log m') (hmet : met ⊆ all) (hlog : ∀ p ∈ log, p ∈ all) :
    (m :: log.map (·.machine) ++ [m']).Pairwise fun a b => Frames.Changes all a.frames b.frames := by
  induction h with
  | done met m => simpa using Relation.ReflTransGen.refl
  | @act met m m₁ m' log h later ih =>
    obtain ⟨hhead, htail⟩ := List.pairwise_cons.mp (ih hmet hlog)
    have hact := (h.mono hmet).changes
    exact .cons (fun b hb => hact.trans (hhead b hb)) htail
  | @event met m m₁ m' log log' event inner later ihInner ih =>
    obtain ⟨hevent, hrest⟩ := List.forall_mem_cons.mp hlog
    obtain ⟨hinner, hafter⟩ := List.forall_mem_append.mp hrest
    have hjoined : (event.next m :: (log ++ log').map (·.machine) ++ [m']).Pairwise
        fun a b => Frames.Changes all a.frames b.frames := by
      rw [List.map_append, ← List.cons_append, List.append_assoc]
      exact pairwise_join Relation.ReflTransGen.trans
        (ihInner (Set.insert_subset hevent hmet) hinner) (ih hmet hafter)
    obtain ⟨hhead, htail⟩ := List.pairwise_cons.mp hjoined
    have hfrom : ∀ b ∈ (log ++ log').map (·.machine) ++ [m'], Frames.Changes all m.frames b.frames :=
      fun b hb => (Event.changes_next hevent).trans (hhead b hb)
    refine .cons (fun b hb => ?_) (.cons hfrom htail)
    rcases List.mem_cons.mp hb with rfl | hb
    · exact .refl
    · exact hfrom b hb

theorem changes (h : Course met m log m') (hmet : met ⊆ all) (hlog : ∀ p ∈ log, p ∈ all) :
    Frames.Changes all m.frames m'.frames :=
  (List.pairwise_cons.mp (h.pairwise_changes hmet hlog)).1 m'
    (List.mem_append_right _ (List.mem_singleton_self m'))

theorem linkedIn (h : Course met m log m') : Frames.LinkedIn m.frames m'.frames :=
  Frames.Changes.linkedIn (h.changes (Set.subset_univ met) fun _ _ => Set.mem_univ _)

/-- To each moment of a run the frames change in the same ways. -/
theorem changes_of_mem (h : Course met m log m') (hmet : met ⊆ all) (hlog : ∀ p ∈ log, p ∈ all)
    {p : Moment} (hp : p ∈ log) : Frames.Changes all m.frames p.machine.frames :=
  (List.pairwise_cons.mp (h.pairwise_changes hmet hlog)).1 _
    (List.mem_append_left _ (List.mem_map_of_mem hp))

end Course

/-! ### A frame for every block and every call -/

/-- A block or a function is entered. -/
def Event.Enters : Event → Prop
  | .node (.stmt (.block _)) => True
  | .call _ _ => True
  | _ => False

/-- A block and a function are entered in a frame that was not there before. -/
theorem Event.Enters.next_eq {event : Event} (h : event.Enters) (m : Machine) :
    (event.next m).current = m.frames.size ∧ (event.next m).frames.size = m.frames.size + 1 := by
  cases event with
  | call f arguments => exact ⟨rfl, Frames.size_bindAll_add _ _ _ _ _⟩
  | native => cases h
  | node node =>
    cases node with
    | stmt s =>
      cases s with
      | block body => exact ⟨rfl, Frames.size_add _ _⟩
      | _ => cases h
    | _ => cases h

theorem Event.linkedIn_next (event : Event) (m : Machine) :
    Frames.LinkedIn m.frames (event.next m).frames := by
  have hmet : (⟨event, m⟩ : Moment) ∈ Set.univ := Set.mem_univ _
  exact Frames.Changes.linkedIn (changes_next hmet)

/-- From the machine after a moment of a run to the end the frames change in the ways in which the frames
of runs change. -/
theorem Course.changes_next_of_mem (h : Course met m log m') (hmet : met ⊆ all)
    (hlog : ∀ p ∈ log, p ∈ all) :
    ∀ p ∈ log, Frames.Changes all (p.event.next p.machine).frames m'.frames := by
  induction h with
  | done => exact fun p hp => absurd hp List.not_mem_nil
  | act _ _ ih => exact ih hmet hlog
  | event event inner later ihInner ih =>
    obtain ⟨hevent, hrest⟩ := List.forall_mem_cons.mp hlog
    obtain ⟨hinner, hafter⟩ := List.forall_mem_append.mp hrest
    have hmetInner := Set.insert_subset hevent hmet
    have hlater := later.changes hmet hafter
    refine List.forall_mem_cons.mpr ⟨?_, List.forall_mem_append.mpr ⟨fun p hp => ?_, ih hmet hafter⟩⟩
    · exact (inner.changes hmetInner hinner).trans hlater
    · exact (ihInner hmetInner hinner p hp).trans hlater

/-- So they do from there to each later moment. -/
theorem Course.pairwise_changes_next (h : Course met m log m') (hmet : met ⊆ all)
    (hlog : ∀ p ∈ log, p ∈ all) : log.Pairwise fun p q =>
      Frames.Changes all (p.event.next p.machine).frames q.machine.frames := by
  induction h with
  | done => exact .nil
  | act _ _ ih => exact ih hmet hlog
  | event event inner later ihInner ih =>
    obtain ⟨hevent, hrest⟩ := List.forall_mem_cons.mp hlog
    obtain ⟨hinner, hafter⟩ := List.forall_mem_append.mp hrest
    have hmetInner := Set.insert_subset hevent hmet
    refine .cons (List.forall_mem_append.mpr ⟨fun q hq => ?_, fun q hq => ?_⟩)
      (List.pairwise_append.mpr ⟨ihInner hmetInner hinner, ih hmet hafter, fun p hp q hq => ?_⟩)
    · exact inner.changes_of_mem hmetInner hinner hq
    · exact (inner.changes hmetInner hinner).trans (later.changes_of_mem hmet hafter hq)
    · exact (inner.changes_next_of_mem hmetInner hinner p hp).trans
        (later.changes_of_mem hmet hafter hq)

/-- No two blocks or calls of a run are entered in the same frame. -/
theorem Course.pairwise_size_lt (h : Course met m log m') :
    log.Pairwise fun p q => p.event.Enters → p.machine.frames.size < q.machine.frames.size := by
  have hchanges := h.pairwise_changes_next (Set.subset_univ met) fun _ _ => Set.mem_univ _
  refine hchanges.imp fun {p q} hchanges henters => ?_
  refine Nat.lt_of_lt_of_le ?_ (Frames.Changes.linkedIn hchanges).size
  rw [(henters.next_eq p.machine).2]
  exact Nat.lt_succ_self _

/-! ### What a call reaches -/

namespace Frames

/-- From a frame outward one comes to another one, and only frames from a certain number on are left
on the way. -/
def OutwardAbove (base : Nat) (fs : Frames) : Nat → Nat → Prop :=
  Relation.ReflTransGen fun i j => base ≤ i ∧ fs.enclosing? i = some j

/-- A frame lies inside the frame of a call, or is the frame itself, and all frames on the way are
from a certain number on. -/
def InCall (base : Nat) (calls : Set Moment) (fs : Frames) (i : Nat) : Prop :=
  ∃ (g : Closure) (arguments : List Value) (m : Machine), ⟨.call g arguments, m⟩ ∈ calls ∧
    base ≤ m.frames.size ∧ fs.enclosing? m.frames.size = some g.frame ∧
      fs.OutwardAbove base i m.frames.size

variable {base i c : Nat} {fs fs' : Frames}

theorem InCall.linkedIn (h : InCall base all fs c) (hlinked : LinkedIn fs fs') :
    InCall base all fs' c := by
  obtain ⟨g, arguments, m, hmem, hbase, henclosing, hout⟩ := h
  refine ⟨g, arguments, m, hmem, hbase, hlinked.enclosing?_some henclosing, ?_⟩
  exact Relation.ReflTransGen.mono (fun _ _ h => ⟨h.1, hlinked.enclosing?_some h.2⟩) _ _ hout

/-- A frame of before that lies outward from a frame in a call lies outward from the frame that the
called function closes over. -/
theorem InCall.exists_outward (h : InCall base all fs c) (hi : i < base) (hout : fs.Outward c i) :
    ∃ (g : Closure) (arguments : List Value) (m : Machine), ⟨.call g arguments, m⟩ ∈ all ∧
      fs.Outward g.frame i := by
  obtain ⟨g, arguments, m, hmem, hbase, henclosing, habove⟩ := h
  refine ⟨g, arguments, m, hmem, ?_⟩
  -- the way outward to the frame of the call is the beginning of the way to the frame of before
  induction habove using Relation.ReflTransGen.head_induction_on with
  | refl =>
    rcases hout.cases_head with rfl | ⟨j, hj, hout⟩
    · exact absurd hi (Nat.not_lt.mpr hbase)
    · rw [henclosing] at hj
      cases hj
      exact hout
  | head hstep _ ih =>
    rcases hout.cases_head with rfl | ⟨j, hj, hout⟩
    · exact absurd hi (Nat.not_lt.mpr hstep.1)
    · rw [hstep.2] at hj
      cases hj
      exact ih hout

end Frames

variable {base : Nat}

theorem Action.linkedIn (h : Action met m m') : Frames.LinkedIn m.frames m'.frames :=
  Frames.Changes.linkedIn h.changes

/-- After an action the same frame is current, or one that was current at a moment before. -/
theorem Action.current_eq (h : Action met m m') :
    m'.current = m.current ∨ ∃ p ∈ met, m'.current = p.machine.current := by
  cases h with
  | leave hp => exact .inr ⟨_, hp, rfl⟩
  | _ => exact .inl rfl

/-- The frame that is current after an event lies in a call if that of before does. -/
theorem Event.inCall_next {event : Event} (hmem : ⟨event, m⟩ ∈ all) (hbase : base ≤ m.frames.size)
    (h : Frames.InCall base all m.frames m.current) :
    Frames.InCall base all (event.next m).frames (event.next m).current := by
  have hlater := h.linkedIn (event.linkedIn_next m)
  cases event with
  | call f arguments =>
    exact ⟨f, arguments, m, hmem, hbase, Frames.enclosing?_bindAll_add _ _ _ _ _, .refl⟩
  | native n arguments line =>
    rwa [next, (Run.IsOperation.native n arguments line).keepsCurrent.after m]
  | node node =>
    cases node with
    | stmt s =>
      cases s with
      | block body =>
        obtain ⟨g, arguments, m₁, hcall, hbase₁, henclosing, hout⟩ := hlater
        have hinside : m.inside.frames.enclosing? m.frames.size = some m.current :=
          (Frames.enclosing?_add _ _ _).trans (if_pos rfl)
        exact ⟨g, arguments, m₁, hcall, hbase₁, henclosing, .head ⟨hbase, hinside⟩ hout⟩
      | _ => exact h
    | _ => exact h

/-- Whatever frame becomes current while a function is called lies in that call or in another one that
is made meanwhile. -/
theorem Course.inCall (h : Course met m log m') (hlog : ∀ p ∈ log, p ∈ all)
    (hbase : base ≤ m.frames.size) (hcurrent : Frames.InCall base all m.frames m.current)
    (hmet : ∀ p ∈ met, Frames.InCall base all m.frames p.machine.current) :
    (∀ p ∈ log, Frames.InCall base all m'.frames p.machine.current) ∧
      Frames.InCall base all m'.frames m'.current := by
  induction h with
  | done => exact ⟨fun p hp => absurd hp List.not_mem_nil, hcurrent⟩
  | @act met m m₁ m' log h later ih =>
    have hlinked := h.linkedIn
    have hmet₁ := fun p hp => (hmet p hp).linkedIn hlinked
    refine ih hlog (Nat.le_trans hbase hlinked.size) ?_ hmet₁
    rcases h.current_eq with heq | ⟨p, hp, heq⟩
    · rw [heq]
      exact hcurrent.linkedIn hlinked
    · rw [heq]
      exact hmet₁ p hp
  | @event met m m₁ m' log log' event inner later ihInner ih =>
    obtain ⟨hevent, hrest⟩ := List.forall_mem_cons.mp hlog
    obtain ⟨hinner, hafter⟩ := List.forall_mem_append.mp hrest
    have hnext := event.linkedIn_next m
    have hmetNext : ∀ p ∈ insert ⟨event, m⟩ met,
        Frames.InCall base all (event.next m).frames p.machine.current := by
      intro p hp
      rcases Set.mem_insert_iff.mp hp with rfl | hp
      · exact hcurrent.linkedIn hnext
      · exact (hmet p hp).linkedIn hnext
    obtain ⟨hlogInner, hcurrent₁⟩ := ihInner hinner (Nat.le_trans hbase hnext.size)
      (Event.inCall_next hevent hbase hcurrent) hmetNext
    have hlinked := hnext.trans inner.linkedIn
    obtain ⟨hlogLater, hcurrent'⟩ := ih hafter (Nat.le_trans hbase hlinked.size) hcurrent₁
      fun p hp => (hmet p hp).linkedIn hlinked
    refine ⟨List.forall_mem_cons.mpr ⟨?_, List.forall_mem_append.mpr ⟨?_, hlogLater⟩⟩, hcurrent'⟩
    · exact hcurrent.linkedIn (hlinked.trans later.linkedIn)
    · exact fun p hp => (hlogInner p hp).linkedIn later.linkedIn

/-- The log of a call: the call itself, and the log of the body. -/
theorem Run.Logs.invoke {lookup : Lookup} {fuel : Nat} {f : Closure} {arguments : List Value}
    (h : Logs (fun watch => executeAll (watched watch lookup fuel).execute f.decl.body)
      (f.entered arguments m) log) :
    Logs (fun watch => (watched watch lookup (fuel + 1)).invoke f arguments) m
      (⟨.call f arguments, m⟩ :: log) := by
  have hbody : Logs (fun watch => invokeStep (watched watch lookup fuel) f arguments) m log := by
    refine .of_eq ((Logs.within (m := { f.entered arguments m with current := m.current }) h).bind_const
      fun flow => if f.isInitializer then receiverOf f else Pure.pure flow.value) fun watch => ?_
    exact (bind_of_ok rfl).trans (bind_of_ok (bindParameters_apply _ _ _ _))
  exact (Logs.event (.call f arguments) m).bind_ok rfl hbody

/-- A call leaves the frames that its body leaves. -/
theorem frames_after_invoke (lookup : Lookup) (fuel : Nat) (f : Closure) (arguments : List Value)
    (m : Machine) : ((invoke lookup (fuel + 1) f arguments).after m).frames =
      ((executeAll (execute lookup fuel) f.decl.body).after (f.entered arguments m)).frames := by
  unfold Run.after
  rw [invoke_succ_apply]
  rcases executeAll (execute lookup fuel) f.decl.body (f.entered arguments m) with
    ⟨flow, m₁⟩ | ⟨e, m₁⟩
  · have hsame : ((if f.isInitializer then receiverOf f else pure flow.value : Run Value).after
        { m₁ with current := m.current }).frames = m₁.frames := by
      split
      · rw [receiverOf, Run.after_congr (Run.get_bind_apply _ _)]
        cases m₁.frames.getAt f.frame 0 "this" <;> rfl
      · rfl
    exact hsame
  · rfl

/-- A call has a log, which begins with the call itself, and a course along the rest of it, which
begins on the machine on which the body does. -/
theorem exists_call_course (lookup : Lookup) (fuel : Nat) (f : Closure) (arguments : List Value)
    (m : Machine) : ∃ log m',
      Run.Logs (fun watch => (watched watch lookup (fuel + 1)).invoke f arguments) m
        (⟨.call f arguments, m⟩ :: log) ∧
      Course ∅ (f.entered arguments m) log m' ∧
      ((invoke lookup (fuel + 1) f arguments).after m).frames = m'.frames := by
  have hbody : Run.Unfolds ∅ (f.entered arguments m) fun watch =>
      executeAll (watched watch lookup fuel).execute f.decl.body :=
    (watched_unfolding lookup fuel).executeAll f.decl.body
  obtain ⟨log, hlog, hcourse, -⟩ := hbody
  simp only [watched_pure] at hcourse
  exact ⟨log, _, hlog.invoke, hcourse, frames_after_invoke lookup fuel f arguments m⟩

/-- Calling a function changes a local frame of before only by writes outward, and only if a function
is called meanwhile that closes over that frame, or over one inside it. -/
theorem invoke_confined (lookup : Lookup) (fuel : Nat) (f : Closure) (arguments : List Value)
    (hglobal : globalFrame < m.frames.size) (hroot : m.frames.enclosing? globalFrame = none) :
    ∃ inner, Run.Logs (fun watch => (watched watch lookup fuel).invoke f arguments) m inner ∧
      Frames.Confined {p | p ∈ inner} m.frames ((invoke lookup fuel f arguments).after m).frames ∧
      ∀ i < m.frames.size, i ≠ globalFrame → ∀ name,
        ((invoke lookup fuel f arguments).after m).frames.slot? i name ≠ m.frames.slot? i name →
        ∃ (g : Closure) (vs : List Value) (m₁ : Machine), ⟨.call g vs, m₁⟩ ∈ inner ∧
          ((invoke lookup fuel f arguments).after m).frames.Outward g.frame i := by
  cases fuel with
  | zero =>
    refine ⟨[], .const _ m, Frames.Changes.confined .refl hglobal hroot, fun i _ _ name hne => ?_⟩
    exact absurd rfl hne
  | succ fuel =>
    obtain ⟨log, m', hlog, hcourse, hframes⟩ := exists_call_course lookup fuel f arguments m
    rw [hframes]
    refine ⟨_, hlog, ?_⟩
    generalize hinner : (⟨.call f arguments, m⟩ : Moment) :: log = inner
    have hmem : ∀ p ∈ log, p ∈ inner := fun p hp => hinner ▸ List.mem_cons_of_mem _ hp
    have hcall : ⟨.call f arguments, m⟩ ∈ inner := hinner ▸ List.mem_cons_self
    have hbegin : Frames.Made {p | p ∈ inner} m.frames (f.entered arguments m).frames := .call hcall
    have hchanges : Frames.Changes {p | p ∈ inner} m.frames m'.frames :=
      .head (.inl hbegin) (hcourse.changes (Set.empty_subset _) hmem)
    have hconfined := hchanges.confined hglobal hroot
    refine ⟨hconfined, fun i hi hlocal name hne => ?_⟩
    -- the write belongs to a node that the run came to in the body
    obtain ⟨node, m₁, fs₁, slot, hwrite, -, -, hout, hafter⟩ := hconfined.slots i hi hlocal name hne
    have hwrite : ⟨.node node, m₁⟩ ∈ log := by
      rcases List.mem_cons.mp (hinner ▸ hwrite) with heq | hwrite
      · cases heq
      · exact hwrite
    have henclosing : (f.entered arguments m).frames.enclosing? m.frames.size = some f.frame :=
      Frames.enclosing?_bindAll_add _ _ _ _ _
    obtain ⟨hinCall, -⟩ : (∀ p ∈ log,
        Frames.InCall m.frames.size {p | p ∈ inner} m'.frames p.machine.current) ∧ _ :=
      hcourse.inCall hmem hbegin.linkedIn.size
        ⟨f, arguments, m, hcall, Nat.le_refl _, henclosing, .refl⟩
        fun p hp => absurd hp (Set.notMem_empty p)
    have hlinked := (Frames.LinkedIn.write fs₁ i name slot).trans (Frames.Changes.linkedIn hafter)
    exact (hinCall _ hwrite).exists_outward hi (hlinked.outward hout)

end Treewalk
