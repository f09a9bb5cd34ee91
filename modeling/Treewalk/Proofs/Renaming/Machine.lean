import Treewalk.Evaluation
import Treewalk.Proofs.Relocation.Machine
import Treewalk.Proofs.Renaming.Scoping
import Treewalk.Proofs.Run.Holding
import Treewalk.Proofs.Run.Tables

/-!
# Renamed machines

A machine that runs a renamed program has frames, classes and objects at the same places as the one that
runs the program. In the frames of the renamed scope the two names are exchanged. Which frames these are
cannot be seen on the machines; it is remembered in a *layout*, to which every new frame is added and in
which nothing ever changes.

## Main definitions

* `Layout`, `Layout.At`: what is remembered of frames, and how far outward a frame of the renamed scope
  is.
* `Closure.Renamed`, `Value.Renamed`: functions and values with renamed declarations.
* `Frames.Renamed`, `Machine.Renamed`: frames and machines of a renamed program.

## Main results

* `Layout.At.renames_ancestor`: a distance leads to a frame of the renamed scope just if it is that of
  the renamed scope.
* `Frames.Renamed.write`, `Machine.Renamed.tables`: frames that are written, and what is looked up.
-/

namespace Treewalk

/-! ### Layouts -/

/-- What is remembered of a frame. -/
structure Shape where
  /-- The frame around it. -/
  enclosing : Option Nat
  /-- Whether it is a frame of the renamed scope. -/
  renamed : Bool

/-- What is remembered of the frames of a machine. -/
abbrev Layout := List Shape

namespace Layout

/-- Whether a frame is one of the renamed scope. -/
def renames (W : Layout) (i : Nat) : Bool :=
  W[i]?.any (·.renamed)

/-- A name in a frame: the two names are exchanged in the frames of the renamed scope. -/
def word (r : Renaming) (W : Layout) (i : Nat) (name : String) : String :=
  if W.renames i then Equiv.swap r.old r.new name else name

/-- How many frames outward from a frame one of the renamed scope is, if there is any. -/
inductive At (W : Layout) : Nat → Option Nat → Prop
  | outermost {i : Nat} (h : W[i]? = some ⟨none, false⟩) : At W i none
  | renamed {i j : Nat} (h : W[i]? = some ⟨some j, true⟩) (hj : At W j none) : At W i (some 0)
  | inside {i j : Nat} {depth : Option Nat} (h : W[i]? = some ⟨some j, false⟩) (hj : At W j depth) :
    At W i (depth.map (· + 1))

theorem word_injective {r : Renaming} {W : Layout} {i : Nat} : Function.Injective (W.word r i) := by
  intro name other h
  unfold word at h
  split at h
  · exact (Equiv.swap r.old r.new).injective h
  · exact h

variable {W W' : Layout} {i : Nat} {depth : Option Nat}

theorem getElem?_mono (hW : W <+: W') {shape : Shape} (h : W[i]? = some shape) :
    W'[i]? = some shape := by
  obtain ⟨later, rfl⟩ := hW
  rw [List.getElem?_append_left (List.getElem?_eq_some_iff.mp h).1, h]

theorem At.mono (h : W.At i depth) (hW : W <+: W') : W'.At i depth := by
  induction h with
  | outermost h => exact .outermost (getElem?_mono hW h)
  | renamed h _ ih => exact .renamed (getElem?_mono hW h) ih
  | inside h _ ih => exact .inside (getElem?_mono hW h) ih

/-- The frame of a scope that has just been opened. -/
theorem At.opened {declares : Prop} {g inner : Region} (hopens : g.Opens declares inner) {j : Nat}
    (h : W[i]? = some ⟨some j, inner.depth == some 0⟩) (hj : W.At j g.depth) : W.At i inner.depth := by
  cases hopens with
  | other =>
    have hdeepen : (g.deepen.depth == some 0) = false := by cases g <;> rfl
    rw [hdeepen] at h
    rw [Region.depth_deepen]
    exact .inside h hj
  | renamed => exact .renamed h hj

theorem At.lt_length (h : W.At i depth) : i < W.length := by
  cases h with
  | outermost h => exact (List.getElem?_eq_some_iff.mp h).1
  | renamed h _ => exact (List.getElem?_eq_some_iff.mp h).1
  | inside h _ => exact (List.getElem?_eq_some_iff.mp h).1

theorem At.renames_iff (h : W.At i depth) : W.renames i ↔ depth = some 0 := by
  cases h with
  | outermost h => simp [renames, h]
  | renamed h _ => simp [renames, h]
  | inside h _ => simp [renames, h]

/-- A distance leads to a frame of the renamed scope just if it is that of the renamed scope. -/
theorem At.renames_ancestor {fs : Frames} (hfs : ∀ i, fs.enclosing? i = W[i]?.bind (·.enclosing))
    (h : W.At i depth) (distance : Nat) :
    W.renames (fs.ancestor i distance) ↔ depth = some distance := by
  induction h generalizing distance with
  | @outermost i h =>
    have hi : fs.ancestor i distance = i := by
      cases distance with
      | zero => rfl
      | succ distance => rw [Frames.ancestor, hfs, h]; rfl
    simp [hi, renames, h]
  | @renamed i j h _ ih =>
    cases distance with
    | zero => simp [Frames.ancestor, renames, h]
    | succ distance =>
      rw [Frames.ancestor, hfs, h]
      simpa using ih distance
  | @inside i j depth h _ ih =>
    cases distance with
    | zero => simp [Frames.ancestor, renames, h]
    | succ distance =>
      rw [Frames.ancestor, hfs, h]
      simpa using ih distance

end Layout

/-! ### Functions and values -/

/-- Two nodes of the two programs. -/
def Renaming.Pair (r : Renaming) (node node' : Node) : Prop :=
  (∃ above, Occurs r.before above node) ∧ ∃ above, Occurs r.after above node'

theorem Renaming.Pair.child {r : Renaming} {node node' inner inner' : Node} (h : r.Pair node node')
    (hinner : inner ∈ node.children) (hinner' : inner' ∈ node'.children) : r.Pair inner inner' :=
  let ⟨⟨_, hbefore⟩, _, hafter⟩ := h
  ⟨⟨_, hbefore.child hinner⟩, _, hafter.child hinner'⟩

section

variable (r : Renaming) (W : Layout)

/-- A function of the one program and one of the other. Its declaration stands so many scopes inside of
that of its frame: a method that no receiver has been bound for stands inside of the scope of `this`. -/
structure Closure.Renamed (inward : Nat) (f f' : Closure) : Prop where
  id : f'.id = f.id
  frame : f'.frame = f.frame
  isInitializer : f'.isInitializer = f.isInitializer
  decl : ∃ g depth, W.At f.frame depth ∧ g.depth = depth.map (· + inward) ∧
    f.decl.Renamed r g f'.decl
  pair : r.Pair (.routine f.decl) (.routine f'.decl)

/-- A value of the one program and one of the other. -/
inductive Value.Renamed : Value → Value → Prop
  | function {f f' : Closure} (h : Closure.Renamed r W 0 f f') :
    Value.Renamed (.function f) (.function f')
  | other {v : Value} (h : ∀ f, v ≠ .function f) : Value.Renamed v v

/-- Slots of frames. -/
abbrev SlotRenamed : Option Value → Option Value → Prop :=
  Option.Rel (Value.Renamed r W)

/-- The frames `fs'` are those of the renamed program. -/
structure Frames.Renamed (fs fs' : Frames) : Prop where
  outermost : W[globalFrame]? = some ⟨none, false⟩
  size : fs.size = W.length
  size' : fs'.size = W.length
  enclosing : ∀ i, fs.enclosing? i = W[i]?.bind (·.enclosing)
  enclosing' : ∀ i, fs'.enclosing? i = W[i]?.bind (·.enclosing)
  slot : ∀ i name, Option.Rel (SlotRenamed r W) (fs.slot? i name) (fs'.slot? i (W.word r i name))

/-- The machine `m'` runs the renamed program, and both machines are in the frame `i`. -/
structure Machine.Renamed (i : Nat) (m m' : Machine) : Prop where
  frames : Frames.Renamed r W m.frames m'.frames
  distances : m.distances = r.distances
  distances' : m'.distances = r.distances
  classCount : m'.classes.size = m.classes.size
  className : ∀ c, m'.className c = m.className c
  superclass : ∀ c, m'.superclass? c = m.superclass? c
  method : ∀ c name, Option.Rel (Closure.Renamed r W 1) (m.ownMethod? c name) (m'.ownMethod? c name)
  objectCount : m'.objects.size = m.objects.size
  classOf : ∀ i, m'.classOf? i = m.classOf? i
  field : ∀ i name, Option.Rel (Value.Renamed r W) (m.field? i name) (m'.field? i name)
  closures : m'.closures = m.closures
  current : m.current = i
  current' : m'.current = i
  input : m'.input = m.input
  output : m'.output = m.output
  clock : m'.clock = m.clock
  readings : m'.readings = m.readings

end

variable {r : Renaming} {W W' : Layout}

theorem Closure.Renamed.mono {inward : Nat} {f f' : Closure} (h : Closure.Renamed r W inward f f')
    (hW : W <+: W') : Closure.Renamed r W' inward f f' :=
  let ⟨g, depth, hat, hdepth, hdecl⟩ := h.decl
  { h with decl := ⟨g, depth, hat.mono hW, hdepth, hdecl⟩ }

namespace Value.Renamed

theorem nil : Value.Renamed r W .nil .nil := .other fun _ => nofun

theorem bool (b : Bool) : Value.Renamed r W (.bool b) (.bool b) := .other fun _ => nofun

theorem number (x : Float) : Value.Renamed r W (.number x) (.number x) := .other fun _ => nofun

theorem string (s : String) : Value.Renamed r W (.string s) (.string s) := .other fun _ => nofun

theorem native (n : Native) : Value.Renamed r W (.native n) (.native n) := .other fun _ => nofun

theorem cls (c : Nat) : Value.Renamed r W (.cls c) (.cls c) := .other fun _ => nofun

theorem object (o : Nat) : Value.Renamed r W (.object o) (.object o) := .other fun _ => nofun

end Value.Renamed

theorem Value.Renamed.mono {v v' : Value} (h : Value.Renamed r W v v') (hW : W <+: W') :
    Value.Renamed r W' v v' := by
  cases h with
  | function h => exact .function (h.mono hW)
  | other h => exact .other h

/-- Where the frame of a function stands, its declaration does. -/
theorem Closure.Renamed.exists_region {f f' : Closure} (h : Closure.Renamed r W 0 f f') :
    ∃ g, W.At f.frame g.depth ∧ f.decl.Renamed r g f'.decl := by
  obtain ⟨g, depth, hat, hdepth, hdecl⟩ := h.decl
  have hdepth : g.depth = depth := by
    rw [hdepth]
    cases depth <;> rfl
  exact ⟨g, hdepth ▸ hat, hdecl⟩

theorem Closure.Renamed.name_eq {inward : Nat} {f f' : Closure}
    (h : Closure.Renamed r W inward f f') : f'.decl.name = f.decl.name :=
  let ⟨_, _, _, _, hdecl⟩ := h.decl
  hdecl.name_eq

theorem Closure.Renamed.arity_eq {inward : Nat} {f f' : Closure}
    (h : Closure.Renamed r W inward f f') : f'.decl.arity = f.decl.arity :=
  let ⟨_, _, _, _, hdecl⟩ := h.decl
  hdecl.arity_eq

/-- Functions of the two programs look the same. -/
theorem Closure.Renamed.alike {inward : Nat} {f f' : Closure}
    (h : Closure.Renamed r W inward f f') : f.Alike f' :=
  ⟨h.id, h.name_eq, h.arity_eq⟩

theorem Value.Renamed.alike {v v' : Value} (h : Value.Renamed r W v v') : v.Alike v' := by
  cases h with
  | function hf => exact .function hf.alike
  | other _ => exact .same v

/-! ### Frames -/

namespace Frames.Renamed

variable {fs fs' : Frames} (h : Frames.Renamed r W fs fs')

include h

theorem holds (i : Nat) (name : String) : fs'.holds i (W.word r i name) = fs.holds i name := by
  have hslot := h.slot i name
  unfold Frames.holds
  generalize fs.slot? i name = slot, fs'.slot? i (W.word r i name) = slot' at hslot
  cases hslot <;> rfl

theorem ancestor (i distance : Nat) : fs'.ancestor i distance = fs.ancestor i distance := by
  induction distance generalizing i with
  | zero => rfl
  | succ distance ih =>
    rw [Frames.ancestor, Frames.ancestor, h.enclosing, h.enclosing']
    cases W[i]?.bind (·.enclosing) with
    | none => rfl
    | some j => exact ih j

theorem holderAt? {i distance : Nat} {name name' : String}
    (hname : name' = W.word r (fs.ancestor i distance) name) :
    fs'.holderAt? i distance name' = fs.holderAt? i distance name := by
  rw [Frames.holderAt?, Frames.holderAt?, h.ancestor, hname, h.holds]

/-- In the outermost frame nothing is exchanged. -/
theorem word_global (name : String) : W.word r globalFrame name = name := by
  rw [Layout.word, Layout.renames, h.outermost]
  rfl

theorem holder?_global_eq (name : String) : fs.holder? globalFrame name =
    if fs.holds globalFrame name then some globalFrame else none := by
  have hlt : globalFrame < W.length := (List.getElem?_eq_some_iff.mp h.outermost).1
  refine holder?_of_outermost ?_ (h.size.symm ▸ hlt) name
  rw [h.enclosing, h.outermost]
  rfl

theorem holder?_global (name : String) :
    fs'.holder? globalFrame name = fs.holder? globalFrame name := by
  have hlt : globalFrame < W.length := (List.getElem?_eq_some_iff.mp h.outermost).1
  have hnone : fs'.enclosing? globalFrame = none := by
    rw [h.enclosing', h.outermost]
    rfl
  have hholds := h.holds globalFrame name
  rw [h.word_global] at hholds
  rw [holder?_of_outermost hnone (h.size'.symm ▸ hlt), h.holder?_global_eq, hholds]

theorem add (shape : Shape) :
    Frames.Renamed r (W ++ [shape]) (fs.add shape.enclosing) (fs'.add shape.enclosing) where
  outermost := Layout.getElem?_mono (List.prefix_append W _) h.outermost
  size := by rw [size_add, h.size, List.length_append, List.length_singleton]
  size' := by rw [size_add, h.size', List.length_append, List.length_singleton]
  enclosing i := by
    rw [enclosing?_add, h.size, h.enclosing, getElem?_append_singleton]
    split <;> rfl
  enclosing' i := by
    rw [enclosing?_add, h.size', h.enclosing', getElem?_append_singleton]
    split <;> rfl
  slot i name := by
    rw [slot?_add, slot?_add, h.size, h.size', Layout.word, Layout.renames, getElem?_append_singleton]
    split
    · exact .none
    · have hslot := h.slot i name
      exact optionRel_imp (fun _ _ => optionRel_imp fun _ _ hv => hv.mono (List.prefix_append W _)) hslot

/-- A slot is written under the name that it has in the frame. -/
theorem write (i : Nat) (name : String) {slot slot' : Option Value} (hslot : SlotRenamed r W slot slot') :
    Frames.Renamed r W (fs.write i name slot) (fs'.write i (W.word r i name) slot') where
  outermost := h.outermost
  size := by rw [size_write, h.size]
  size' := by rw [size_write, h.size']
  enclosing j := by rw [enclosing?_write, h.enclosing]
  enclosing' j := by rw [enclosing?_write, h.enclosing']
  slot j other := by
    by_cases hi : i < fs.size
    · have hi' : i < fs'.size := by rwa [h.size', ← h.size]
      rw [slot?_write fs hi, slot?_write fs' hi']
      by_cases heq : i = j ∧ name = other
      · obtain ⟨rfl, rfl⟩ := heq
        rw [if_pos ⟨rfl, rfl⟩, if_pos ⟨rfl, rfl⟩]
        exact .some hslot
      · rw [if_neg heq, if_neg]
        · exact h.slot j other
        · rintro ⟨rfl, hword⟩
          exact heq ⟨rfl, Layout.word_injective hword⟩
    · have hle := Nat.le_of_not_lt hi
      have hle' : fs'.size ≤ i := by rwa [h.size', ← h.size]
      rw [slot?_write_of_le hle, slot?_write_of_le hle']
      exact h.slot j other

end Frames.Renamed

/-! ### Machines -/

namespace Machine.Renamed

variable {m m' : Machine} {i : Nat} (h : Machine.Renamed r W i m m')

include h

/-- The frames of both machines are changed, and the layout grows. -/
theorem withFrames (hW : W <+: W') {fs fs' : Frames} (hframes : Frames.Renamed r W' fs fs') :
    Machine.Renamed r W' i { m with frames := fs } { m' with frames := fs' } :=
  { h with
    frames := hframes
    method := fun c name => optionRel_imp (fun _ _ hf => hf.mono hW) (h.method c name)
    field := fun o name => optionRel_imp (fun _ _ hv => hv.mono hW) (h.field o name) }

/-- The tables of both machines correspond to each other. -/
theorem tables : Machine.Tables (Closure.Renamed r W 1) (Value.Renamed r W) m m' :=
  { h with }

end Machine.Renamed

end Treewalk
