import Treewalk.Machine
import Treewalk.Proofs.Relocation.Trees
import Treewalk.Proofs.Scope.Rules

/-!
# Programs with a scope left out

A scope in which nothing is declared can be left out of a program. The nodes of the program get other
numbers then, under which other distances are recorded: an occurrence that is bound further out than
the spare scope is bound one scope nearer, and all others are bound where they were.

## Main definitions

* `Trimming`: the recorded distances with spare scopes and without.
* `hopsWithout`: how far outward a binding is without the spare scope.
* `Node.Reaches`: the expressions in a node, and how many scopes further in they stand.
* `Node.Trimmed`: a node whose occurrences are bound to the same scopes when the spare one is left out.

## Main results

* `Node.Trimmed.child`: what a node is, the nodes inside of it are.
* `Node.trimmed_of_kept`: a node around which there is no spare scope.
-/

namespace Treewalk

/-- The distances that are recorded with spare scopes and without. -/
structure Trimming where
  /-- The distances with spare scopes. -/
  before : Distances
  /-- The distances without them. -/
  after : Distances

/-! ### Distances -/

/-- How far outward a binding is if the scope so many scopes outward, if there is one, is left out. -/
def hopsWithout (spare : Option Nat) (hops : Nat) : Nat :=
  match spare with
  | none => hops
  | some k => if k < hops then hops - 1 else hops

theorem map_succ_ne_zero (spare : Option Nat) : spare.map (· + 1) ≠ some 0 := by
  cases spare <;> simp

variable {spare : Option Nat} {hops : Nat}

/-- One scope further in. -/
theorem hopsWithout_succ (h : spare ≠ some hops) :
    hopsWithout (spare.map (· + 1)) (hops + 1) = hopsWithout spare hops + 1 := by
  cases spare with
  | none => rfl
  | some k =>
    have hne : k ≠ hops := fun heq => h (congrArg some heq)
    simp only [hopsWithout, Option.map_some]
    split <;> split <;> omega

/-- A binding in the innermost scope stays there. -/
@[simp] theorem hopsWithout_zero (spare : Option Nat) : hopsWithout spare 0 = 0 := by
  cases spare <;> rfl

/-- One scope nearer. -/
theorem hopsWithout_pred (h : spare ≠ some hops) (hpred : spare ≠ some (hops - 1)) :
    hopsWithout spare (hops - 1) = hopsWithout spare hops - 1 := by
  cases spare with
  | none => rfl
  | some k =>
    have hne : k ≠ hops := fun heq => h (congrArg some heq)
    have hne' : k ≠ hops - 1 := fun heq => hpred (congrArg some heq)
    simp only [hopsWithout]
    split <;> split <;> omega

/-- What is recorded for one occurrence with the spare scope and without: it is not bound to the spare
scope, and its distance is without that what it should be. -/
structure Trimming.Refers (t : Trimming) (spare : Option Nat) (id id' : Nat) : Prop where
  distance : t.after.get? id' = (t.before.get? id).map (hopsWithout spare)
  ne : ∀ hops, t.before.get? id = some hops → spare ≠ some hops

/-! ### Nodes -/

namespace Node

/-- How many scopes a node opens around one that is directly inside of it. -/
def opened : Node → Node → Nat
  | .stmt (.block _), _ => 1
  | .routine _, _ => 1
  | .stmt (.class _ superclass _), .routine _ => superclass.elim 1 fun _ => 2
  | _, _ => 0

/-- An expression stands in a node, so many scopes further in. -/
inductive Reaches : Node → Nat → Expr → Prop
  | here (e : Expr) : Reaches (.expr e) 0 e
  | inside {node inner : Node} {n : Nat} {e : Expr} (hinner : inner ∈ node.children)
      (h : Reaches inner n e) : Reaches node (node.opened inner + n) e

/-- A node whose occurrences are bound to the same scopes when the scope so many scopes outward, if
there is one, is left out and the numbers of the nodes are changed. Neither an occurrence nor the
receiver for an occurrence of `super` is bound to the scope that is left out. -/
structure Trimmed (t : Trimming) (r : Relocation) (spare : Option Nat) (node : Node) : Prop where
  refers : ∀ {n e id name}, node.Reaches n e → e.occurrence? = some (id, name) →
    t.Refers (spare.map (· + n)) id (r.id id)
  receiver : ∀ {n id line method hops}, node.Reaches n (.super id line method) →
    t.before.get? id = some hops → spare.map (· + n) ≠ some (hops - 1)

namespace Trimmed

variable {t : Trimming} {r : Relocation} {node inner : Node} {e : Expr}

/-- What a node is, the nodes inside of it are. -/
theorem child (h : node.Trimmed t r spare) (hinner : inner ∈ node.children) :
    inner.Trimmed t r (spare.map (· + node.opened inner)) := by
  have hdeeper (n : Nat) : (spare.map (· + node.opened inner)).map (· + n) =
      spare.map (· + (node.opened inner + n)) := by
    rw [Option.map_map]
    exact congrArg (spare.map ·) (funext fun k => Nat.add_assoc k _ n)
  refine ⟨fun hreach he => ?_, fun hreach hhops => ?_⟩
  · rw [hdeeper]
    exact h.refers (.inside hinner hreach) he
  · rw [hdeeper]
    exact h.receiver (.inside hinner hreach) hhops

/-- A node in the same scope. -/
theorem same (h : node.Trimmed t r spare) (hinner : inner ∈ node.children)
    (hopened : node.opened inner = 0) : inner.Trimmed t r spare := by
  have hchild := h.child hinner
  rw [hopened] at hchild
  cases spare <;> exact hchild

/-- A node one scope further in. -/
theorem inward (h : node.Trimmed t r spare) (hinner : inner ∈ node.children)
    (hopened : node.opened inner = 1) : inner.Trimmed t r (spare.map (· + 1)) := by
  have hchild := h.child hinner
  rwa [hopened] at hchild

theorem part (h : (Node.expr e).Trimmed t r spare) {inner : Expr} (hinner : inner ∈ e.parts) :
    (Node.expr inner).Trimmed t r spare :=
  h.same (List.mem_map_of_mem hinner) rfl

theorem here {id : Nat} {name : String} (h : (Node.expr e).Trimmed t r spare)
    (he : e.occurrence? = some (id, name)) : t.Refers spare id (r.id id) := by
  have hrefers := h.refers (.here e) he
  cases spare <;> exact hrefers

theorem receiver_here {id line : Nat} {method : Name}
    (h : (Node.expr (.super id line method)).Trimmed t r spare)
    (hhops : t.before.get? id = some hops) : spare ≠ some (hops - 1) := by
  have hreceiver := h.receiver (.here _) hhops
  cases spare <;> exact hreceiver

end Trimmed

/-- The number of an occurrence in a node is one of the numbers of the node. -/
theorem Reaches.mem_ids {node : Node} {n : Nat} {e : Expr} (h : node.Reaches n e) {id : Nat}
    {name : String} (he : e.occurrence? = some (id, name)) (σ : Site) :
    id ∈ Visit.ids ⟨node, σ⟩ := by
  induction h generalizing σ with
  | here e =>
    refine (Visit.ids_perm _).mem_iff.mpr (List.mem_append_left _ ?_)
    simp [Visit.ownIds, he]
  | @inside node inner n e hinner _ ih =>
    rw [← Visit.map_node_parts ⟨node, σ⟩] at hinner
    obtain ⟨w, hw, rfl⟩ := List.mem_map.mp hinner
    exact (Visit.ids_perm _).mem_iff.mpr
      (List.mem_append_right _ (List.mem_flatMap.mpr ⟨w, hw, ih he w.site⟩))

/-- A node around which there is no spare scope, and for which the same distances are recorded. -/
theorem trimmed_of_kept {t : Trimming} {r : Relocation} {node : Node} (σ : Site)
    (hkept : ∀ id ∈ Visit.ids ⟨node, σ⟩, t.after.get? (r.id id) = t.before.get? id) :
    node.Trimmed t r none where
  refers hreach he :=
    { distance := by
        rw [hkept _ (hreach.mem_ids he σ)]
        exact Option.map_id'.symm
      ne := fun _ _ h => nomatch h }
  receiver _ _ h := nomatch h

end Node

end Treewalk
