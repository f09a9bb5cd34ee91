import Treewalk.Proofs.Run.Founded
import Treewalk.Proofs.Session.Confinement
import Treewalk.Proofs.Session.Receivers

/-!
# Looking for methods

Over a whole history of runs, also when names of classes are declared anew, every class has been made
by a declaration to which a run has come. From a class upward one comes, from each class to the one
that its declaration has found as its superclass, to an end. So the method that is found is that of the
nearest class whose declaration contains one of the name, and its closure is the frame that was made
for that class.

## Main results

* `Session.After.founded_of_passes`: the machines of a history are founded.
* `Session.nearest_method`: lineages, and the methods that are found.
-/

namespace Treewalk

namespace Session

variable {history : List Execution} {s s' prepared : Session} {source : String} {body : List Stmt}
  {fuel : Nat} {m : Machine}

/-! ### Founded sessions -/

theorem founded_start (came : Node → Machine → Prop) (clock : Nat → Nat) (input : List UInt8) :
    (Machine.start clock input).Founded came where
  classes c hc := absurd hc (Nat.not_lt_zero c)
  slots i name v hv := by
    obtain ⟨n, rfl⟩ := exists_native_of_slot? hv
    trivial
  fields i name v hv := nomatch hv

/-- Preparing a text makes nothing. -/
theorem founded_prepare {came : Node → Machine → Prop} (h : s.machine.Founded came)
    (source : String) : (s.prepare source).2.machine.Founded came := by
  rw [prepare_eq]
  exact h.of_tables rfl rfl rfl

theorem Accepts.founded {came : Node → Machine → Prop} (ha : s.Accepts source body prepared)
    (h : s.machine.Founded came) : prepared.machine.Founded came := by
  have hprepared := founded_prepare h source
  rwa [ha.prepared_eq] at hprepared

/-- After any history the machine of a session is founded. -/
theorem After.founded (h : After history s) : s.machine.Founded (Came history) := by
  induction h with
  | start clock input => exact founded_start _ clock input
  | @accepted history s s' prepared source body fuel status _ ha hrun ih =>
    have hstart := (ha.founded ih).mono fun _ _ => Came.cons ⟨prepared.machine, fuel, body⟩
    rw [← ha.machine_eq hrun]
    exact interpret_founded (fun _ _ => .of_comesTo _) hstart
  | rejected _ hrejected hrun ih =>
    rcases eq_of_not_accepts hrejected hrun with rfl | rfl
    · exact ih.of_tables rfl rfl rfl
    · exact founded_prepare ih _
  | takeOutput _ ih => exact ih.of_tables rfl rfl rfl
  | takeReports _ ih => exact ih

/-- The machines of the execution of an accepted text are founded. -/
theorem After.founded_of_last (h : After history s) (ha : s.Accepts source body prepared)
    (hm : (⟨prepared.machine, fuel, body⟩ : Execution).Passes m) :
    m.Founded (Came (⟨prepared.machine, fuel, body⟩ :: history)) := by
  have hstart := (ha.founded h.founded).mono fun _ _ => Came.cons ⟨prepared.machine, fuel, body⟩
  cases hm with
  | start => exact hstart
  | moment hm => exact founded_of_comesTo (fun _ _ => .of_comesTo _) hstart hm
  | last => exact interpret_founded (fun _ _ => .of_comesTo _) hstart

/-- The machines of all executions of a history are founded. -/
theorem After.founded_of_mem (h : After history s) :
    ∀ x ∈ history, ∀ m, x.Passes m → m.Founded (Came history) := by
  induction h with
  | start => exact fun x hx => absurd hx List.not_mem_nil
  | @accepted history s s' prepared source body fuel status h ha hrun ih =>
    refine List.forall_mem_cons.mpr ⟨fun m hm => h.founded_of_last ha hm, fun x hx m hm => ?_⟩
    exact (ih x hx m hm).mono fun _ _ => .cons _
  | rejected _ _ _ ih => exact ih
  | takeOutput _ ih => exact ih
  | takeReports _ ih => exact ih

theorem After.founded_of_passes (h : After history s) (ha : s.Accepts source body prepared)
    {x : Execution} (hx : x ∈ ⟨prepared.machine, fuel, body⟩ :: history) (hm : x.Passes m) :
    m.Founded (Came (⟨prepared.machine, fuel, body⟩ :: history)) := by
  rcases List.mem_cons.mp hx with rfl | hx
  · exact h.founded_of_last ha hm
  · exact (h.founded_of_mem x hx m hm).mono fun _ _ => .cons _

/-! ### Methods -/

/-- The method that is found in a list of classes is that of the first one whose declaration contains
one of the name. -/
theorem findSome?_ownMethod?_eq_some {came : Node → Machine → Prop} {l : List Nat}
    (h : ∀ k ∈ l, ∃ δ : Declaration came, m.DeclaredBy k δ) {name : String} {f : Closure} :
    (l.findSome? fun k => m.ownMethod? k name) = some f ↔
      ∃ nearer k further, l = nearer ++ k :: further ∧
        (∀ j ∈ nearer, ∀ δ : Declaration came, m.DeclaredBy j δ → ¬ δ.Contains name) ∧
        ∃ δ : Declaration came, m.DeclaredBy k δ ∧ δ.Provides name f := by
  rw [List.findSome?_eq_some_iff]
  constructor
  · rintro ⟨nearer, k, further, rfl, hf, hnearer⟩
    obtain ⟨δ, hδ⟩ := h k (List.mem_append_right nearer List.mem_cons_self)
    refine ⟨nearer, k, further, rfl, fun j hj δ' hδ' => ?_, δ, hδ, hδ.ownMethod?_eq_some.mp hf⟩
    exact hδ'.ownMethod?_eq_none.mp (hnearer j hj)
  · rintro ⟨nearer, k, further, rfl, hnearer, δ, hδ, hf⟩
    refine ⟨nearer, k, further, rfl, hδ.ownMethod?_eq_some.mpr hf, fun j hj => ?_⟩
    obtain ⟨δ', hδ'⟩ := h j (List.mem_append_left _ hj)
    exact hδ'.ownMethod?_eq_none.mpr (hnearer j hj δ' hδ')

theorem findSome?_ownMethod?_eq_none {came : Node → Machine → Prop} {l : List Nat}
    (h : ∀ k ∈ l, ∃ δ : Declaration came, m.DeclaredBy k δ) {name : String} :
    (l.findSome? fun k => m.ownMethod? k name) = none ↔
      ∀ k ∈ l, ∀ δ : Declaration came, m.DeclaredBy k δ → ¬ δ.Contains name := by
  rw [List.findSome?_eq_none_iff]
  refine forall₂_congr fun k hk => ?_
  obtain ⟨δ, hδ⟩ := h k hk
  exact ⟨fun hnone δ' hδ' => hδ'.ownMethod?_eq_none.mp hnone,
    fun hnone => hδ.ownMethod?_eq_none.mpr (hnone δ hδ)⟩

/-- The nearest method is found. After any history, on all machines of the execution of an accepted text
and of those before it, every class has been made by a declaration to which a run has come. From every
class upward one comes to an end, from each class to the one that its declaration has found, which was
made earlier. The method that is found for a name is that of the first class on this way whose
declaration contains one of the name, and there the last one of the name; none is found just if no
declaration contains one. It closes over the frame of the class whose declaration contains it: the one
in which that class was declared, or the one that was made for it, which binds `super` to the class
that this declaration has found. -/
theorem nearest_method (hs : After history s) (ha : s.Accepts source body prepared)
    {x : Execution} (hx : x ∈ ⟨prepared.machine, fuel, body⟩ :: history) (hm : x.Passes m) :
    (∀ c < m.classes.size,
      ∃ δ : Declaration (Came (⟨prepared.machine, fuel, body⟩ :: history)), m.DeclaredBy c δ) ∧
    (∀ c < m.classes.size, m.Ancestry c (m.lineage c) ∧
      (m.lineage c).Pairwise (fun j k => k < j) ∧ ∀ k ∈ m.lineage c, k < m.classes.size) ∧
    (∀ c < m.classes.size, ∀ name f, m.findMethod? c name = some f ↔
      ∃ nearer k further, m.lineage c = nearer ++ k :: further ∧
        (∀ j ∈ nearer, ∀ δ : Declaration (Came (⟨prepared.machine, fuel, body⟩ :: history)),
          m.DeclaredBy j δ → ¬ δ.Contains name) ∧
        ∃ δ : Declaration (Came (⟨prepared.machine, fuel, body⟩ :: history)),
          m.DeclaredBy k δ ∧ δ.Provides name f) ∧
    (∀ c < m.classes.size, ∀ name, m.findMethod? c name = none ↔
      ∀ k ∈ m.lineage c, ∀ δ : Declaration (Came (⟨prepared.machine, fuel, body⟩ :: history)),
        m.DeclaredBy k δ → ¬ δ.Contains name) ∧
    ∀ k, ∀ δ : Declaration (Came (⟨prepared.machine, fuel, body⟩ :: history)), m.DeclaredBy k δ →
      ∀ name f, δ.Provides name f → f.frame = δ.frame ∧
        ∀ p, δ.parent = some p → m.frames.BindsOnly f.frame "super" (.cls p) := by
  obtain ⟨ds, plan, ho⟩ := (hs.fits_cons hs.fits ha fuel x hx).ordered hm
  have hfounded := hs.founded_of_passes ha hx hm
  have hlineage : ∀ c < m.classes.size, m.Ancestry c (m.lineage c) ∧
      (m.lineage c).Pairwise (fun j k => k < j) ∧ ∀ k ∈ m.lineage c, k < m.classes.size := by
    intro c hc
    have hancestry := ho.descends.ancestry hc
    exact ⟨hancestry, ho.descends.pairwise_ancestry hancestry, fun k hk =>
      Nat.lt_of_le_of_lt (ho.descends.le_of_mem_ancestry hancestry hk) hc⟩
  have hdeclared : ∀ c < m.classes.size, ∀ k ∈ m.lineage c,
      ∃ δ : Declaration (Came (⟨prepared.machine, fuel, body⟩ :: history)), m.DeclaredBy k δ :=
    fun c hc k hk => hfounded.classes k ((hlineage c hc).2.2 k hk)
  refine ⟨hfounded.classes, hlineage, fun c hc _ _ => findSome?_ownMethod?_eq_some (hdeclared c hc),
    fun c hc _ => findSome?_ownMethod?_eq_none (hdeclared c hc), fun k δ hδ name f hf => ?_⟩
  have hoffers := ho.offers k name f (hδ.ownMethod?_eq_some.mpr hf)
  have hsuper := hδ.superclass?_eq
  refine ⟨?_, fun p hp => ?_⟩
  · obtain ⟨before, d, after, -, -, -, rfl⟩ := hf
    rfl
  · rw [hsuper, hp] at hoffers
    exact hoffers.1

/-- A class with two methods of a name, one without methods that inherits from it, and then another
class of the name of the first one. -/
def overridingText : String :=
  "class A \x7b f() \x7b\x7d f() \x7b\x7d \x7d class B < A \x7b\x7d class A < B \x7b\x7d"

/-- The program of `overridingText`, and the session that executes it. -/
def overriding : List Stmt × Session :=
  (Session.start (fun _ => 0) []).prepare overridingText

theorem accepts_overriding : (Session.start (fun _ => 0) []).Accepts overridingText
    overriding.1 overriding.2 where
  prepared_eq := rfl
  no_reports := by decide +kernel

/-- The machine that `overriding` leaves. -/
def overridingMachine : Machine :=
  Run.machineAfter (interpret .resolved 20 overriding.1 overriding.2.machine)

theorem nearest_method_overriding :
    2 < overridingMachine.classes.size ∧ overridingMachine.lineage 2 = [2, 1, 0] ∧
      overridingMachine.Ancestry 2 (overridingMachine.lineage 2) ∧
      ∃ f, overridingMachine.findMethod? 2 "f" = some f ∧ f.id = 1 ∧
        ∃ nearer k further, overridingMachine.lineage 2 = nearer ++ k :: further ∧
          ∃ δ : Declaration (Came [⟨overriding.2.machine, 20, overriding.1⟩]),
            overridingMachine.DeclaredBy k δ ∧ δ.Provides "f" f := by
  have hlt : 2 < overridingMachine.classes.size := by decide +kernel
  have hlineage : overridingMachine.lineage 2 = [2, 1, 0] := by decide +kernel
  have hid : (overridingMachine.findMethod? 2 "f").map (·.id) = some 1 := by decide +kernel
  obtain ⟨f, hf, hid⟩ := Option.map_eq_some_iff.mp hid
  obtain ⟨-, hways, hfound, -⟩ := nearest_method (.start (fun _ => 0) []) accepts_overriding
    List.mem_cons_self .last
  obtain ⟨nearer, k, further, heq, -, δ, hδ, hprovides⟩ := (hfound 2 hlt "f" f).mp hf
  exact ⟨hlt, hlineage, (hways 2 hlt).1, f, hf, hid, nearer, k, further, heq, δ, hδ, hprovides⟩

end Session

end Treewalk
