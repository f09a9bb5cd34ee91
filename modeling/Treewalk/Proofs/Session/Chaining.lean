import Treewalk.Proofs.Run.Chaining
import Treewalk.Proofs.Session.Binding
import Treewalk.Proofs.Session.Storing

/-!
# Distances and the chain of frames

The distances that the walk records are a way to find the frame of a name without looking into the
frames before it. In a fresh session a text whose local names are unambiguous runs in the same way if
every name is looked up along the chain of frames instead.

## Main results

* `Session.runWith_chained_eq`: both ways of looking names up give the same run.
-/

namespace Treewalk

namespace Session

variable {clock : Nat → Nat} {input : List UInt8} {source : String} {body : List Stmt}
  {prepared : Session} {fuel : Nat} {node : Node} {m : Machine}

/-- In a fresh session a run of a text whose local names are unambiguous never comes to a moment at
which looking a name up along the chain leads elsewhere than its distance. -/
theorem not_lookupsDiffer (ha : (start clock input).Accepts source body prepared)
    (hu : Unambiguous prepared.machine.distances body)
    (hm : ComesTo fuel body prepared.machine node m) : ¬ LookupsDiffer node m := by
  have hsteady := (Steady.start (fun _ _ => True) clock input).accept ha
  have hresolved := hsteady.resolved body List.mem_cons_self
  have hstocks : m.Stocks (stockOf [body]) :=
    stocks_of_comesTo List.mem_cons_self (ha.stocks (.start clock input)) hm
  obtain ⟨plan, σ, ho, hseen, hstands⟩ := aligned (.start clock input) ha hm
  obtain ⟨b, hb, hmet⟩ := id hseen
  obtain rfl := List.mem_singleton.mp hb
  have hsame {ids : List Nat} {plan' : Plan} {m' : Machine} {e : Expr} {id : Nat} {name : String}
      (ho' : Ordered ⟨SeenIn [b], fun _ _ => True⟩ prepared.machine.distances plan' m')
      (hstocks' : m'.Stocks (stockOf [b])) (hnode : node = .expr e)
      (hstands' : Stands plan' m' ids σ.scopes σ.closed) (he : e.occurrence? = some (id, name)) :
      m'.holderOf .chained id name = m'.holderOf .resolved id name := by
    subst hnode
    exact hstands'.holderOf_eq hresolved hu ho' hstocks' hmet he
  match node with
  | .expr (.variable id name) => exact not_not.mpr (hsame ho hstocks rfl hstands rfl)
  | .expr (.this id _) => exact not_not.mpr (hsame ho hstocks rfl hstands rfl)
  | .expr (.assign id name value) =>
    rintro ⟨fuel', v, m', hvalue, hne⟩
    have hmem : (⟨.expr value, σ⟩ : Visit) ∈ Visit.parts ⟨.expr (.assign id name value), σ⟩ :=
      List.mem_singleton_self _
    have hinside := (guides_seenIn hsteady.resolved).part hseen hmem
    obtain ⟨plan', ho', hstands'⟩ := hsteady.stands_of_evaluate (fun _ _ => trivial) ho
      ⟨hinside, Visit.ids_subset_of_mem_parts hmem⟩ hstands hvalue
    have hsupplied := ((evaluators_abide [b] fuel').evaluate (e := value) hstocks).supplied
    change Supplied _ _ _ (evaluate .resolved fuel' value m) at hsupplied
    rw [hvalue] at hsupplied
    exact hne (hsame ho' hsupplied.1 rfl hstands' rfl)
  | .stmt _ | .routine _ | .expr (.literal _) | .expr (.grouping _) | .expr (.unary _ _ _)
  | .expr (.binary _ _ _ _) | .expr (.logical _ _ _ _) | .expr (.ternary _ _ _)
  | .expr (.call _ _ _) | .expr (.get _ _) | .expr (.set _ _ _) | .expr (.super _ _ _) => exact id

/-- Distances agree with the chain of frames. In a fresh session, a text that is accepted and whose
local names are unambiguous runs in the same way, with the same output, status and reports, if names are
looked up from the current frame outward and not at their distances. -/
theorem runWith_chained_eq (ha : (start clock input).Accepts source body prepared)
    (hu : Unambiguous prepared.machine.distances body) (fuel : Nat) :
    (start clock input).runWith .chained fuel source = (start clock input).run fuel source := by
  have hinterpret : interpret .chained fuel body prepared.machine =
      interpret .resolved fuel body prepared.machine :=
    interpret_chained_eq fun _ _ hdiffer hm => not_lookupsDiffer ha hu hm hdiffer
  rw [ha.runWith_eq, ha.run_eq, execute, execute, perform, perform, hinterpret]

/-- A function that assigns to a variable of the block around it, and a call of it. -/
def capturingText : String :=
  "\x7b var a; fun f() \x7b a = nil; \x7d f(); \x7d"

/-- The program of `capturingText`. -/
def capturing : List Stmt :=
  [.block [.variable ⟨"a", 1⟩ none,
    .function ⟨⟨"f", 1⟩, [], [.expression (.assign 1 ⟨"a", 1⟩ (.literal .nil))]⟩,
    .expression (.call (.variable 2 ⟨"f", 1⟩) 1 [])]]

/-- The session that executes `capturing`. -/
def capturingSession : Session :=
  ⟨{ Machine.start (fun _ => 0) [] with distances := #[none, some 1, some 0] }, 3, .empty⟩

theorem accepts_capturing : (Session.start (fun _ => 0) []).Accepts capturingText capturing
    capturingSession where
  prepared_eq := by cbv
  no_reports := rfl

theorem unambiguous_capturing : Unambiguous capturingSession.machine.distances capturing where
  once := by decide
  notNative n := by cases n <;> decide
  resolved hoccurs he hnone := by
    have hrecorded : ∀ id ∈ Stmt.idsAll capturing,
        capturingSession.machine.distances.get? id ≠ none := by decide
    exact absurd hnone (hrecorded _ (hoccurs.mem_idsAll he))

theorem runWith_chained_eq_capturing :
    Unambiguous capturingSession.machine.distances capturing ∧
      (Session.start (fun _ => 0) []).runWith .chained 8 capturingText =
        (Session.start (fun _ => 0) []).run 8 capturingText :=
  ⟨unambiguous_capturing, runWith_chained_eq accepts_capturing unambiguous_capturing 8⟩

end Session

end Treewalk
