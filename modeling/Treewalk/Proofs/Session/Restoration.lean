import Treewalk.Proofs.Run.Restoration
import Treewalk.Proofs.Session.History

/-!
# The frame in which statements begin

Whatever way a run ends, it leaves the global frame current. So the statements of every text begin in
the global frame.

## Main definitions

* `Session.Begins`: a run of a text comes to one of its statements.

## Main results

* `Session.current_restored`: the current frame is restored on every way out.
-/

namespace Treewalk

namespace Session

/-- A run of a text comes to one of the statements of its program, on a machine; the statements before
it have ended normally. -/
def Begins (s : Session) (fuel : Nat) (source : String) (stmt : Stmt) (m : Machine) : Prop :=
  ∃ before after, (s.prepare source).1 = before ++ stmt :: after ∧
    Executes (Treewalk.execute .resolved fuel) before (s.prepare source).2.machine m

/-- The current frame is restored on every way out. On every machine, and however names are looked up,
an expression, a statement, and a call of any value leave the frame current that was current before,
whether they end normally, return or fail. So after runs that ended in any way, every run of a text
begins each of its statements in the global frame. -/
theorem current_restored :
    (∀ lookup fuel, (∀ e, Run.KeepsCurrent (evaluate lookup fuel e)) ∧
      (∀ stmt, Run.KeepsCurrent (Treewalk.execute lookup fuel stmt)) ∧
      (∀ callee arguments line, Run.KeepsCurrent (call lookup fuel callee arguments line)) ∧
      ∀ f arguments, Run.KeepsCurrent (invoke lookup fuel f arguments)) ∧
    ∀ s, Reachable s → ∀ fuel source stmt m, s.Begins fuel source stmt m →
      m.current = globalFrame := by
  constructor
  · intro lookup fuel
    have hkeep := evaluators_keepCurrent lookup fuel
    exact ⟨hkeep.evaluate, hkeep.execute, hkeep.callWith, hkeep.invoke⟩
  · rintro s hs fuel source stmt m ⟨before, after, -, hbefore⟩
    obtain ⟨bodies, hsteady⟩ := hs.steady
    exact hbefore.current_eq.trans (hsteady.prepare source).current

/-- A function that fails in a block of its body, and a call of it. -/
def failingText : String :=
  "fun f() \x7b \x7b a; \x7d \x7d f();"

/-- After a run that failed in the frame of a block, itself in the frame of a call, the next text
begins in the global frame. -/
theorem current_restored_failing : ∃ s m,
    (Session.start (fun _ => 0) []).run 10 failingText = some (.runtimeError, s) ∧
      s.Begins 10 "nil;" (.expression (.literal .nil)) m ∧ m.frames.size = 3 ∧
      m.current = globalFrame := by
  have hrun : ((Session.start (fun _ => 0) []).run 10 failingText).map
      (fun p => (p.1, p.2.machine.frames.size)) = some (.runtimeError, 3) := by
    decide +kernel
  obtain ⟨⟨status, s⟩, hs, hshown⟩ := Option.map_eq_some_iff.mp hrun
  obtain ⟨rfl, hsize⟩ := Prod.mk.inj hshown
  have hbegins : s.Begins 10 "nil;" (.expression (.literal .nil)) (s.prepare "nil;").2.machine :=
    ⟨[], [], by cbv, .nil _⟩
  exact ⟨s, _, hs, hbegins, hsize, current_restored.2 s (.run (.start _ _) hs) _ _ _ _ hbegins⟩

end Session

end Treewalk
