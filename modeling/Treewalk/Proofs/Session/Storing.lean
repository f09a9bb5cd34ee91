import Treewalk.Proofs.Run.Stocking
import Treewalk.Proofs.Session.History

/-!
# What sessions store

After any history the functions on the machine of a session are those that the executed programs
declare, and the global names are built in or declared by these programs outside of all local scopes.

## Main results

* `Session.After.stocks`: what sessions store.
* `Session.Accepts.stocks`: what they store when a program begins.
-/

namespace Treewalk

variable {bodies : List (List Stmt)} {body : List Stmt}

theorem FunctionDecl.DeclaredIn.mono {decl : FunctionDecl} {isInitializer : Bool}
    (h : decl.DeclaredIn bodies isInitializer) (body : List Stmt) :
    decl.DeclaredIn (body :: bodies) isInitializer := by
  cases h with
  | function h => exact .function h.mono
  | method h hdecl => exact .method h.mono hdecl

/-- More programs may store more. -/
theorem Machine.Stocks.mono {m : Machine} (h : m.Stocks (stockOf bodies)) (body : List Stmt) :
    m.Stocks (stockOf (body :: bodies)) where
  global := h.global
  names name hname := (h.names name hname).imp_right fun ⟨above, s, hs, htop, hmem⟩ =>
    ⟨above, s, hs.mono, htop, hmem⟩
  slots i name v hv := by
    have hstocked := h.slots i name v hv
    cases v with
    | function f => exact FunctionDecl.DeclaredIn.mono hstocked body
    | _ => trivial
  fields i name v hv := by
    have hstocked := h.fields i name v hv
    cases v with
    | function f => exact FunctionDecl.DeclaredIn.mono hstocked body
    | _ => trivial
  methods c name f hf := FunctionDecl.DeclaredIn.mono (h.methods c name f hf) body

/-- The evaluators store only what programs declare. -/
theorem evaluators_abide (bodies : List (List Stmt)) (fuel : Nat) :
    EvaluatorsAbide bodies (evaluators .resolved fuel) (evaluators .resolved fuel) := by
  have habide : EvaluatorsAbide bodies (probed (fun _ => pure ()) .resolved fuel) _ :=
    probed_abide (fun _ _ _ => rfl) fuel
  rwa [probed_pure] at habide

namespace Session

variable {history : List Execution} {s s' prepared : Session} {source : String} {fuel : Nat}

/-- Before any program has run, only the built-in functions are there. -/
theorem stocks_start (clock : Nat → Nat) (input : List UInt8) :
    (Machine.start clock input).Stocks (stockOf []) where
  global := Nat.zero_lt_one
  names name hname := by
    have hnative (natives : List Native)
        (h : (Bindings.get? (natives.map fun n => (n.name, some (Value.native n))) name).isSome) :
        ∃ n ∈ natives, n.name = name := by
      induction natives with
      | nil => cases h
      | cons n natives ih =>
        rw [List.map_cons, Bindings.get?] at h
        split at h
        · next heq => exact ⟨n, List.mem_cons_self, heq⟩
        · obtain ⟨n', hn', heq⟩ := ih h
          exact ⟨n', List.mem_cons_of_mem n hn', heq⟩
    obtain ⟨n, -, heq⟩ := hnative Native.all hname
    exact .inl ⟨n, heq⟩
  slots i name v hv := by
    obtain ⟨n, rfl⟩ := exists_native_of_slot? hv
    trivial
  fields i name v hv := nomatch hv
  methods c name f hf := nomatch hf

/-- An executed program stores only what programs declare. -/
theorem stocks_of_execute (hbody : body ∈ bodies) (h : s.machine.Stocks (stockOf bodies))
    {status : Status} (hrun : s.execute .resolved fuel body = some (status, s')) :
    s'.machine.Stocks (stockOf bodies) := by
  have hsupplied := ((evaluators_abide bodies fuel).interpret hbody h).supplied
  change Supplied _ _ _ (interpret .resolved fuel body s.machine) at hsupplied
  obtain ⟨-, hm | ⟨e, hm⟩⟩ := Steady.machine_of_execute hrun
  · rw [hm] at hsupplied
    exact hsupplied.1
  · rw [hm] at hsupplied
    exact hsupplied

/-- Recording distances stores nothing else. -/
theorem stocks_prepare (h : s.machine.Stocks (stockOf bodies)) (source : String) :
    (s.prepare source).2.machine.Stocks (stockOf bodies) := by
  rw [prepare_eq]
  exact h.of_tables rfl rfl rfl

/-- After any history a session stores only what the programs that were executed declare. -/
theorem After.stocks (h : After history s) :
    s.machine.Stocks (stockOf (history.map (·.body))) := by
  induction h with
  | start clock input => exact stocks_start clock input
  | @accepted _ s s' prepared source body _ _ _ ha hrun ih =>
    rw [ha.run_eq] at hrun
    have hprepared := (stocks_prepare ih source).mono body
    rw [ha.prepared_eq] at hprepared
    exact stocks_of_execute List.mem_cons_self hprepared hrun
  | rejected _ hrejected hrun ih =>
    rcases eq_of_not_accepts hrejected hrun with rfl | rfl
    · exact ih.of_tables rfl rfl rfl
    · exact stocks_prepare ih _
  | takeOutput _ ih => exact ih.of_tables rfl rfl rfl
  | takeReports _ ih => exact ih

/-- When an accepted program begins, a session stores only what programs declare. -/
theorem Accepts.stocks (ha : s.Accepts source body prepared) (hs : After history s) :
    prepared.machine.Stocks (stockOf (body :: history.map (·.body))) := by
  have hprepared := (stocks_prepare hs.stocks source).mono body
  rwa [ha.prepared_eq] at hprepared

end Session

end Treewalk
