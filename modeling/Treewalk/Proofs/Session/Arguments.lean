import Treewalk.Proofs.Run.Arguments
import Treewalk.Proofs.Session.Returning
import Treewalk.Proofs.Syntax.Keeping

/-!
# Every body is entered with its parameters

Wherever a run of an accepted text comes to a call, the number of arguments decides. If it is not the
number that the value takes, the call fails on the machine that has been reached by then, and nothing
is called. Otherwise the body of a function begins in a frame of its own, in which each parameter has
the argument in the same position as its value: the body of the function itself, or that of the
initializer of a class, which is bound to the object that the class has made.

## Main definitions

* `Expr.CalledOn`: how far a call has got when its value and its arguments are there.

## Main results

* `Session.bodies_begin_with_parameters`: calls, and what they enter.
-/

namespace Treewalk

/-- The node for a call has the line of the closing parenthesis, which is the last token taken. -/
theorem Reader.callOf_line {argument : Reader Expr} {callee e : Expr} {c c' : Cursor}
    (h : Reader.callOf argument callee c = .ok e c') :
    ∃ (closing : Token) (arguments : List Expr) (c₁ : Cursor),
      Reader.arguments argument c = .ok arguments c₁ ∧ c₁.rest = closing :: c'.rest ∧
      closing.is (.mark .rightParen) ∧ e = .call callee closing.line arguments := by
  obtain ⟨arguments, c₁, harguments, h⟩ := Reader.exists_of_bind h
  obtain ⟨closing, c₂, hclosing, h⟩ := Reader.exists_of_bind h
  cases h
  obtain ⟨found, c₃, hfound, hclosing⟩ := Reader.exists_of_bind hclosing
  unfold Reader.accept? at hfound
  split at hfound
  · cases hfound
    cases hclosing
  · next hrest =>
    split at hfound
    · next ht =>
      cases hfound
      cases hclosing
      exact ⟨_, arguments, c₁, harguments, hrest, ht, rfl⟩
    · cases hfound
      cases hclosing

/-! ### Calls in the middle -/

/-- The value that is called and then the arguments have been evaluated. -/
def Expr.CalledOn (fuel : Nat) (callee : Expr) (arguments : List Expr) (m₀ : Machine) (f : Value)
    (vs : List Value) (m : Machine) : Prop :=
  ∃ m₁, evaluate .resolved fuel callee m₀ = .ok f m₁ ∧
    evaluateAll (evaluate .resolved fuel) arguments m₁ = .ok vs m

namespace Expr.CalledOn

variable {fuel : Nat} {callee : Expr} {arguments : List Expr} {m₀ m m' : Machine} {f : Value}
  {vs : List Value}

/-- A call goes on with the value and the arguments. -/
theorem evaluate_eq (h : CalledOn fuel callee arguments m₀ f vs m) (line : Nat) :
    evaluate .resolved (fuel + 1) (.call callee line arguments) m₀ =
      callWith (invoke .resolved fuel) f vs line m := by
  obtain ⟨m₁, hcallee, harguments⟩ := h
  exact (Run.bind_of_ok hcallee).trans (Run.bind_of_ok harguments)

/-- The value, the arguments and the machine may be stored. -/
theorem stocked (h : CalledOn fuel callee arguments m₀ f vs m) {bodies : List (List Stmt)}
    (hm₀ : m₀.Stocks (stockOf bodies)) :
    f.Stocked (stockOf bodies) ∧ m.Stocks (stockOf bodies) := by
  obtain ⟨m₁, hcallee, harguments⟩ := h
  have habide := evaluators_abide bodies fuel
  have hfirst := (habide.evaluate (e := callee) hm₀).supplied
  change Supplied _ _ _ (evaluate .resolved fuel callee m₀) at hfirst
  rw [hcallee] at hfirst
  have hrest := (habide.evaluateAll arguments hfirst.1).supplied
  change Supplied _ _ _ (evaluateAll (evaluate .resolved fuel) arguments m₁) at hrest
  rw [harguments] at hrest
  exact ⟨hfirst.2.2, hrest.1⟩

end Expr.CalledOn

/-- A function that is entered may be stored if the value that is called may be. -/
theorem Machine.Enters.stocked {m m' : Machine} {f : Value} {g : Closure} {K : Stock}
    (h : m.Enters f g m') (hm : m.Stocks K) (hf : f.Stocked K) : g.Stocked K := by
  cases h with
  | function => exact hf
  | @initializer c f h =>
    have hfound : f.Stocked K := hm.findMethod? h
    exact hfound

/-- The parameters of a function that is declared in programs without broken rules have names of their
own. -/
theorem FunctionDecl.DeclaredIn.nodup_params {bodies : List (List Stmt)} {decl : FunctionDecl}
    {isInitializer : Bool} (h : decl.DeclaredIn bodies isInitializer)
    (hlawful : ∀ body ∈ bodies, Lawful body) : (decl.params.map Name.text).Nodup := by
  obtain ⟨above, body, hbody, hroutine⟩ := h.exists_routine
  have hnodup := (hlawful body hbody).declaredOnce hroutine
  rw [Node.declared, List.map_append] at hnodup
  exact hnodup.of_append_left

/-- The outcome of a call by the way in which the body ends: the frame of before is current again. -/
def Closure.outcome (g : Closure) (current : Nat) :
    EStateM.Result Interrupt Machine Flow → EStateM.Result Interrupt Machine Value
  | .ok flow m => (if g.isInitializer then receiverOf g else pure flow.value : Run Value)
      { m with current := current }
  | .error e m => .error e { m with current := current }

theorem invoke_succ_eq_outcome (lookup : Lookup) (fuel : Nat) (g : Closure) (arguments : List Value)
    (m : Machine) : invoke lookup (fuel + 1) g arguments m =
      g.outcome m.current (executeAll (execute lookup fuel) g.decl.body (g.entered arguments m)) := by
  rw [invoke_succ_apply]
  rcases executeAll (execute lookup fuel) g.decl.body (g.entered arguments m) with
    ⟨flow, m₁⟩ | ⟨e, m₁⟩ <;> rfl

namespace Session

variable {history : List Execution} {s prepared : Session} {source : String} {body : List Stmt}
  {fuel : Nat}

/-- Every body is entered with its parameters. After any history, wherever the run of an accepted text
comes to a call and has evaluated what is called and the arguments, a value that cannot be called fails
as such. If the number of arguments is not the one that the value takes, the call fails with both
numbers and the line of the node, which is that of the closing parenthesis, and the machine is left as
it is after the evaluation. Otherwise the body that is entered, of a function or of the initializer of
a class, begins in a frame of its own in which each parameter has the argument in the same position; a
class without an initializer has got no arguments and gives a new object; and a built-in function has
got an argument in every position in which it takes one. All functions that the run calls are entered
in this way. -/
theorem bodies_begin_with_parameters (hs : After history s) (ha : s.Accepts source body prepared) :
    (∀ callee line arguments m₀,
      ComesTo fuel body prepared.machine (.expr (.call callee line arguments)) m₀ →
      ∀ k f vs m, Expr.CalledOn (k + 1) callee arguments m₀ f vs m →
        (m.arity? f = none → evaluate .resolved (k + 2) (.call callee line arguments) m₀ =
          .error (.raised ⟨.notCallable, line⟩) m) ∧
        ∀ n, m.arity? f = some n →
          (n ≠ vs.length → evaluate .resolved (k + 2) (.call callee line arguments) m₀ =
            .error (.raised ⟨.arityMismatch n vs.length, line⟩) m) ∧
          (n = vs.length →
            (∀ g m', m.Enters f g m' →
              evaluate .resolved (k + 2) (.call callee line arguments) m₀ =
                (do
                  let v ← invoke .resolved (k + 1) g vs
                  return f.answer m v) m' ∧
              invoke .resolved (k + 1) g vs m' = g.outcome m'.current
                (executeAll (Treewalk.execute .resolved k) g.decl.body (g.entered vs m')) ∧
              g.Begins vs m' (g.entered vs m')) ∧
            (∀ c, f = .cls c → m.findMethod? c initializerName = none → vs = [] ∧
              evaluate .resolved (k + 2) (.call callee line arguments) m₀ =
                .ok (.object m.objects.size) (m.withObject c)) ∧
            ∀ native, f = .native native → (∀ i < native.arity, ∃ v, vs[i]? = some v) ∧
              evaluate .resolved (k + 2) (.call callee line arguments) m₀ =
                native.run vs line m)) ∧
    (∀ g vs m, Calls fuel body prepared.machine g vs m → g.Begins vs m (g.entered vs m)) ∧
    ∀ argument callee e c c', Reader.callOf argument callee c = .ok e c' →
      ∃ (closing : Token) (arguments : List Expr) (c₁ : Cursor),
        Reader.arguments argument c = .ok arguments c₁ ∧ c₁.rest = closing :: c'.rest ∧
        closing.is (.mark .rightParen) ∧ e = .call callee closing.line arguments := by
  have hlawful := hs.lawful ha
  have hstocks := ha.stocks hs
  refine ⟨fun callee line arguments m₀ hm₀ k f vs m hcalled => ?_, fun g vs m hcalls => ?_,
    fun _ _ _ _ _ => Reader.callOf_line⟩
  · obtain ⟨hf, hm⟩ := hcalled.stocked (stocks_of_comesTo List.mem_cons_self hstocks hm₀)
    rw [hcalled.evaluate_eq line]
    refine ⟨fun hnone => ?_, fun n hn => ⟨callWith_of_ne hn, fun heq => ⟨?_, ?_, ?_⟩⟩⟩
    · rw [callWith, Run.get_bind_apply, hnone]
      rfl
    · intro g m' henters
      obtain rfl := Option.some.inj (hn.symm.trans henters.arity_eq)
      have hdeclared := henters.stocked hm hf
      exact ⟨callWith_of_enters henters heq, invoke_succ_eq_outcome .resolved k g vs m',
        Closure.begins heq (FunctionDecl.DeclaredIn.nodup_params hdeclared hlawful) m'⟩
    · rintro c rfl hnone
      rw [Machine.arity?, hnone] at hn
      obtain rfl := Option.some.inj hn
      rw [callWith_of_eq (by rw [Machine.arity?, hnone]) heq, callUnchecked_cls_apply, hnone]
      exact ⟨List.length_eq_zero_iff.mp heq.symm, rfl⟩
    · rintro native rfl
      obtain rfl := Option.some.inj hn
      refine ⟨fun i hi => ⟨_, List.getElem?_eq_getElem (heq ▸ hi)⟩, ?_⟩
      rw [callWith_of_eq rfl heq]
      rfl
  · have hdeclared := hcalls.stocked List.mem_cons_self hstocks
    exact Closure.begins hcalls.arity_eq
      (FunctionDecl.DeclaredIn.nodup_params hdeclared hlawful) m

/-- A class whose initializer has a parameter, and a call of it. -/
def constructingText : String :=
  "class A \x7b init(x) \x7b\x7d \x7d A(true);"

/-- The program of `constructingText`. -/
def constructing : List Stmt :=
  [.class ⟨"A", 1⟩ none [⟨⟨"init", 1⟩, [⟨"x", 1⟩], []⟩],
    .expression (.call (.variable 0 ⟨"A", 1⟩) 1 [.literal (.bool true)])]

/-- The session that executes `constructing`. -/
def constructingSession : Session :=
  ⟨{ Machine.start (fun _ => 0) [] with distances := #[] }, 1, .empty⟩

theorem accepts_constructing : (Session.start (fun _ => 0) []).Accepts constructingText constructing
    constructingSession where
  prepared_eq := by cbv
  no_reports := rfl

/-- The initializer of the class of `constructing`. -/
def constructingInitializer : Closure :=
  ⟨0, ⟨⟨"init", 1⟩, [⟨"x", 1⟩], []⟩, 0, true⟩

/-- The machine on which `constructing` comes to the call. -/
def constructingMachine : Machine :=
  { Machine.start (fun _ => 0) [] with
    frames := #[⟨none, Native.all.map (fun n => (n.name, some (.native n))) ++
      [("A", some (.cls 0))]⟩]
    classes := #[⟨"A", none, [("init", constructingInitializer)]⟩]
    closures := 1 }

theorem comesTo_constructing : ComesTo 3 constructing constructingSession.machine
    (.expr (.call (.variable 0 ⟨"A", 1⟩) 1 [.literal (.bool true)])) constructingMachine := by
  refine .of_stops fun stop => ?_
  have hpass (s : Stmt) (m : Machine) : stopAt (.expr (.call (.variable 0 ⟨"A", 1⟩) 1
      [.literal (.bool true)])) constructingMachine stop (.stmt s) m = .ok () m :=
    stopAt_of_ne (.inl nofun)
  have hclass : (probed (stopAt (.expr (.call (.variable 0 ⟨"A", 1⟩) 1 [.literal (.bool true)]))
      constructingMachine stop) .resolved 3).execute
        (.class ⟨"A", 1⟩ none [⟨⟨"init", 1⟩, [⟨"x", 1⟩], []⟩]) constructingSession.machine =
      .ok .normal constructingMachine :=
    (Run.bind_of_ok (hpass _ _)).trans (by cbv)
  refine Run.Stops.bind (Run.Stops.bind_ok hclass ?_) _
  refine Run.Stops.bind (Run.Stops.bind_ok (hpass _ _) ?_) _
  exact Run.Stops.bind (Run.Stops.bind stops_stopAt _) _

theorem bodies_begin_with_parameters_constructing :
    (constructingInitializer.boundOn (constructingMachine.withObject 0)).Begins [.bool true]
      ((constructingMachine.withObject 0).withBound constructingInitializer (.object 0))
      ((constructingInitializer.boundOn (constructingMachine.withObject 0)).entered [.bool true]
        ((constructingMachine.withObject 0).withBound constructingInitializer (.object 0))) := by
  have hcalled : Expr.CalledOn 1 (.variable 0 ⟨"A", 1⟩) [.literal (.bool true)] constructingMachine
      (.cls 0) [.bool true] constructingMachine :=
    ⟨constructingMachine, by cbv, by cbv⟩
  have hfind : constructingMachine.findMethod? 0 initializerName = some constructingInitializer := by
    cbv
  have henters := Machine.Enters.initializer hfind
  obtain ⟨-, hnumber⟩ := (bodies_begin_with_parameters (.start (fun _ => 0) [])
    accepts_constructing).1 _ _ _ _ comesTo_constructing 0 _ _ _ hcalled
  obtain ⟨-, hright⟩ := hnumber 1 henters.arity_eq
  exact ((hright rfl).1 _ _ henters).2.2

end Session

end Treewalk
