import Treewalk.Proofs.Run.Alignment
import Treewalk.Proofs.Run.Stock

/-!
# Programs store what they declare

Expressions store nothing new, and statements store the functions and, outside of all local scopes,
the names that they declare. This is shown step by step, for evaluators of which the parts are known
to do so, and follows for every fuel by induction.

## Main definitions

* `EvaluatorsAbide`: evaluators that store only what programs declare.

## Main results

* `EvaluatorsAbide.evaluateStep`, `EvaluatorsAbide.executeStep`, `EvaluatorsAbide.invokeStep`: one
  step inward.
* `stocks_of_comesTo`: what the machine stores at the moments of a run.
-/

namespace Treewalk

/-- A statement ends normally, or returns a value that may be stored. -/
def Flow.Stocked (K : Stock) : Flow → Prop
  | .normal => True
  | .returned v => v.Stocked K

theorem Flow.Stocked.value {K : Stock} {flow : Flow} (h : flow.Stocked K) :
    flow.value.Stocked K := by
  cases flow with
  | normal => trivial
  | returned v => exact h

/-- Plain values are no functions. -/
theorem Value.IsPlain.ne_function {v : Value} (h : v.IsPlain) (f : Closure) : v ≠ .function f := by
  rintro rfl
  exact h

theorem Value.IsPlain.stocked {K : Stock} {v : Value} (h : v.IsPlain) : v.Stocked K := by
  cases v with
  | function f => exact absurd h id
  | _ => trivial

/-- A declared function occurs in one of the programs. -/
theorem FunctionDecl.DeclaredIn.exists_routine {bodies : List (List Stmt)} {decl : FunctionDecl}
    {isInitializer : Bool} (h : decl.DeclaredIn bodies isInitializer) :
    ∃ above, OccursIn bodies above (.routine decl) := by
  cases h with
  | function h => exact ⟨_, h.child List.mem_cons_self⟩
  | method h hdecl => exact ⟨_, h.child (List.mem_append_right _ (List.mem_map_of_mem hdecl))⟩

/-- Evaluators that do the same as others and store only what the statements among `bodies` declare.
In the global frame only statements outside of all local scopes are executed. -/
structure EvaluatorsAbide (bodies : List (List Stmt)) (parts' parts : Evaluators) : Prop where
  evaluate : ∀ {e m}, m.Stocks (stockOf bodies) →
    Abides (stockOf bodies) (parts'.evaluate e) (parts.evaluate e) m (Value.Stocked (stockOf bodies))
  execute : ∀ {above s m}, OccursIn bodies above (.stmt s) →
    (m.current = globalFrame → ¬ above.any Node.opensScope) → m.Stocks (stockOf bodies) →
    Abides (stockOf bodies) (parts'.execute s) (parts.execute s) m (Flow.Stocked (stockOf bodies))
  invoke : ∀ {f arguments m}, f.Stocked (stockOf bodies) →
    (∀ v ∈ arguments, v.Stocked (stockOf bodies)) → m.Stocks (stockOf bodies) →
    Abides (stockOf bodies) (parts'.invoke f arguments) (parts.invoke f arguments) m
      (Value.Stocked (stockOf bodies))

namespace EvaluatorsAbide

variable {bodies : List (List Stmt)} {parts' parts : Evaluators} {m : Machine}
  (h : EvaluatorsAbide bodies parts' parts)

include h

/-! ### Calls -/

theorem callUnchecked {callee : Value} {arguments : List Value}
    (hcallee : callee.Stocked (stockOf bodies))
    (harguments : ∀ v ∈ arguments, v.Stocked (stockOf bodies)) (line : Nat)
    (hm : m.Stocks (stockOf bodies)) :
    Abides (stockOf bodies) (callUnchecked parts'.invoke callee arguments line)
      (callUnchecked parts.invoke callee arguments line) m (Value.Stocked (stockOf bodies)) := by
  cases callee with
  | native n => exact .native hm n arguments line
  | function f => exact h.invoke hcallee harguments hm
  | cls c =>
    refine (Abides.newObject hm c).bind fun i m₁ hm₁ _ _ => .getBind ?_
    cases hf : m₁.findMethod? c initializerName with
    | none => exact .pure hm₁ trivial
    | some f =>
      have hobject : (Value.object i).Stocked (stockOf bodies) := trivial
      refine (Abides.bindReceiver hm₁ (hm₁.findMethod? hf) hobject).bind fun g m₂ hm₂ _ hg => ?_
      exact (h.invoke hg harguments hm₂).bind fun _ m₃ hm₃ _ _ => .pure hm₃ trivial
  | _ => exact .raise hm _ _

theorem callWith {callee : Value} {arguments : List Value}
    (hcallee : callee.Stocked (stockOf bodies))
    (harguments : ∀ v ∈ arguments, v.Stocked (stockOf bodies)) (line : Nat)
    (hm : m.Stocks (stockOf bodies)) :
    Abides (stockOf bodies) (callWith parts'.invoke callee arguments line)
      (callWith parts.invoke callee arguments line) m (Value.Stocked (stockOf bodies)) := by
  refine .getBind ?_
  cases m.arity? callee with
  | none => exact .raise hm _ _
  | some arity => exact .ite (h.callUnchecked hcallee harguments line hm) (.raise hm _ _)

/-! ### Expressions -/

theorem evaluateAll (es : List Expr) (hm : m.Stocks (stockOf bodies)) :
    Abides (stockOf bodies) (evaluateAll parts'.evaluate es) (evaluateAll parts.evaluate es) m
      fun vs => ∀ v ∈ vs, v.Stocked (stockOf bodies) := by
  induction es generalizing m with
  | nil => exact .pure hm fun v hv => absurd hv List.not_mem_nil
  | cons e es ih =>
    exact (h.evaluate hm).bind fun v m₁ hm₁ _ hv => (ih hm₁).bind fun vs m₂ hm₂ _ hvs =>
      .pure hm₂ (List.forall_mem_cons.mpr ⟨hv, hvs⟩)

/-- One step of an expression. -/
theorem evaluateStep (lookup : Lookup) (e : Expr) (hm : m.Stocks (stockOf bodies)) :
    Abides (stockOf bodies) (evaluateStep lookup parts' e) (evaluateStep lookup parts e) m
      (Value.Stocked (stockOf bodies)) := by
  cases e with
  | literal l => exact .pure hm (by cases l <;> trivial)
  | grouping inner => exact h.evaluate hm
  | unary op line operand =>
    exact (h.evaluate hm).bind fun v m₁ hm₁ _ _ => .checked hm₁ line fun w hw =>
      (UnaryOp.isPlain_apply hw).stocked
  | binary op line left right =>
    exact (h.evaluate hm).bind fun v m₁ hm₁ _ _ => (h.evaluate hm₁).bind fun w m₂ hm₂ _ _ =>
      .getBind (.checked hm₂ line fun u hu => (BinaryOp.isPlain_apply hu).stocked)
  | logical op line left right =>
    exact (h.evaluate hm).bind fun v m₁ hm₁ _ hv => .ite (.pure hm₁ hv) (h.evaluate hm₁)
  | ternary condition whenTrue whenFalse =>
    exact (h.evaluate hm).bind fun v m₁ hm₁ _ _ => .ite (h.evaluate hm₁) (h.evaluate hm₁)
  | «variable» id name => exact .readVariable hm lookup id name
  | assign id name value =>
    exact (h.evaluate hm).bind fun v m₁ hm₁ _ hv =>
      (Abides.assignVariable hm₁ lookup id name hv).bind fun _ m₂ hm₂ _ _ => .pure hm₂ hv
  | call callee line arguments =>
    exact (h.evaluate hm).bind fun f m₁ hm₁ _ hf => (h.evaluateAll arguments hm₁).bind
      fun vs m₂ hm₂ _ hvs => h.callWith hf hvs line hm₂
  | get object name =>
    exact (h.evaluate hm).bind fun v m₁ hm₁ _ _ => (Abides.asObject hm₁ v _ _).bind
      fun i m₂ hm₂ _ _ => .property hm₂ i name
  | set object name value =>
    exact (h.evaluate hm).bind fun v m₁ hm₁ _ _ => (Abides.asObject hm₁ v _ _).bind
      fun i m₂ hm₂ _ _ => (h.evaluate hm₂).bind fun w m₃ hm₃ _ hw =>
        (Abides.setField hm₃ i name.text hw).bind fun _ m₄ hm₄ _ _ => .pure hm₄ hw
  | this id line => exact .readVariable hm lookup id ⟨"this", line⟩
  | super id line method => exact .superMethod hm id line method

/-! ### Statements -/

theorem executeAll {above : List Node} {ss : List Stmt}
    (hss : ∀ s ∈ ss, OccursIn bodies above (.stmt s))
    (hglobal : m.current = globalFrame → ¬ above.any Node.opensScope)
    (hm : m.Stocks (stockOf bodies)) :
    Abides (stockOf bodies) (executeAll parts'.execute ss) (executeAll parts.execute ss) m
      (Flow.Stocked (stockOf bodies)) := by
  induction ss generalizing m with
  | nil => exact .pure hm trivial
  | cons s ss ih =>
    obtain ⟨hs, hss⟩ := List.forall_mem_cons.mp hss
    refine (h.execute hs hglobal hm).bind fun flow m₁ hm₁ hcurrent hflow => ?_
    cases flow with
    | normal => exact ih hss (hcurrent ▸ hglobal) hm₁
    | returned v => exact .pure hm₁ hflow

theorem loop {above : List Node} (condition : Expr) {body : Stmt}
    (hbody : OccursIn bodies above (.stmt body))
    (hglobal : m.current = globalFrame → ¬ above.any Node.opensScope) (bound : Nat)
    (hm : m.Stocks (stockOf bodies)) :
    Abides (stockOf bodies) (loop (parts'.evaluate condition) (parts'.execute body) bound)
      (loop (parts.evaluate condition) (parts.execute body) bound) m
      (Flow.Stocked (stockOf bodies)) := by
  induction bound generalizing m with
  | zero => exact .throw hm _
  | succ bound ih =>
    refine (h.evaluate hm).bind fun v m₁ hm₁ hcurrent₁ _ => .ite ?_ (.pure hm₁ trivial)
    refine (h.execute hbody (hcurrent₁ ▸ hglobal) hm₁).bind fun flow m₂ hm₂ hcurrent₂ hflow => ?_
    cases flow with
    | normal => exact ih (hcurrent₂.trans hcurrent₁ ▸ hglobal) hm₂
    | returned v => exact .pure hm₂ hflow

omit h in
theorem asSuperclass (v : Value) (line : Nat) (hm : m.Stocks (stockOf bodies)) :
    Abides (stockOf bodies) (asSuperclass v line) (asSuperclass v line) m fun _ => True := by
  cases v with
  | cls c => exact .pure hm trivial
  | _ => exact .raise hm _ _

omit h in
theorem methodFrame (superclass : Option Nat) (hm : m.Stocks (stockOf bodies)) :
    Abides (stockOf bodies) (methodFrame superclass) (methodFrame superclass) m fun _ => True := by
  refine .currentBind ?_
  cases superclass with
  | none => exact .pure hm trivial
  | some c =>
    refine (Abides.newFrame hm m.current).bind fun i m₁ hm₁ _ hi => ?_
    have hwrite : Abides (stockOf bodies) (Run.writeSlot i "super" (some (.cls c))) _ m₁
        fun _ => True :=
      .writeSlot hm₁ (fun h => absurd h hi) (by rintro _ ⟨⟩; trivial)
    exact hwrite.bind fun _ m₂ hm₂ _ _ => .pure hm₂ trivial

omit h in
theorem makeMethods (frame : Nat) {methods : List FunctionDecl} {table : Bindings Closure}
    (hmethods : ∀ d ∈ methods, d.DeclaredIn bodies (d.name.text == initializerName))
    (htable : ∀ name f, table.get? name = some f → f.Stocked (stockOf bodies))
    (hm : m.Stocks (stockOf bodies)) :
    Abides (stockOf bodies) (makeMethods frame methods table) (makeMethods frame methods table) m
      fun table => ∀ name f, table.get? name = some f → f.Stocked (stockOf bodies) := by
  induction methods generalizing table m with
  | nil => exact .pure hm htable
  | cons d methods ih =>
    obtain ⟨hd, hmethods⟩ := List.forall_mem_cons.mp hmethods
    refine (Abides.newClosure hm hd frame).bind fun f m₁ hm₁ _ hf => ih hmethods ?_ hm₁
    intro name g hg
    rw [Bindings.get?_insert] at hg
    split at hg
    · cases hg
      exact hf
    · exact htable name g hg

omit h in
theorem declareClass {name : Name} (superclass : Option Nat) {methods : List FunctionDecl}
    (hname : m.current = globalFrame → (stockOf bodies).globals name.text)
    (hmethods : ∀ d ∈ methods, d.DeclaredIn bodies (d.name.text == initializerName))
    (hm : m.Stocks (stockOf bodies)) :
    Abides (stockOf bodies) (declareClass name superclass methods)
      (declareClass name superclass methods) m fun _ => True := by
  have hnil : Value.nil.Stocked (stockOf bodies) := trivial
  have hnone (name : String) (f : Closure) (hf : Bindings.get? [] name = some f) :
      f.Stocked (stockOf bodies) := by
    cases hf
  refine (Abides.define hm hname hnil).bind fun _ m₁ hm₁ _ _ =>
    (methodFrame superclass hm₁).bind fun frame m₂ hm₂ _ _ =>
    (makeMethods frame hmethods hnone hm₂).bind fun table m₃ hm₃ _ htable =>
    (Abides.newClass hm₃ htable).bind fun c m₄ hm₄ _ _ => .getBind ?_
  exact .assignIn hm₄ (fun i hi => Tracks.holds_of_holder? hi) trivial

/-- One step of a statement. -/
theorem executeStep {above : List Node} (bound : Nat) {s : Stmt}
    (hs : OccursIn bodies above (.stmt s))
    (hglobal : m.current = globalFrame → ¬ above.any Node.opensScope)
    (hm : m.Stocks (stockOf bodies)) :
    Abides (stockOf bodies) (executeStep parts' bound s) (executeStep parts bound s) m
      (Flow.Stocked (stockOf bodies)) := by
  have hdeclares (name : Name) (hname : name ∈ s.declared) (hcurrent : m.current = globalFrame) :
      (stockOf bodies).globals name.text :=
    .inr ⟨above, s, hs, hglobal hcurrent, List.mem_map_of_mem hname⟩
  match s with
  | .expression e => exact (h.evaluate hm).bind fun _ m₁ hm₁ _ _ => .pure hm₁ trivial
  | .variable name (some e) =>
    refine (h.evaluate hm).bind fun v m₁ hm₁ hcurrent hv => ?_
    have hname := hdeclares name List.mem_cons_self
    exact (Abides.define hm₁ (hcurrent ▸ hname) hv).bind fun _ m₂ hm₂ _ _ => .pure hm₂ trivial
  | .variable name none =>
    exact (Abides.declare hm (hdeclares name List.mem_cons_self)).bind fun _ m₁ hm₁ _ _ =>
      .pure hm₁ trivial
  | .block body =>
    refine .currentBind ((Abides.newFrame hm m.current).bind fun i m₁ hm₁ _ hi => ?_)
    have hbody : ∀ s ∈ body, OccursIn bodies (.stmt (.block body) :: above) (.stmt s) :=
      fun s hs' => hs.child (List.mem_map_of_mem hs')
    exact .within (h.executeAll hbody (fun hcurrent => absurd hcurrent hi)
      (hm₁.of_tables rfl rfl rfl))
  | .ifThen condition thenBranch =>
    refine (h.evaluate hm).bind fun v m₁ hm₁ hcurrent _ => .ite ?_ (.pure hm₁ trivial)
    exact h.execute (hs.child (by simp [Node.children, Stmt.children]))
      (by rw [hcurrent]; simpa [Node.opensScope] using hglobal) hm₁
  | .ifElse condition thenBranch elseBranch =>
    refine (h.evaluate hm).bind fun v m₁ hm₁ hcurrent _ => ?_
    have hglobal₁ : m₁.current = globalFrame →
        ¬ (Node.stmt (.ifElse condition thenBranch elseBranch) :: above).any Node.opensScope := by
      rw [hcurrent]
      simpa [Node.opensScope] using hglobal
    exact .ite (h.execute (hs.child (by simp [Node.children, Stmt.children])) hglobal₁ hm₁)
      (h.execute (hs.child (by simp [Node.children, Stmt.children])) hglobal₁ hm₁)
  | .while condition body =>
    exact h.loop condition (hs.child (by simp [Node.children, Stmt.children]))
      (by simpa [Node.opensScope] using hglobal) bound hm
  | .function decl =>
    refine .currentBind ((Abides.newClosure hm (.function hs) m.current).bind
      fun f m₁ hm₁ hcurrent hf => ?_)
    have hname := hdeclares decl.name List.mem_cons_self
    have hvalue : (Value.function f).Stocked (stockOf bodies) := hf
    exact (Abides.define hm₁ (hcurrent ▸ hname) hvalue).bind fun _ m₂ hm₂ _ _ => .pure hm₂ trivial
  | .return line (some e) => exact (h.evaluate hm).bind fun v m₁ hm₁ _ hv => .pure hm₁ hv
  | .return line none => exact .pure hm trivial
  | .class name none methods =>
    exact (declareClass none (hdeclares name List.mem_cons_self) (fun d hd => .method hs hd)
      hm).bind fun _ m₁ hm₁ _ _ => .pure hm₁ trivial
  | .class name (some superclass) methods =>
    refine (h.evaluate hm).bind fun v m₁ hm₁ hcurrent _ => ?_
    have hname := hdeclares name List.mem_cons_self
    exact (asSuperclass v superclass.name.line hm₁).bind fun c m₂ hm₂ hcurrent₂ _ =>
      (declareClass (some c) (hcurrent₂.trans hcurrent ▸ hname) (fun d hd => .method hs hd)
        hm₂).bind fun _ m₃ hm₃ _ _ => .pure hm₃ trivial

/-! ### Calls of functions -/

omit h in
theorem bindParameters {i : Nat} (hi : i ≠ globalFrame) (params : List Name)
    {arguments : List Value} (harguments : ∀ v ∈ arguments, v.Stocked (stockOf bodies))
    (hm : m.Stocks (stockOf bodies)) :
    Abides (stockOf bodies) (bindParameters i params arguments) (bindParameters i params arguments)
      m fun _ => True := by
  induction params generalizing arguments m with
  | nil => exact .pure hm trivial
  | cons p params ih =>
    cases arguments with
    | nil => exact .pure hm trivial
    | cons v arguments =>
      obtain ⟨hv, harguments⟩ := List.forall_mem_cons.mp harguments
      have hwrite : Abides (stockOf bodies) (Run.writeSlot i p.text (some v)) _ m fun _ => True :=
        .writeSlot hm (fun h => absurd h hi) (by rintro _ ⟨⟩; exact hv)
      exact hwrite.bind fun _ m₁ hm₁ _ _ => ih harguments hm₁

/-- One step of a call. -/
theorem invokeStep {f : Closure} {arguments : List Value} (hf : f.Stocked (stockOf bodies))
    (harguments : ∀ v ∈ arguments, v.Stocked (stockOf bodies)) (hm : m.Stocks (stockOf bodies)) :
    Abides (stockOf bodies) (invokeStep parts' f arguments) (invokeStep parts f arguments) m
      (Value.Stocked (stockOf bodies)) := by
  obtain ⟨above, hroutine⟩ := FunctionDecl.DeclaredIn.exists_routine hf
  have hbody : ∀ s ∈ f.decl.body, OccursIn bodies (.routine f.decl :: above) (.stmt s) :=
    fun s hs => hroutine.child (List.mem_map_of_mem hs)
  refine (Abides.newFrame hm f.frame).bind fun i m₁ hm₁ _ hi =>
    (bindParameters hi f.decl.params harguments hm₁).bind fun _ m₂ hm₂ _ _ => ?_
  have hwithin : Abides (stockOf bodies) (Run.within i (Treewalk.executeAll parts'.execute _))
      (Run.within i (Treewalk.executeAll parts.execute f.decl.body)) m₂ _ :=
    .within (h.executeAll hbody (fun hcurrent => absurd hcurrent hi) (hm₂.of_tables rfl rfl rfl))
  refine hwithin.bind fun flow m₃ hm₃ _ hflow => .ite ?_ (.pure hm₃ hflow.value)
  exact .getBind (.checked hm₃ _ fun v hv => hm₃.readIn hv)

/-- The statements of a program in order. -/
theorem interpret {body : List Stmt} (hbody : body ∈ bodies) (hm : m.Stocks (stockOf bodies)) :
    Abides (stockOf bodies) (do let _ ← Treewalk.executeAll parts'.execute body)
      (do let _ ← Treewalk.executeAll parts.execute body) m fun _ : Unit => True := by
  have hss : ∀ s ∈ body, OccursIn bodies [] (.stmt s) := fun s hs => ⟨body, hbody, .statement hs⟩
  exact (h.executeAll hss (fun _ => Bool.false_ne_true) hm).bind fun _ _ hm' _ _ =>
    .pure hm' trivial

end EvaluatorsAbide

/-! ### Runs -/

section Runs

variable {bodies : List (List Stmt)} {body : List Stmt}

/-- With a probe that passes on machines that store only what is declared the evaluators do the
same. -/
theorem probed_abide {probe : Node → Run Unit}
    (hprobe : ∀ node m, m.Stocks (stockOf bodies) → probe node m = .ok () m) (fuel : Nat) :
    EvaluatorsAbide bodies (probed probe .resolved fuel) (evaluators .resolved fuel) := by
  induction fuel with
  | zero => exact ⟨fun hm => .throw hm _, fun _ _ hm => .throw hm _, fun _ _ hm => .throw hm _⟩
  | succ fuel ih =>
    have hpass {α : Type} {x' x : Run α} {m : Machine} {Q : α → Prop} {node : Node}
        (hm : m.Stocks (stockOf bodies)) (h : Abides (stockOf bodies) x' x m Q) :
        Abides (stockOf bodies) (do probe node; x') x m Q := by
      refine ⟨?_, h.supplied⟩
      rw [Run.bind_apply, hprobe node m hm]
      exact h.same
    exact ⟨fun hm => hpass hm (ih.evaluateStep .resolved _ hm),
      fun hs hglobal hm => hpass hm (ih.executeStep fuel hs hglobal hm), ih.invokeStep⟩

/-- The machines on which a run comes to nodes store only what the programs declare. -/
theorem stocks_of_comesTo {fuel : Nat} {start m : Machine} {node : Node} (hbody : body ∈ bodies)
    (hstart : start.Stocks (stockOf bodies)) (hm : ComesTo fuel body start node m) :
    m.Stocks (stockOf bodies) := by
  by_contra hnot
  obtain ⟨stop, hstop⟩ := hm
  refine hstop ?_
  have hpass (node' : Node) (m' : Machine) (hm' : m'.Stocks (stockOf bodies)) :
      stopAt node m stop node' m' = .ok () m' :=
    stopAt_of_ne (.inr fun heq => hnot (heq ▸ hm'))
  exact ((probed_abide hpass fuel).interpret hbody hstart).same

end Runs

end Treewalk
