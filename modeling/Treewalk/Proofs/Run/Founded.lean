import Treewalk.Proofs.Run.Alignment
import Treewalk.Proofs.Run.Course
import Treewalk.Proofs.Run.Founding

/-!
# Runs keep a machine founded

Expressions give values that are known, and classes are made by declarations to which the run has come.
This is shown step by step, for evaluators of which the parts are known to do so, and follows for every
fuel by induction, with a probe that stops outside of the history.

## Main definitions

* `EvaluatorsUphold`: evaluators that keep a machine founded.

## Main results

* `EvaluatorsUphold.evaluateStep`, `EvaluatorsUphold.executeStep`, `EvaluatorsUphold.invokeStep`: one
  step inward.
* `founded_of_comesTo`: every machine on which a run comes to a node is founded.
* `interpret_founded`: so is the machine that it leaves.
-/

namespace Treewalk

theorem Value.IsPlain.known {v : Value} {n : Nat} (h : v.IsPlain) : v.Known n := by
  cases v with
  | object o => exact absurd h id
  | _ => trivial

/-- A statement ends normally, or returns a value that is known. -/
def Flow.Known (flow : Flow) (m : Machine) : Prop :=
  flow.value.KnownOn m

/-- Evaluators that do the same as others and keep a machine founded. A variable is read without a change
to the machine. Classes are declared at moments that are known. -/
structure EvaluatorsUphold (came : Node → Machine → Prop) (parts' parts : Evaluators) : Prop where
  evaluate : ∀ {e m}, m.Founded came →
    Upholds came (parts'.evaluate e) (parts.evaluate e) m Value.KnownOn
  execute : ∀ {s m}, m.Founded came →
    Upholds came (parts'.execute s) (parts.execute s) m Flow.Known
  invoke : ∀ {f arguments m}, (∀ v ∈ arguments, v.KnownOn m) → m.Founded came →
    Upholds came (parts'.invoke f arguments) (parts.invoke f arguments) m Value.KnownOn
  readVariable : ∀ {id name m v m'}, m.Founded came →
    parts.evaluate (.variable id name) m = .ok v m' →
      m' = m ∧ Run.readVariable .resolved id name m = .ok v m

namespace EvaluatorsUphold

variable {came : Node → Machine → Prop} {parts' parts : Evaluators} {m : Machine}
  (h : EvaluatorsUphold came parts' parts)

include h

/-! ### Calls -/

theorem callUnchecked {callee : Value} {arguments : List Value}
    (harguments : ∀ v ∈ arguments, v.KnownOn m) (line : Nat) (hm : m.Founded came) :
    Upholds came (callUnchecked parts'.invoke callee arguments line)
      (callUnchecked parts.invoke callee arguments line) m Value.KnownOn := by
  cases callee with
  | native n => exact .native hm n arguments line
  | function f => exact h.invoke harguments hm
  | cls c =>
    refine (Upholds.newObject hm c).bind fun i m₁ hm₁ hsize₁ _ hi => .getBind ?_
    cases m₁.findMethod? c initializerName with
    | none => exact .pure hm₁ hi
    | some f =>
      refine (Upholds.bindReceiver hm₁ f hi).bind fun g m₂ hm₂ hsize₂ _ _ => ?_
      have harguments₂ : ∀ v ∈ arguments, v.KnownOn m₂ := fun v hv =>
        (harguments v hv).mono (Nat.le_trans hsize₁ hsize₂)
      exact (h.invoke harguments₂ hm₂).bind fun _ m₃ hm₃ hsize₃ _ _ =>
        .pure hm₃ (hi.mono (Nat.le_trans hsize₂ hsize₃))
  | _ => exact .raise hm _ _

theorem callWith {callee : Value} {arguments : List Value}
    (harguments : ∀ v ∈ arguments, v.KnownOn m) (line : Nat) (hm : m.Founded came) :
    Upholds came (callWith parts'.invoke callee arguments line)
      (callWith parts.invoke callee arguments line) m Value.KnownOn := by
  refine .getBind ?_
  cases m.arity? callee with
  | none => exact .raise hm _ _
  | some arity => exact .ite (h.callUnchecked harguments line hm) (.raise hm _ _)

/-! ### Expressions -/

theorem evaluateAll (es : List Expr) (hm : m.Founded came) :
    Upholds came (evaluateAll parts'.evaluate es) (evaluateAll parts.evaluate es) m
      fun vs m' => ∀ v ∈ vs, v.KnownOn m' := by
  induction es generalizing m with
  | nil => exact .pure hm fun v hv => absurd hv List.not_mem_nil
  | cons e es ih =>
    exact (h.evaluate hm).bind fun v m₁ hm₁ _ _ hv => (ih hm₁).bind fun vs m₂ hm₂ hsize _ hvs =>
      .pure hm₂ (List.forall_mem_cons.mpr ⟨hv.mono hsize, hvs⟩)

/-- One step of an expression. -/
theorem evaluateStep (e : Expr) (hm : m.Founded came) :
    Upholds came (evaluateStep .resolved parts' e) (evaluateStep .resolved parts e) m
      Value.KnownOn := by
  cases e with
  | literal l => exact .pure hm l.isPlain_value.known
  | grouping inner => exact h.evaluate hm
  | unary op line operand =>
    exact (h.evaluate hm).bind fun v m₁ hm₁ _ _ _ => .checked hm₁ line fun w hw =>
      (UnaryOp.isPlain_apply hw).known
  | binary op line left right =>
    exact (h.evaluate hm).bind fun v m₁ hm₁ _ _ _ => (h.evaluate hm₁).bind fun w m₂ hm₂ _ _ _ =>
      .getBind (.checked hm₂ line fun u hu => (BinaryOp.isPlain_apply hu).known)
  | logical op line left right =>
    exact (h.evaluate hm).bind fun v m₁ hm₁ _ _ hv => .ite (.pure hm₁ hv) (h.evaluate hm₁)
  | ternary condition whenTrue whenFalse =>
    exact (h.evaluate hm).bind fun v m₁ hm₁ _ _ _ => .ite (h.evaluate hm₁) (h.evaluate hm₁)
  | «variable» id name => exact .readVariable hm .resolved id name
  | assign id name value =>
    exact (h.evaluate hm).bind fun v m₁ hm₁ _ _ hv =>
      (Upholds.assignVariable hm₁ .resolved id name hv).bind fun _ m₂ hm₂ hsize _ _ =>
        .pure hm₂ (hv.mono hsize)
  | call callee line arguments =>
    exact (h.evaluate hm).bind fun f m₁ hm₁ _ _ _ => (h.evaluateAll arguments hm₁).bind
      fun vs m₂ hm₂ _ _ hvs => h.callWith hvs line hm₂
  | get object name =>
    exact (h.evaluate hm).bind fun v m₁ hm₁ _ _ hv => (Upholds.asObject hm₁ hv _ _).bind
      fun i m₂ hm₂ _ _ hi => .property hm₂ hi name
  | set object name value =>
    exact (h.evaluate hm).bind fun v m₁ hm₁ _ _ hv => (Upholds.asObject hm₁ hv _ _).bind
      fun i m₂ hm₂ _ _ _ => (h.evaluate hm₂).bind fun w m₃ hm₃ _ _ hw =>
        (Upholds.setField hm₃ i name.text hw).bind fun _ m₄ hm₄ hsize _ _ =>
          .pure hm₄ (hw.mono hsize)
  | this id line => exact .readVariable hm .resolved id ⟨"this", line⟩
  | super id line method => exact .superMethod hm id line method

/-! ### Statements -/

theorem executeAll (ss : List Stmt) (hm : m.Founded came) :
    Upholds came (executeAll parts'.execute ss) (executeAll parts.execute ss) m Flow.Known := by
  induction ss generalizing m with
  | nil => exact .pure hm trivial
  | cons s ss ih =>
    refine (h.execute hm).bind fun flow m₁ hm₁ _ _ hflow => ?_
    cases flow with
    | normal => exact ih hm₁
    | returned v => exact .pure hm₁ hflow

theorem loop (condition : Expr) (body : Stmt) (bound : Nat) (hm : m.Founded came) :
    Upholds came (loop (parts'.evaluate condition) (parts'.execute body) bound)
      (loop (parts.evaluate condition) (parts.execute body) bound) m Flow.Known := by
  induction bound generalizing m with
  | zero => exact .throw hm _
  | succ bound ih =>
    refine (h.evaluate hm).bind fun v m₁ hm₁ _ _ _ => .ite ?_ (.pure hm₁ trivial)
    refine (h.execute hm₁).bind fun flow m₂ hm₂ _ _ hflow => ?_
    cases flow with
    | normal => exact ih hm₂
    | returned v => exact .pure hm₂ hflow

/-- One step of a statement, at a moment that is known. -/
theorem executeStep (bound : Nat) {s : Stmt} (hcame : came (.stmt s) m) (hm : m.Founded came) :
    Upholds came (executeStep parts' bound s) (executeStep parts bound s) m Flow.Known := by
  match s with
  | .expression e => exact (h.evaluate hm).bind fun _ m₁ hm₁ _ _ _ => .pure hm₁ trivial
  | .variable name (some e) =>
    exact (h.evaluate hm).bind fun v m₁ hm₁ _ _ hv =>
      (Upholds.define hm₁ hv).bind fun _ m₂ hm₂ _ _ _ => .pure hm₂ trivial
  | .variable name none =>
    exact (Upholds.declare hm name.text).bind fun _ m₁ hm₁ _ _ _ => .pure hm₁ trivial
  | .block body =>
    refine .currentBind ((Upholds.newFrame hm m.current).bind fun i m₁ hm₁ _ _ _ => ?_)
    exact .within (h.executeAll body (hm₁.of_tables rfl rfl rfl)) fun _ _ _ => id
  | .ifThen condition thenBranch =>
    exact (h.evaluate hm).bind fun v m₁ hm₁ _ _ _ => .ite (h.execute hm₁) (.pure hm₁ trivial)
  | .ifElse condition thenBranch elseBranch =>
    exact (h.evaluate hm).bind fun v m₁ hm₁ _ _ _ => .ite (h.execute hm₁) (h.execute hm₁)
  | .while condition body => exact h.loop condition body bound hm
  | .function decl =>
    refine .currentBind ((Upholds.newClosure hm decl m.current false).bind fun f m₁ hm₁ _ _ _ => ?_)
    have hf : (Value.function f).KnownOn m₁ := trivial
    exact (Upholds.define hm₁ hf).bind fun _ m₂ hm₂ _ _ _ => .pure hm₂ trivial
  | .return line (some e) => exact (h.evaluate hm).bind fun v m₁ hm₁ _ _ hv => .pure hm₁ hv
  | .return line none => exact .pure hm trivial
  | .class name none methods =>
    let δ : Declaration came := ⟨name, none, methods, m, none, hcame, rfl⟩
    exact (Upholds.declareClass δ hm).bind fun _ m₁ hm₁ _ _ _ => .pure hm₁ trivial
  | .class name (some superclass) methods =>
    have hread : Upholds came (parts'.evaluate superclass.expr) (parts.evaluate superclass.expr) m
        fun v m' => m' = m ∧ Run.readVariable .resolved superclass.id superclass.name m = .ok v m := by
      obtain ⟨hsame, hleaves⟩ := h.evaluate (e := superclass.expr) hm
      refine ⟨hsame, ?_⟩
      cases hv : parts.evaluate superclass.expr m with
      | ok v m' =>
        rw [hv] at hleaves
        exact ⟨hleaves.1, hleaves.2.1, hleaves.2.2.1, h.readVariable hm hv⟩
      | error e m' =>
        rw [hv] at hleaves
        exact hleaves
    refine hread.bind fun v m₁ _ _ _ hv => ?_
    obtain ⟨rfl, hv⟩ := hv
    refine (Upholds.asSuperclass hm v superclass.name.line).bind fun c m₂ _ _ _ hc => ?_
    obtain ⟨rfl, rfl⟩ := hc
    let δ : Declaration came := ⟨name, some superclass, methods, m₂, some c, hcame, congrArg some hv⟩
    exact (Upholds.declareClass δ hm).bind fun _ m₃ hm₃ _ _ _ => .pure hm₃ trivial

/-! ### Calls of functions -/

omit h in
theorem bindParameters (i : Nat) (params : List Name) {arguments : List Value}
    (harguments : ∀ v ∈ arguments, v.KnownOn m) (hm : m.Founded came) :
    Upholds came (bindParameters i params arguments) (bindParameters i params arguments) m
      fun _ _ => True := by
  induction params generalizing arguments m with
  | nil => exact .pure hm trivial
  | cons p params ih =>
    cases arguments with
    | nil => exact .pure hm trivial
    | cons v arguments =>
      obtain ⟨hv, harguments⟩ := List.forall_mem_cons.mp harguments
      have hwrite : Upholds came (Run.writeSlot i p.text (some v)) _ m fun _ _ => True :=
        .writeSlot hm (by rintro _ ⟨⟩; exact hv)
      exact hwrite.bind fun _ m₁ hm₁ hsize _ _ => ih (fun w hw => (harguments w hw).mono hsize) hm₁

/-- One step of a call. -/
theorem invokeStep {f : Closure} {arguments : List Value}
    (harguments : ∀ v ∈ arguments, v.KnownOn m) (hm : m.Founded came) :
    Upholds came (invokeStep parts' f arguments) (invokeStep parts f arguments) m
      Value.KnownOn := by
  refine (Upholds.newFrame hm f.frame).bind fun i m₁ hm₁ hsize _ _ => ?_
  have harguments₁ : ∀ v ∈ arguments, v.KnownOn m₁ := fun v hv => (harguments v hv).mono hsize
  refine (bindParameters i f.decl.params harguments₁ hm₁).bind fun _ m₂ hm₂ _ _ _ => ?_
  have hwithin : Upholds came (Run.within i (Treewalk.executeAll parts'.execute f.decl.body))
      (Run.within i (Treewalk.executeAll parts.execute f.decl.body)) m₂ Flow.Known :=
    .within (h.executeAll f.decl.body (hm₂.of_tables rfl rfl rfl)) fun _ _ _ => id
  refine hwithin.bind fun flow m₃ hm₃ _ _ hflow => .ite ?_ (.pure hm₃ hflow)
  exact .getBind (.checked hm₃ _ fun v hv => hm₃.readIn hv)

/-- The statements of a program in order. -/
theorem interpret (body : List Stmt) (hm : m.Founded came) :
    Upholds came (do let _ ← Treewalk.executeAll parts'.execute body)
      (do let _ ← Treewalk.executeAll parts.execute body) m fun (_ : Unit) _ => True :=
  (h.executeAll body hm).bind fun _ _ hm' _ _ _ => .pure hm' trivial

end EvaluatorsUphold

/-! ### Runs -/

section Runs

variable {came : Node → Machine → Prop} {probe' probe : Node → Run Unit} {m start : Machine}
  {fuel : Nat} {body : List Stmt}

/-- A variable is read without a change to the machine. -/
theorem Run.readVariable_eq {lookup : Lookup} {id : Nat} {name : Name} {v : Value} {m' : Machine}
    (h : readVariable lookup id name m = .ok v m') : m' = m := by
  rw [readVariable, get_bind_apply] at h
  cases hread : m.frames.readIn (m.holderOf lookup id name.text) name.text with
  | ok w =>
    rw [hread] at h
    cases h
    rfl
  | error fault =>
    rw [hread] at h
    cases h

/-- With probes that stop outside of the history, and that do the same on founded machines, the
evaluators do the same and keep a machine founded. -/
theorem probed_uphold
    (hpasses : ∀ node m, (probe node m = .ok () m ∧ came node m) ∨ ∃ e, probe node m = .error e m)
    (hsame : ∀ node m, m.Founded came → probe' node m = probe node m) (fuel : Nat) :
    EvaluatorsUphold came (probed probe' .resolved fuel) (probed probe .resolved fuel) := by
  have hafter {α : Type} {x' x : Run α} {m : Machine} {Q : α → Machine → Prop} {node : Node}
      (hm : m.Founded came) (h : came node m → Upholds came x' x m Q) :
      Upholds came (do probe' node; x') (do probe node; x) m Q := by
    rcases hpasses node m with ⟨hpass, hcame⟩ | ⟨e, hstop⟩
    · refine ⟨?_, ?_⟩
      · rw [Run.bind_of_ok ((hsame node m hm).trans hpass), Run.bind_of_ok hpass]
        exact (h hcame).same
      · rw [Run.bind_of_ok hpass]
        exact (h hcame).leaves
    · refine ⟨?_, ?_⟩
      · rw [Run.bind_apply, Run.bind_apply, hsame node m hm, hstop]
      · rw [Run.bind_apply, hstop]
        exact hm
  induction fuel with
  | zero =>
    exact ⟨fun hm => .throw hm _, fun hm => .throw hm _, fun _ hm => .throw hm _,
      fun _ hv => nomatch hv⟩
  | succ fuel ih =>
    refine ⟨fun hm => hafter hm fun _ => ih.evaluateStep _ hm,
      fun hm => hafter hm fun hcame => ih.executeStep fuel hcame hm, ih.invokeStep,
      fun {id name m v m'} _ hv => ?_⟩
    change (probe (.expr (.variable id name)) >>= fun _ => Run.readVariable .resolved id name) m =
      .ok v m' at hv
    rcases hpasses (.expr (.variable id name)) m with ⟨hpass, -⟩ | ⟨e, hstop⟩
    · rw [Run.bind_of_ok hpass] at hv
      obtain rfl := Run.readVariable_eq hv
      exact ⟨rfl, hv⟩
    · rw [Run.bind_apply, hstop] at hv
      cases hv

theorem stopWhere_passes (came : Node → Machine → Prop) (stop : Interrupt) (node : Node)
    (m : Machine) : (stopWhere (fun node m => ¬ came node m) stop node m = .ok () m ∧ came node m) ∨
      ∃ e, stopWhere (fun node m => ¬ came node m) stop node m = .error e m := by
  by_cases hcame : came node m
  · exact .inl ⟨stopWhere_neg (not_not_intro hcame), hcame⟩
  · exact .inr ⟨stop, stopWhere_pos hcame⟩

/-- The machine that a run leaves is founded. -/
theorem interpret_founded (hcomes : ∀ node m, ComesTo fuel body start node m → came node m)
    (hstart : start.Founded came) : ((interpret .resolved fuel body).after start).Founded came := by
  have hnever : ∀ node m, ¬ came node m → ¬ ComesTo fuel body start node m :=
    fun node m hnot h => hnot (hcomes node m h)
  have huphold := (probed_uphold (stopWhere_passes came .outOfFuel) (fun _ _ _ => rfl) fuel).interpret
    body hstart
  have hleaves := huphold.leaves
  change Uphold came start _ (interpretProbed _ .resolved fuel body start) at hleaves
  rw [interpretProbed_stopWhere hnever .outOfFuel] at hleaves
  unfold Run.after
  cases hresult : interpret .resolved fuel body start with
  | ok a m' =>
    rw [hresult] at hleaves
    exact hleaves.1
  | error e m' =>
    rw [hresult] at hleaves
    exact hleaves

/-- Every machine on which a run comes to a node is founded. -/
theorem founded_of_comesTo (hcomes : ∀ node m, ComesTo fuel body start node m → came node m)
    (hstart : start.Founded came) {node : Node} (h : ComesTo fuel body start node m) :
    m.Founded came := by
  by_contra hnot
  have hnever : ∀ node m, ¬ came node m → ¬ ComesTo fuel body start node m :=
    fun node m hnot h => hnot (hcomes node m h)
  -- a probe that stops at this moment does what one does that never stops on the way
  have hstops (stop : Interrupt) : Run.Stops (interpret .resolved fuel body) start stop := by
    have hsame : ∀ node' m', m'.Founded came →
        stopWhere (fun node' m' => came node' m' → node' = node ∧ m' = m) stop node' m' =
          stopWhere (fun node m => ¬ came node m) stop node' m' := by
      intro node' m' hm'
      by_cases hcame : came node' m'
      · have hother : ¬ (came node' m' → node' = node ∧ m' = m) := fun h => by
          obtain ⟨-, rfl⟩ := h hcame
          exact hnot hm'
        rw [stopWhere_neg hother, stopWhere_neg (not_not_intro hcame)]
      · rw [stopWhere_pos fun h => absurd h hcame, stopWhere_pos hcame]
    have huphold := (probed_uphold (stopWhere_passes came stop) hsame fuel).interpret body hstart
    have heq := huphold.same
    change interpretProbed _ .resolved fuel body start =
      interpretProbed _ .resolved fuel body start at heq
    rw [interpretProbed_stopWhere hnever stop] at heq
    obtain ⟨m', hm'⟩ := h.stops (S := fun node' m' => came node' m' → node' = node ∧ m' = m)
      (fun _ => ⟨rfl, rfl⟩) stop
    exact ⟨m', heq.symm.trans hm'⟩
  exact Run.Stops.not_forall _ _ hstops

end Runs

end Treewalk
