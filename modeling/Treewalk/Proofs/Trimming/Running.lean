import Treewalk.Proofs.Run.Stocking
import Treewalk.Proofs.Trimming.Operations

/-!
# Running programs without spare scopes

A program whose nodes are bound to the same scopes without a spare scope runs without the frames for that
scope as it runs with them. The amounts of fuel need not be the same: the run with less of it may run out
of it when the other one does not.

## Main definitions

* `Flow.Trimmed`: how statements of the two programs end.
* `EvaluatorsTrim`: evaluators of which the one does without spare frames what the other does with them.

## Main results

* `evaluators_trim`: expressions, statements and calls.
-/

namespace Treewalk

open Run

/-! ### Amounts of fuel -/

namespace Slack.Allows

variable {S : Slack} {fuel fuel' : Nat}

/-- One of the two computations is out of fuel and may be, or both go on with less. -/
theorem exhausted_or_pred (h : S.Allows fuel fuel') :
    (fuel = 0 ∧ S.whole) ∨ (fuel' = 0 ∧ S.trimmed) ∨
      ∃ n n', fuel = n + 1 ∧ fuel' = n' + 1 ∧ S.Allows n n' := by
  rcases h with ⟨hle, hwhole⟩ | ⟨hle, htrimmed⟩
  · rcases fuel with _ | n
    · exact .inl ⟨rfl, hwhole⟩
    · obtain ⟨n', rfl⟩ := Nat.exists_eq_add_of_le' (Nat.le_of_add_left_le hle)
      exact .inr (.inr ⟨n, n', rfl, rfl, .inl ⟨Nat.le_of_succ_le_succ hle, hwhole⟩⟩)
  · rcases fuel' with _ | n'
    · exact .inr (.inl ⟨rfl, htrimmed⟩)
    · obtain ⟨n, rfl⟩ := Nat.exists_eq_add_of_le' (Nat.le_of_add_left_le hle)
      exact .inr (.inr ⟨n, n', rfl, rfl, .inr ⟨Nat.le_of_succ_le_succ hle, htrimmed⟩⟩)

end Slack.Allows

/-! ### Values of constants and operators -/

theorem Value.IsPlain.trimmed {t : Trimming} {W : Seating} {v : Value} (h : v.IsPlain) :
    Value.Trimmed t W v v :=
  .other h.ne_function

theorem Literal.value_trimmed {t : Trimming} {W : Seating} (l : Literal) :
    Value.Trimmed t W l.value l.value := by
  cases l with
  | nil => exact .nil
  | bool b => exact .bool b
  | number x => exact .number x
  | string s => exact .string s

/-- The outcome of an operator. -/
theorem Run.trims_checked {S : Slack} {t : Trimming} {W : Seating} {i : Nat}
    {o : Except RuntimeFault Value} (hplain : ∀ v, o = .ok v → v.IsPlain) (line : Nat) :
    Trims S t W i (Value.Trimmed t) (checked line o) (checked line o) := by
  cases o with
  | ok v => exact .pure (hplain v rfl).trimmed
  | error fault => exact trims_raise fault line

/-! ### Evaluators -/

/-- How statements of the two programs end. -/
inductive Flow.Trimmed (t : Trimming) (W : Seating) : Flow → Flow → Prop
  | normal : Flow.Trimmed t W .normal .normal
  | returned {v v' : Value} (h : Value.Trimmed t W v v') :
    Flow.Trimmed t W (.returned v) (.returned v')

theorem Flow.Trimmed.value {t : Trimming} {W : Seating} {flow flow' : Flow}
    (h : Flow.Trimmed t W flow flow') : Value.Trimmed t W flow.value flow'.value := by
  cases h with
  | normal => exact .nil
  | returned hv => exact hv

/-- A statement as it stands in a program without the spare scope: in the spare scope itself nothing is
declared. -/
structure Stmt.Trimmed (t : Trimming) (r : Relocation) (spare : Option Nat) (s : Stmt) : Prop where
  node : (Node.stmt s).Trimmed t r spare
  declared : spare = some 0 → s.declared = []

/-- Evaluators of which the second does without spare frames what the first does with them. -/
structure EvaluatorsTrim (S : Slack) (t : Trimming) (parts parts' : Evaluators) : Prop where
  evaluate : ∀ {W : Seating} {i r spare e}, Relocation.KeepsLines r →
    (Node.expr e).Trimmed t r spare → W.At i spare →
    Trims S t W i (Value.Trimmed t) (parts.evaluate e) (parts'.evaluate (e.relocate r))
  execute : ∀ {W : Seating} {i r spare s}, Relocation.KeepsLines r → s.Trimmed t r spare →
    W.At i spare →
    Trims S t W i (Flow.Trimmed t) (parts.execute s) (parts'.execute (s.relocate r))
  invoke : ∀ {W : Seating} {i f f' arguments arguments'}, Closure.Trimmed t W 0 f f' →
    List.Forall₂ (Value.Trimmed t W) arguments arguments' →
    Trims S t W i (Value.Trimmed t) (parts.invoke f arguments) (parts'.invoke f' arguments')

namespace EvaluatorsTrim

variable {S : Slack} {t : Trimming} {parts parts' : Evaluators} (h : EvaluatorsTrim S t parts parts')
  {W : Seating} {i : Nat}

include h

/-! ### Calls -/

theorem callUnchecked {callee callee' : Value} (hcallee : Value.Trimmed t W callee callee')
    {arguments arguments' : List Value}
    (harguments : List.Forall₂ (Value.Trimmed t W) arguments arguments') (line : Nat) :
    Trims S t W i (Value.Trimmed t) (callUnchecked parts.invoke callee arguments line)
      (callUnchecked parts'.invoke callee' arguments' line) := by
  cases hcallee with
  | function hf => exact h.invoke hf harguments
  | other hother =>
    cases callee with
    | native n => exact trims_native n harguments line
    | function f => exact absurd rfl (hother f)
    | cls c =>
      refine (trims_newObject c).bind fun W₁ o o' hW₁ ho => ?_
      subst ho
      refine .get_bind fun m m' hm => ?_
      have hfound := hm.tables.findMethod? c initializerName
      generalize m.findMethod? c initializerName = f, m'.findMethod? c initializerName = f' at hfound
      cases hfound with
      | none => exact .pure (.object o)
      | some hf =>
        refine (trims_bindReceiver hf (.object o)).bind fun W₂ g g' hW₂ hg => ?_
        have harguments₂ := harguments.imp fun _ _ hv => hv.mono (hW₁.trans hW₂)
        exact (h.invoke hg harguments₂).bind fun _ _ _ _ _ => .pure (.object o)
    | _ => exact trims_raise _ line

theorem callWith {callee callee' : Value} (hcallee : Value.Trimmed t W callee callee')
    {arguments arguments' : List Value}
    (harguments : List.Forall₂ (Value.Trimmed t W) arguments arguments') (line : Nat) :
    Trims S t W i (Value.Trimmed t) (callWith parts.invoke callee arguments line)
      (callWith parts'.invoke callee' arguments' line) := by
  refine .get_bind fun m m' hm => ?_
  rw [hm.tables.arity? (fun _ _ hf => hf.arity_eq) hcallee.alike, ← harguments.length_eq]
  cases m.arity? callee with
  | none => exact trims_raise _ line
  | some arity => exact .ite (h.callUnchecked hcallee harguments line) (trims_raise _ line)

/-! ### Expressions -/

section Parts

variable {r : Relocation} (hr : Relocation.KeepsLines r) {spare : Option Nat}

include hr

theorem evaluateAll (es : List Expr) (hnodes : ∀ e ∈ es, (Node.expr e).Trimmed t r spare)
    (hat : W.At i spare) :
    Trims S t W i (fun W' => List.Forall₂ (Value.Trimmed t W')) (evaluateAll parts.evaluate es)
      (evaluateAll parts'.evaluate (es.map (Expr.relocate r))) := by
  induction es generalizing W with
  | nil => exact .pure .nil
  | cons e es ih =>
    obtain ⟨he, hes⟩ := List.forall_mem_cons.mp hnodes
    refine (h.evaluate hr he hat).bind fun W₁ v v' hW₁ hv => ?_
    exact (ih hes (hat.mono hW₁)).bind fun W₂ vs vs' hW₂ hvs => .pure (.cons (hv.mono hW₂) hvs)

/-- One step of an expression. -/
theorem evaluateStep {e : Expr} (hnode : (Node.expr e).Trimmed t r spare) (hat : W.At i spare) :
    Trims S t W i (Value.Trimmed t) (evaluateStep .resolved parts e)
      (evaluateStep .resolved parts' (e.relocate r)) := by
  have hpart {part : Expr} (hpart : part ∈ e.parts) := hnode.part hpart
  cases e with
  | literal l => exact .pure l.value_trimmed
  | grouping inner => exact h.evaluate hr (hpart List.mem_cons_self) hat
  | unary op line operand =>
    rw [Expr.relocate, hr]
    refine (h.evaluate hr (hpart List.mem_cons_self) hat).bind fun W₁ v v' hW₁ hv => ?_
    rw [UnaryOp.apply_alike hv.alike]
    exact trims_checked (fun _ hw => UnaryOp.isPlain_apply hw) line
  | binary op line left right =>
    rw [Expr.relocate, hr]
    refine (h.evaluate hr (hpart List.mem_cons_self) hat).bind fun W₁ v v' hW₁ hv => ?_
    refine (h.evaluate hr (hpart (by simp [Expr.parts])) (hat.mono hW₁)).bind
      fun W₂ w w' hW₂ hw => ?_
    refine .get_bind fun m m' hm => ?_
    have hv₂ := hv.mono hW₂
    rw [BinaryOp.apply_alike hv₂.alike hw.alike (hm.tables.text hv₂.alike) (hm.tables.text hw.alike)]
    exact trims_checked (fun _ hw => BinaryOp.isPlain_apply hw) line
  | logical op line left right =>
    refine (h.evaluate hr (hpart List.mem_cons_self) hat).bind fun W₁ v v' hW₁ hv => ?_
    rw [LogicalOp.decides_alike hv.alike]
    exact .ite (.pure hv) (h.evaluate hr (hpart (by simp [Expr.parts])) (hat.mono hW₁))
  | ternary condition whenTrue whenFalse =>
    refine (h.evaluate hr (hpart List.mem_cons_self) hat).bind fun W₁ v v' hW₁ hv => ?_
    rw [hv.alike.isTruthy]
    exact .ite (h.evaluate hr (hpart (by simp [Expr.parts])) (hat.mono hW₁))
      (h.evaluate hr (hpart (by simp [Expr.parts])) (hat.mono hW₁))
  | «variable» id name =>
    rw [Expr.relocate, name.relocate_eq_self hr]
    exact trims_readVariable hat (hnode.here rfl) name
  | assign id name value =>
    rw [Expr.relocate, name.relocate_eq_self hr]
    refine (h.evaluate hr (hpart List.mem_cons_self) hat).bind fun W₁ v v' hW₁ hv => ?_
    exact (trims_assignVariable (hat.mono hW₁) (hnode.here rfl) name hv).bind
      fun W₂ _ _ hW₂ _ => .pure (hv.mono hW₂)
  | call callee line arguments =>
    rw [Expr.relocate, Expr.relocateAll_eq_map, hr]
    have harguments : ∀ e ∈ arguments, (Node.expr e).Trimmed t r spare :=
      fun e he => hpart (List.mem_cons_of_mem _ he)
    refine (h.evaluate hr (hpart List.mem_cons_self) hat).bind fun W₁ f f' hW₁ hf => ?_
    refine (h.evaluateAll hr arguments harguments (hat.mono hW₁)).bind fun W₂ vs vs' hW₂ hvs => ?_
    exact h.callWith (hf.mono hW₂) hvs line
  | get object name =>
    rw [Expr.relocate, name.relocate_eq_self hr]
    refine (h.evaluate hr (hpart List.mem_cons_self) hat).bind fun W₁ v v' hW₁ hv => ?_
    refine (trims_asObject hv "properties" name.line).bind fun W₂ o o' hW₂ ho => ?_
    subst ho
    exact trims_property o name
  | set object name value =>
    rw [Expr.relocate, name.relocate_eq_self hr]
    refine (h.evaluate hr (hpart (by simp [Expr.parts])) hat).bind fun W₁ v v' hW₁ hv => ?_
    refine (trims_asObject hv "fields" name.line).bind fun W₂ o o' hW₂ ho => ?_
    subst ho
    have hat₂ := hat.mono (hW₁.trans hW₂)
    refine (h.evaluate hr (hpart List.mem_cons_self) hat₂).bind fun W₃ w w' hW₃ hw => ?_
    exact (trims_setField o name.text hw).bind fun W₄ _ _ hW₄ _ => .pure (hw.mono hW₄)
  | this id line =>
    rw [Expr.relocate, hr]
    exact trims_readVariable hat (hnode.here rfl) ⟨"this", line⟩
  | super id line method =>
    rw [Expr.relocate, method.relocate_eq_self hr, hr]
    exact trims_superMethod hat (hnode.here rfl) (fun _ => hnode.receiver_here) line method

/-! ### Statements -/

theorem executeAll (ss : List Stmt) (hss : ∀ s ∈ ss, s.Trimmed t r spare) (hat : W.At i spare) :
    Trims S t W i (Flow.Trimmed t) (executeAll parts.execute ss)
      (executeAll parts'.execute (ss.map (Stmt.relocate r))) := by
  induction ss generalizing W with
  | nil => exact .pure .normal
  | cons s ss ih =>
    obtain ⟨hs, hss⟩ := List.forall_mem_cons.mp hss
    refine (h.execute hr hs hat).bind fun W₁ flow flow' hW₁ hflow => ?_
    cases hflow with
    | normal => exact ih hss (hat.mono hW₁)
    | returned hv => exact .pure (.returned hv)

theorem loop {condition : Expr} {body : Stmt} (hcondition : (Node.expr condition).Trimmed t r spare)
    (hbody : body.Trimmed t r spare) (hat : W.At i spare) {bound bound' : Nat}
    (hallows : S.Allows bound bound') : Trims S t W i (Flow.Trimmed t)
      (loop (parts.evaluate condition) (parts.execute body) bound)
      (loop (parts'.evaluate (condition.relocate r)) (parts'.execute (body.relocate r)) bound') := by
  induction bound generalizing bound' W with
  | zero =>
    rcases hallows.exhausted_or_pred with ⟨-, hwhole⟩ | ⟨rfl, htrimmed⟩ | ⟨n, n', heq, -⟩
    · exact .outOfFuel hwhole
    · exact .outOfFuel_trimmed htrimmed
    · cases heq
  | succ bound ih =>
    rcases hallows.exhausted_or_pred with ⟨heq, -⟩ | ⟨rfl, htrimmed⟩ | ⟨n, n', heq, rfl, hallows⟩
    · cases heq
    · exact .outOfFuel_trimmed htrimmed
    · cases heq
      refine (h.evaluate hr hcondition hat).bind fun W₁ v v' hW₁ hv => ?_
      rw [hv.alike.isTruthy]
      have hat₁ := hat.mono hW₁
      refine .ite ((h.execute hr hbody hat₁).bind fun W₂ flow flow' hW₂ hflow => ?_) (.pure .normal)
      cases hflow with
      | normal => exact ih (hat₁.mono hW₂) hallows
      | returned hv => exact .pure (.returned hv)

end Parts

omit h

theorem trims_asSuperclass {v v' : Value} (hv : Value.Trimmed t W v v') (line : Nat) :
    Trims S t W i (fun _ => Eq) (asSuperclass v line) (asSuperclass v' line) := by
  cases hv with
  | function hf => exact trims_raise _ line
  | other hother =>
    cases v with
    | cls c => exact .pure rfl
    | _ => exact trims_raise _ line

/-- The frame of methods stands inside of the scope of `super`, if there is a superclass. -/
theorem methodFrame {spare : Option Nat} (hat : W.At i spare) (superclass : Option Nat) :
    Trims S t W i (fun W' frame frame' => frame' = Seating.place W' frame ∧
        Seating.At W' frame (superclass.elim spare fun _ => spare.map (· + 1)))
      (methodFrame superclass) (methodFrame superclass) := by
  refine trims_currentFrame.bind fun W₁ j j' hW₁ hj => ?_
  obtain ⟨rfl, rfl⟩ := hj
  have hat₁ := hat.mono hW₁
  cases superclass with
  | none => exact .pure ⟨rfl, hat₁⟩
  | some c =>
    refine (trims_newFrame hat₁.lt_length rfl).bind fun W₂ k k' hW₂ hk => ?_
    obtain ⟨hlt, hseat⟩ := hk
    refine (trims_writeSlot ⟨_, hseat⟩ "super" (.some (.cls c))).bind fun W₃ _ _ hW₃ _ => ?_
    have hat₃ := (Seating.At.inside hlt hseat (hat₁.mono hW₂)).mono hW₃
    refine .pure ⟨?_, hat₃⟩
    rw [Seating.place, Seating.getElem?_mono hW₃ hseat]
    rfl

theorem makeMethods {r : Relocation} (hr : Relocation.KeepsLines r) {frame : Nat}
    {spare : Option Nat} (hat : W.At frame spare) (ms : List FunctionDecl)
    (hms : ∀ d ∈ ms, (Node.routine d).Trimmed t r (spare.map (· + 1)))
    {table table' : Bindings Closure} (htable : MethodsTrimmed t W table table') :
    Trims S t W i (MethodsTrimmed t) (makeMethods frame ms table)
      (makeMethods (W.place frame) (ms.map (FunctionDecl.relocate r)) table') := by
  induction ms generalizing table table' W with
  | nil => exact .pure htable
  | cons d ms ih =>
    obtain ⟨hd, hms⟩ := List.forall_mem_cons.mp hms
    have hclosure (id : Nat) (isInitializer : Bool) : Closure.Trimmed t W 1
        ⟨id, d, frame, isInitializer⟩ ⟨id, d.relocate r, W.place frame, isInitializer⟩ :=
      ⟨rfl, rfl, rfl, r, spare, hr, rfl, hat, hd, fun _ => map_succ_ne_zero spare⟩
    rw [List.map_cons, Treewalk.makeMethods, Treewalk.makeMethods, FunctionDecl.name_relocate,
      Name.text_relocate]
    refine (trims_newClosure fun id => hclosure id _).bind fun W₁ f f' hW₁ hf => ?_
    rw [← Seating.place_mono hW₁ hat.lt_length]
    refine ih (hat.mono hW₁) hms fun name => ?_
    rw [Bindings.get?_insert, Bindings.get?_insert]
    split
    · exact .some hf
    · exact optionRel_imp (fun _ _ hf => hf.mono hW₁) (htable name)

section Classes

variable {r : Relocation} (hr : Relocation.KeepsLines r) {spare : Option Nat} (hat : W.At i spare)
  (hne : spare ≠ some 0) (name : Name) {superclass : Option Superclass} {c : Option Nat}
  (hc : c.isSome = superclass.isSome) {ms : List FunctionDecl}
  (hms : ∀ d ∈ ms,
    (Node.routine d).Trimmed t r (spare.map (· + superclass.elim 1 fun _ => 2)))

include hr hat hne hc hms

theorem declareClassHere : Trims S t W i (fun _ _ _ => True) (declareClassHere name c ms)
    (declareClassHere name c (ms.map (FunctionDecl.relocate r))) := by
  have hdefine {W' : Seating} (hW : W <+: W') {v : Value} (hv : Value.Trimmed t W' v v) :
      Trims S t W' i (fun _ _ _ => True) (define name.text v) (define name.text v) :=
    trims_define ((hat.mono hW).seats hne) name.text hv
  have hdepth : spare.map (· + superclass.elim 1 fun _ => 2) =
      (c.elim spare fun _ => spare.map (· + 1)).map (· + 1) := by
    cases superclass with
    | none =>
      cases c with
      | none => rfl
      | some c => cases hc
    | some s =>
      cases c with
      | none => cases hc
      | some c => exact (Option.map_map _ _ spare).symm
  rw [hdepth] at hms
  refine (hdefine (List.prefix_refl W) .nil).bind fun W₁ _ _ hW₁ _ => ?_
  refine (methodFrame (hat.mono hW₁) c).bind fun W₂ frame frame' hW₂ hframe => ?_
  obtain ⟨rfl, hatFrame⟩ := hframe
  have hnone : MethodsTrimmed t W₂ [] [] := fun _ => .none
  refine (makeMethods hr hatFrame ms hms hnone).bind fun W₃ table table' hW₃ htable => ?_
  refine (trims_newClass name.text c htable).bind fun W₄ c₁ c₂ hW₄ hc => ?_
  subst hc
  exact hdefine (((hW₁.trans hW₂).trans hW₃).trans hW₄) (.cls c₁)

theorem declareClass : Trims S t W i (fun _ _ _ => True) (declareClass name c ms)
    (declareClass name c (ms.map (FunctionDecl.relocate r))) := by
  intro m m' hm
  have hlt : m.current < m.frames.size := by
    rw [hm.current, hm.frames.size]
    exact hat.lt_length
  have hlt' : m'.current < m'.frames.size := by
    rw [hm.current']
    exact hm.frames.lt_size i hat.lt_length
  rw [declareClass_eq hlt, declareClass_eq hlt']
  exact declareClassHere hr hat hne name hc hms m m' hm

end Classes

include h

/-- One step of a statement. -/
theorem executeStep {bound bound' : Nat} (hallows : S.Allows bound bound') {r : Relocation}
    (hr : Relocation.KeepsLines r) {spare : Option Nat} {s : Stmt} (hs : s.Trimmed t r spare)
    (hat : W.At i spare) :
    Trims S t W i (Flow.Trimmed t) (executeStep parts bound s)
      (executeStep parts' bound' (s.relocate r)) := by
  obtain ⟨hnode, hdeclared⟩ := hs
  have hchild {inner : Node} (hinner : inner ∈ s.children) := hnode.same hinner
  have hnamed (hs : s.declared ≠ []) : spare ≠ some 0 := fun h => hs (hdeclared h)
  cases s with
  | expression e =>
    exact (h.evaluate hr (hchild List.mem_cons_self rfl) hat).bind fun _ _ _ _ _ => .pure .normal
  | «variable» name initializer =>
    have hne := hnamed (List.cons_ne_nil _ _)
    cases initializer with
    | none =>
      exact (trims_declare (hat.seats hne) name.text).bind fun _ _ _ _ _ => .pure .normal
    | some e =>
      refine (h.evaluate hr (hchild List.mem_cons_self rfl) hat).bind fun W₁ v v' hW₁ hv => ?_
      exact (trims_define ((hat.mono hW₁).seats hne) name.text hv).bind fun _ _ _ _ _ =>
        .pure .normal
  | block body =>
    rw [Stmt.relocate, Stmt.relocateAll_eq_map]
    refine trims_currentFrame.bind fun W₁ j j' hW₁ hj => ?_
    obtain ⟨rfl, rfl⟩ := hj
    have hat₁ := hat.mono hW₁
    refine (trims_newFrame hat₁.lt_length rfl).bind fun W₂ k k' hW₂ hk => ?_
    obtain ⟨hlt, hseat⟩ := hk
    have hinner := Seating.At.inside hlt hseat (hat₁.mono hW₂)
    have hbody : ∀ s ∈ body, s.Trimmed t r (spare.map (· + 1)) := fun s hs =>
      ⟨hnode.inward (List.mem_map_of_mem hs) rfl, fun h => absurd h (map_succ_ne_zero spare)⟩
    exact (h.executeAll hr body hbody hinner).within hinner.lt_length
      (Seating.Seats.place_eq ⟨_, hseat⟩)
  | ifThen condition thenBranch =>
    refine (h.evaluate hr (hchild List.mem_cons_self rfl) hat).bind fun W₁ v v' hW₁ hv => ?_
    rw [hv.alike.isTruthy]
    have hbranch := hchild (List.mem_cons_of_mem _ List.mem_cons_self) rfl
    exact .ite (h.execute hr ⟨hbranch, hdeclared⟩ (hat.mono hW₁)) (.pure .normal)
  | ifElse condition thenBranch elseBranch =>
    refine (h.evaluate hr (hchild List.mem_cons_self rfl) hat).bind fun W₁ v v' hW₁ hv => ?_
    rw [hv.alike.isTruthy]
    have hbranch := hchild (List.mem_cons_of_mem _ List.mem_cons_self) rfl
    have hother := hchild
      (List.mem_cons_of_mem _ (List.mem_cons_of_mem _ List.mem_cons_self)) rfl
    have hat₁ := hat.mono hW₁
    exact .ite
      (h.execute hr ⟨hbranch, fun h => (List.append_eq_nil_iff.mp (hdeclared h)).1⟩ hat₁)
      (h.execute hr ⟨hother, fun h => (List.append_eq_nil_iff.mp (hdeclared h)).2⟩ hat₁)
  | «while» condition body =>
    exact h.loop hr (hchild List.mem_cons_self rfl)
      ⟨hchild (List.mem_cons_of_mem _ List.mem_cons_self) rfl, hdeclared⟩ hat hallows
  | function decl =>
    have hne := hnamed (List.cons_ne_nil _ _)
    refine trims_currentFrame.bind fun W₁ j j' hW₁ hj => ?_
    obtain ⟨rfl, rfl⟩ := hj
    have hdecl : (Node.routine decl).Trimmed t r (spare.map (· + 0)) := by
      rw [show spare.map (· + 0) = spare from Option.map_id']
      exact hchild List.mem_cons_self rfl
    have hclosure (id : Nat) : Closure.Trimmed t W₁ 0 ⟨id, decl, j, false⟩
        ⟨id, decl.relocate r, Seating.place W₁ j, false⟩ :=
      ⟨rfl, rfl, rfl, r, spare, hr, rfl, hat.mono hW₁, hdecl, fun h => nomatch h⟩
    refine (trims_newClosure hclosure).bind fun W₂ f f' hW₂ hf => ?_
    rw [FunctionDecl.name_relocate, Name.text_relocate]
    exact (trims_define ((hat.mono (hW₁.trans hW₂)).seats hne) decl.name.text (.function hf)).bind
      fun _ _ _ _ _ => .pure .normal
  | «return» line value =>
    cases value with
    | none => exact .pure (.returned .nil)
    | some e =>
      exact (h.evaluate hr (hchild List.mem_cons_self rfl) hat).bind fun _ _ _ _ hv =>
        .pure (.returned hv)
  | «class» name superclass methods =>
    have hne := hnamed (List.cons_ne_nil _ _)
    have hms : ∀ d ∈ methods, (Node.routine d).Trimmed t r
        (spare.map (· + superclass.elim 1 fun _ => 2)) := fun d hd =>
      hnode.child (List.mem_append_right _ (List.mem_map_of_mem hd))
    rw [Stmt.relocate, Stmt.relocateMethods_eq_map, name.relocate_eq_self hr]
    cases superclass with
    | none => exact (declareClass hr hat hne name rfl hms).bind fun _ _ _ _ _ => .pure .normal
    | some s =>
      have hsuperclass := hchild List.mem_cons_self rfl
      refine (h.evaluate hr hsuperclass hat).bind fun W₁ v v' hW₁ hv => ?_
      rw [show (s.relocate r).name.line = s.name.line from hr s.name.line]
      refine (trims_asSuperclass hv s.name.line).bind fun W₂ c c' hW₂ hc => ?_
      subst hc
      exact (declareClass hr (hat.mono (hW₁.trans hW₂)) hne name rfl hms).bind
        fun _ _ _ _ _ => .pure .normal

/-! ### Calls of functions -/

omit h in
theorem bindParameters {k : Nat} (hseats : W.Seats k (W.place k)) (params : List Name)
    {arguments arguments' : List Value}
    (harguments : List.Forall₂ (Value.Trimmed t W) arguments arguments') :
    Trims S t W i (fun _ _ _ => True) (bindParameters k params arguments)
      (bindParameters (W.place k) params arguments') := by
  induction params generalizing arguments arguments' W with
  | nil => exact .pure trivial
  | cons p params ih =>
    cases harguments with
    | nil => exact .pure trivial
    | cons hv harguments =>
      refine (trims_writeSlot hseats p.text (.some hv)).bind fun W₁ _ _ hW₁ _ => ?_
      have hplace := Seating.place_mono hW₁ hseats.lt_length
      rw [← hplace]
      exact ih (hplace.symm ▸ hseats.mono hW₁) (harguments.imp fun _ _ hv => hv.mono hW₁)

/-- One step of a call. -/
theorem invokeStep {f f' : Closure} (hf : Closure.Trimmed t W 0 f f')
    {arguments arguments' : List Value}
    (harguments : List.Forall₂ (Value.Trimmed t W) arguments arguments') :
    Trims S t W i (Value.Trimmed t) (invokeStep parts f arguments)
      (invokeStep parts' f' arguments') := by
  obtain ⟨r, spare, hr, hdecl, hat, hnode, hinitializer⟩ := hf.decl
  rw [show spare.map (· + 0) = spare from Option.map_id'] at hnode hinitializer
  unfold Treewalk.invokeStep receiverOf
  rw [hf.name_eq, hf.frame, hf.isInitializer, hdecl, FunctionDecl.params_relocate,
    FunctionDecl.body_relocate, Name.relocateAll_eq_self hr]
  refine (trims_newFrame hat.lt_length rfl).bind fun W₁ k k' hW₁ hk => ?_
  obtain ⟨hlt, hseat⟩ := hk
  have hinner := Seating.At.inside hlt hseat (hat.mono hW₁)
  obtain rfl := Seating.Seats.place_eq ⟨_, hseat⟩
  refine (bindParameters ⟨_, hseat⟩ f.decl.params
    (harguments.imp fun _ _ hv => hv.mono hW₁)).bind fun W₂ _ _ hW₂ _ => ?_
  have hbody : ∀ s ∈ f.decl.body, s.Trimmed t r (spare.map (· + 1)) := fun s hs =>
    ⟨hnode.inward (List.mem_map_of_mem hs) rfl, fun h => absurd h (map_succ_ne_zero spare)⟩
  have hinner₂ := hinner.mono hW₂
  refine ((h.executeAll hr f.decl.body hbody hinner₂).within hinner₂.lt_length
    (Seating.place_mono hW₂ hinner.lt_length)).bind fun W₃ flow flow' hW₃ hflow => ?_
  split
  · next hinit =>
    have hat₃ := hat.mono ((hW₁.trans hW₂).trans hW₃)
    refine .get_bind fun m m' hm => ?_
    have hread := trims_checked_getAt (S := S) (i := i) hm.frames (List.prefix_refl W₃) hat₃
      (hinitializer hinit) "this" f.decl.name.line
    rwa [hopsWithout_zero, Seating.place_mono ((hW₁.trans hW₂).trans hW₃) hat.lt_length] at hread
  · exact .pure hflow.value

end EvaluatorsTrim

/-- Expressions, statements and calls without spare frames. -/
theorem evaluators_trim {S : Slack} (t : Trimming) {fuel fuel' : Nat} (h : S.Allows fuel fuel') :
    EvaluatorsTrim S t (evaluators .resolved fuel) (evaluators .resolved fuel') := by
  induction fuel generalizing fuel' with
  | zero =>
    rcases h.exhausted_or_pred with ⟨-, hwhole⟩ | ⟨rfl, htrimmed⟩ | ⟨n, n', heq, -⟩
    · exact ⟨fun _ _ _ => .outOfFuel hwhole, fun _ _ _ => .outOfFuel hwhole,
        fun _ _ => .outOfFuel hwhole⟩
    · exact ⟨fun _ _ _ => .outOfFuel_trimmed htrimmed, fun _ _ _ => .outOfFuel_trimmed htrimmed,
        fun _ _ => .outOfFuel_trimmed htrimmed⟩
    · cases heq
  | succ fuel ih =>
    rcases h.exhausted_or_pred with ⟨heq, -⟩ | ⟨rfl, htrimmed⟩ | ⟨n, n', heq, rfl, hallows⟩
    · cases heq
    · exact ⟨fun _ _ _ => .outOfFuel_trimmed htrimmed, fun _ _ _ => .outOfFuel_trimmed htrimmed,
        fun _ _ => .outOfFuel_trimmed htrimmed⟩
    · cases heq
      have hparts := ih hallows
      exact ⟨fun hr hnode hat => hparts.evaluateStep hr hnode hat,
        fun hr hs hat => hparts.executeStep hallows hr hs hat,
        fun hf harguments => hparts.invokeStep hf harguments⟩

end Treewalk
