import Treewalk.Proofs.Renaming.Operations

/-!
# Running renamed programs

On machines that correspond to each other, a program and the renamed program do the same. A node of the
program that runs in a frame is renamed as it stands to the renamed scope, which is where the layout has
a frame of the renamed scope.

## Main definitions

* `Flow.Renamed`: how statements of the two programs end.
* `EvaluatorsTwin`: evaluators of which the one does for the renamed program what the other does.

## Main results

* `evaluators_twin`: expressions, statements and calls of a renamed program.
* `interpret_twins`: a renamed program.
-/

namespace Treewalk

open Run

/-! ### Values of constants and operators -/

theorem Literal.value_renamed {r : Renaming} {W : Layout} (l : Literal) :
    Value.Renamed r W l.value l.value := by
  cases l with
  | nil => exact .nil
  | bool b => exact .bool b
  | number x => exact .number x
  | string s => exact .string s

/-- The faults of operators are not about variables. -/
theorem UnaryOp.variable?_eq_none {op : UnaryOp} {v : Value} {fault : RuntimeFault}
    (h : op.apply v = .error fault) : fault.variable? = none := by
  unfold apply at h
  split at h <;> cases h
  rfl

theorem BinaryOp.variable?_eq_none {text : Value → String} {op : BinaryOp} {v w : Value}
    {fault : RuntimeFault} (h : op.apply text v w = .error fault) : fault.variable? = none := by
  unfold apply at h
  split at h
  · cases h
  · cases h
  · unfold applyNumbers at h
    split at h
    all_goals first
      | cases h
      | (split at h <;> cases h; rfl)
  all_goals cases h <;> rfl

/-- The outcome of an operator. -/
theorem Run.twins_checked {r : Renaming} {W : Layout} {i : Nat} {o : Except RuntimeFault Value}
    (hok : ∀ v, o = .ok v → ∀ f, v ≠ .function f)
    (herror : ∀ fault, o = .error fault → fault.variable? = none) (line : Nat) :
    Twins r W i (Value.Renamed r) (checked line o) (checked line o) := by
  cases o with
  | ok v => exact .pure (.other (hok v rfl))
  | error fault => exact twins_raise (herror fault rfl) line

/-! ### Parts -/

theorem Expr.parts_rename (r : Renaming) (depth : Option Nat) (e : Expr) :
    (e.rename r depth).parts = e.parts.map (Expr.rename r depth) := by
  cases e <;> simp [Expr.rename, Expr.parts, Expr.renameAll_eq_map]

theorem Renaming.Pair.part {r : Renaming} {depth : Option Nat} {e part : Expr}
    (h : r.Pair (.expr e) (.expr (e.rename r depth))) (hpart : part ∈ e.parts) :
    r.Pair (.expr part) (.expr (part.rename r depth)) := by
  refine h.child (List.mem_map_of_mem hpart) (List.mem_map_of_mem ?_)
  rw [e.parts_rename]
  exact List.mem_map_of_mem hpart

/-- The methods of a class stand inside of the scope of `this`, which stands where their frame does. -/
theorem Region.depth_inClass (g : Region) {superclass : Option Superclass} {c : Option Nat}
    (hc : c.isSome = superclass.isSome) : (g.inClass superclass).depth =
      (c.elim g.depth fun _ => g.depth.map (· + 1)).map (· + 1) := by
  cases superclass with
  | none =>
    cases c with
    | none => exact g.depth_deepen
    | some c => cases hc
  | some s =>
    cases c with
    | none => cases hc
    | some c => rw [Region.inClass, Option.elim_some, depth_deepen, depth_deepen, Option.elim_some]

/-! ### Evaluators -/

/-- How statements of the two programs end. -/
inductive Flow.Renamed (r : Renaming) (W : Layout) : Flow → Flow → Prop
  | normal : Flow.Renamed r W .normal .normal
  | returned {v v' : Value} (h : Value.Renamed r W v v') :
    Flow.Renamed r W (.returned v) (.returned v')

theorem Flow.Renamed.value {r : Renaming} {W : Layout} {flow flow' : Flow}
    (h : Flow.Renamed r W flow flow') : Value.Renamed r W flow.value flow'.value := by
  cases h with
  | normal => exact .nil
  | returned hv => exact hv

/-- Evaluators of which the second does for the renamed program what the first does. -/
structure EvaluatorsTwin (r : Renaming) (parts parts' : Evaluators) : Prop where
  evaluate : ∀ {W i depth e}, r.Pair (.expr e) (.expr (e.rename r depth)) → W.At i depth →
    Twins r W i (Value.Renamed r) (parts.evaluate e) (parts'.evaluate (e.rename r depth))
  execute : ∀ {W i g s s'}, r.Pair (.stmt s) (.stmt s') → s.Renamed r g s' → W.At i g.depth →
    Twins r W i (Flow.Renamed r) (parts.execute s) (parts'.execute s')
  invoke : ∀ {W i f f' arguments arguments'}, Closure.Renamed r W 0 f f' →
    List.Forall₂ (Value.Renamed r W) arguments arguments' →
    Twins r W i (Value.Renamed r) (parts.invoke f arguments) (parts'.invoke f' arguments')

namespace EvaluatorsTwin

variable {r : Renaming} {parts parts' : Evaluators} (hr : r.IsLocal)
  (h : EvaluatorsTwin r parts parts') {W : Layout} {i : Nat}

include hr h

/-! ### Calls -/

theorem callUnchecked {callee callee' : Value} (hcallee : Value.Renamed r W callee callee')
    {arguments arguments' : List Value}
    (harguments : List.Forall₂ (Value.Renamed r W) arguments arguments') (line : Nat) :
    Twins r W i (Value.Renamed r) (callUnchecked parts.invoke callee arguments line)
      (callUnchecked parts'.invoke callee' arguments' line) := by
  cases hcallee with
  | function hf => exact h.invoke hf harguments
  | other hother =>
    cases callee with
    | native n => exact twins_native n harguments line
    | function f => exact absurd rfl (hother f)
    | cls c =>
      refine (twins_newObject c).bind fun W₁ o o' hW₁ ho => ?_
      subst ho
      refine .get_bind fun m m' hm => ?_
      have hfound := hm.tables.findMethod? c initializerName
      generalize m.findMethod? c initializerName = f, m'.findMethod? c initializerName = f' at hfound
      cases hfound with
      | none => exact .pure (.object o)
      | some hf =>
        refine (twins_bindReceiver hr hf (.object o)).bind fun W₂ g g' hW₂ hg => ?_
        have harguments₂ := harguments.imp fun _ _ hv => hv.mono (hW₁.trans hW₂)
        exact (h.invoke hg harguments₂).bind fun _ _ _ _ _ => .pure (.object o)
    | _ => exact twins_raise rfl line

theorem callWith {callee callee' : Value} (hcallee : Value.Renamed r W callee callee')
    {arguments arguments' : List Value}
    (harguments : List.Forall₂ (Value.Renamed r W) arguments arguments') (line : Nat) :
    Twins r W i (Value.Renamed r) (callWith parts.invoke callee arguments line)
      (callWith parts'.invoke callee' arguments' line) := by
  refine .get_bind fun m m' hm => ?_
  rw [hm.tables.arity? (fun _ _ hf => hf.arity_eq) hcallee.alike, ← harguments.length_eq]
  cases m.arity? callee with
  | none => exact twins_raise rfl line
  | some arity => exact .ite (h.callUnchecked hr hcallee harguments line) (twins_raise rfl line)

/-! ### Expressions -/

omit hr in
theorem evaluateAll {depth : Option Nat} (es : List Expr)
    (hpair : ∀ e ∈ es, r.Pair (.expr e) (.expr (e.rename r depth))) (hat : W.At i depth) :
    Twins r W i (fun W' => List.Forall₂ (Value.Renamed r W')) (evaluateAll parts.evaluate es)
      (evaluateAll parts'.evaluate (es.map (Expr.rename r depth))) := by
  induction es generalizing W with
  | nil => exact .pure .nil
  | cons e es ih =>
    obtain ⟨he, hes⟩ := List.forall_mem_cons.mp hpair
    refine (h.evaluate he hat).bind fun W₁ v v' hW₁ hv => ?_
    exact (ih hes (hat.mono hW₁)).bind fun W₂ vs vs' hW₂ hvs => .pure (.cons (hv.mono hW₂) hvs)

/-- One step of an expression. -/
theorem evaluateStep {depth : Option Nat} {e : Expr}
    (hpair : r.Pair (.expr e) (.expr (e.rename r depth))) (hat : W.At i depth) :
    Twins r W i (Value.Renamed r) (evaluateStep .resolved parts e)
      (evaluateStep .resolved parts' (e.rename r depth)) := by
  have hpart {part : Expr} (hpart : part ∈ e.parts) := hpair.part hpart
  cases e with
  | literal l => exact .pure l.value_renamed
  | grouping inner => exact h.evaluate (hpart List.mem_cons_self) hat
  | unary op line operand =>
    refine (h.evaluate (hpart List.mem_cons_self) hat).bind fun W₁ v v' hW₁ hv => ?_
    rw [UnaryOp.apply_alike hv.alike]
    exact twins_checked (fun _ hw => (UnaryOp.isPlain_apply hw).ne_function)
      (fun _ => UnaryOp.variable?_eq_none) line
  | binary op line left right =>
    refine (h.evaluate (hpart List.mem_cons_self) hat).bind fun W₁ v v' hW₁ hv => ?_
    refine (h.evaluate (hpart (by simp [Expr.parts])) (hat.mono hW₁)).bind
      fun W₂ w w' hW₂ hw => ?_
    refine .get_bind fun m m' hm => ?_
    have hv₂ := hv.mono hW₂
    rw [BinaryOp.apply_alike hv₂.alike hw.alike (hm.tables.text hv₂.alike) (hm.tables.text hw.alike)]
    exact twins_checked (fun _ hw => (BinaryOp.isPlain_apply hw).ne_function) (fun _ => BinaryOp.variable?_eq_none)
      line
  | logical op line left right =>
    refine (h.evaluate (hpart List.mem_cons_self) hat).bind fun W₁ v v' hW₁ hv => ?_
    rw [LogicalOp.decides_alike hv.alike]
    exact .ite (.pure hv) (h.evaluate (hpart (by simp [Expr.parts])) (hat.mono hW₁))
  | ternary condition whenTrue whenFalse =>
    refine (h.evaluate (hpart List.mem_cons_self) hat).bind fun W₁ v v' hW₁ hv => ?_
    rw [hv.alike.isTruthy]
    exact .ite (h.evaluate (hpart (by simp [Expr.parts])) (hat.mono hW₁))
      (h.evaluate (hpart (by simp [Expr.parts])) (hat.mono hW₁))
  | «variable» id name => exact twins_readVariable hat (.of_pair hr hpair rfl rfl)
  | assign id name value =>
    refine (h.evaluate (hpart List.mem_cons_self) hat).bind fun W₁ v v' hW₁ hv => ?_
    refine (twins_assignVariable (hat.mono hW₁) (.of_pair hr hpair rfl rfl) hv).bind
      fun W₂ _ _ hW₂ _ => .pure (hv.mono hW₂)
  | call callee line arguments =>
    rw [Expr.rename, Expr.renameAll_eq_map]
    have harguments : ∀ e ∈ arguments, r.Pair (.expr e) (.expr (e.rename r depth)) :=
      fun e he => hpart (List.mem_cons_of_mem _ he)
    refine (h.evaluate (hpart List.mem_cons_self) hat).bind fun W₁ f f' hW₁ hf => ?_
    refine (h.evaluateAll arguments harguments (hat.mono hW₁)).bind fun W₂ vs vs' hW₂ hvs => ?_
    exact h.callWith hr (hf.mono hW₂) hvs line
  | get object name =>
    refine (h.evaluate (hpart List.mem_cons_self) hat).bind fun W₁ v v' hW₁ hv => ?_
    refine (twins_asObject hv "properties" name.line).bind fun W₂ o o' hW₂ ho => ?_
    subst ho
    exact twins_property hr o name
  | set object name value =>
    refine (h.evaluate (hpart (by simp [Expr.parts])) hat).bind fun W₁ v v' hW₁ hv => ?_
    refine (twins_asObject hv "fields" name.line).bind fun W₂ o o' hW₂ ho => ?_
    subst ho
    have hat₂ := hat.mono (hW₁.trans hW₂)
    refine (h.evaluate (hpart List.mem_cons_self) hat₂).bind fun W₃ w w' hW₃ hw => ?_
    exact (twins_setField o name.text hw).bind fun W₄ _ _ hW₄ _ => .pure (hw.mono hW₄)
  | this id line => exact twins_readVariable hat (.keyword hr depth id .thisWord line)
  | super id line method => exact twins_superMethod hr id line method

/-! ### Statements -/

omit hr

theorem executeAll {g : Region} {ss ss' : List Stmt}
    (hpair : ∀ s ∈ ss, ∀ s' ∈ ss', r.Pair (.stmt s) (.stmt s')) (hss : Stmt.RenamedAll r g ss ss')
    (hat : W.At i g.depth) :
    Twins r W i (Flow.Renamed r) (executeAll parts.execute ss) (executeAll parts'.execute ss') := by
  induction ss generalizing g ss' W with
  | nil =>
    cases hss
    exact .pure .normal
  | cons s ss ih =>
    cases hss with
    | cons hsplits hs hss =>
      have hhead := hpair s List.mem_cons_self _ List.mem_cons_self
      have hatLeft := hsplits.depth_left ▸ hat
      refine (h.execute hhead hs hatLeft).bind fun W₁ flow flow' hW₁ hflow => ?_
      cases hflow with
      | normal =>
        refine ih (fun s hs s' hs' => hpair s (List.mem_cons_of_mem _ hs) s'
          (List.mem_cons_of_mem _ hs')) hss ?_
        exact hsplits.depth_right ▸ hat.mono hW₁
      | returned hv => exact .pure (.returned hv)

theorem loop {g : Region} {condition : Expr} {body body' : Stmt}
    (hcondition : r.Pair (.expr condition) (.expr (condition.rename r g.depth)))
    (hpair : r.Pair (.stmt body) (.stmt body')) (hbody : body.Renamed r g body')
    (hat : W.At i g.depth) (bound : Nat) :
    Twins r W i (Flow.Renamed r) (loop (parts.evaluate condition) (parts.execute body) bound)
      (loop (parts'.evaluate (condition.rename r g.depth)) (parts'.execute body') bound) := by
  induction bound generalizing W with
  | zero => exact fun m m' hm => .error .outOfFuel hm
  | succ bound ih =>
    refine (h.evaluate hcondition hat).bind fun W₁ v v' hW₁ hv => ?_
    rw [hv.alike.isTruthy]
    have hat₁ := hat.mono hW₁
    refine .ite ((h.execute hpair hbody hat₁).bind fun W₂ flow flow' hW₂ hflow => ?_) (.pure .normal)
    cases hflow with
    | normal => exact ih (hat₁.mono hW₂)
    | returned hv => exact .pure (.returned hv)

omit h in
theorem twins_asSuperclass {v v' : Value} (hv : Value.Renamed r W v v') (line : Nat) :
    Twins r W i (fun _ => Eq) (asSuperclass v line) (asSuperclass v' line) := by
  cases hv with
  | function hf => exact twins_raise rfl line
  | other hother =>
    cases v with
    | cls c => exact .pure rfl
    | _ => exact twins_raise rfl line

omit h in
/-- The frame of methods stands inside of the scope of `super`, if there is a superclass. -/
theorem methodFrame (hr : r.IsLocal) {depth : Option Nat} (hat : W.At i depth)
    (superclass : Option Nat) : Twins r W i
      (fun W' frame frame' => frame' = frame ∧
        W'.At frame (superclass.elim depth fun _ => depth.map (· + 1)))
      (methodFrame superclass) (methodFrame superclass) := by
  refine twins_currentFrame.bind fun W₁ j j' hW₁ hj => ?_
  obtain ⟨rfl, rfl⟩ := hj
  cases superclass with
  | none => exact .pure ⟨rfl, hat.mono hW₁⟩
  | some c =>
    refine (twins_newFrame _ false).bind fun W₂ k k' hW₂ hk => ?_
    obtain ⟨rfl, hshape⟩ := hk
    have hsuper : "super" = Layout.word r W₂ k' "super" :=
      (Layout.word_keyword hr k' .superWord).symm
    refine (twins_writeSlot hsuper (.some (.cls c))).bind fun W₃ _ _ hW₃ _ => ?_
    exact .pure ⟨rfl, (Layout.At.inside hshape (hat.mono (hW₁.trans hW₂))).mono hW₃⟩

omit h in
theorem makeMethods {g : Region} {frame : Nat} {depth : Option Nat}
    (hdepth : g.depth = depth.map (· + 1)) {ms ms' : List FunctionDecl}
    (hpair : ∀ m ∈ ms, ∀ m' ∈ ms', r.Pair (.routine m) (.routine m'))
    (hms : Stmt.RenamedMethods r g ms ms') (hat : W.At frame depth) {table table' : Bindings Closure}
    (htable : MethodsRenamed r W table table') : Twins r W i (MethodsRenamed r)
      (makeMethods frame ms table) (makeMethods frame ms' table') := by
  induction ms generalizing g ms' table table' W with
  | nil =>
    cases hms
    exact .pure htable
  | cons d ms ih =>
    cases hms with
    | @cons _ g₁ g₂ _ d' _ ms' hsplits hd hms =>
      have hhead := hpair d List.mem_cons_self _ List.mem_cons_self
      have hleft := hsplits.depth_left.trans hdepth
      have hright := hsplits.depth_right.trans hdepth
      have hclosure (id : Nat) (isInitializer : Bool) : Closure.Renamed r W 1
          ⟨id, d, frame, isInitializer⟩ ⟨id, d', frame, isInitializer⟩ :=
        ⟨rfl, rfl, rfl, ⟨g₁, depth, hat, hleft, hd⟩, hhead⟩
      rw [Treewalk.makeMethods, Treewalk.makeMethods, hd.name_eq]
      refine (twins_newClosure fun id => hclosure id _).bind fun W₁ f f' hW₁ hf => ?_
      refine ih hright (fun m hm m' hm' => hpair m (List.mem_cons_of_mem _ hm) m'
        (List.mem_cons_of_mem _ hm')) hms (hat.mono hW₁) fun name => ?_
      rw [Bindings.get?_insert, Bindings.get?_insert]
      split
      · exact .some hf
      · exact optionRel_imp (fun _ _ hf => hf.mono hW₁) (htable name)

section Classes

variable {g : Region} (hat : W.At i g.depth) {name : Name}
  (hname : name.text = r.word g.depth name.text) {superclass : Option Superclass} {c : Option Nat}
  (hc : c.isSome = superclass.isSome) {ms ms' : List FunctionDecl}
  (hpair : ∀ m ∈ ms, ∀ m' ∈ ms', r.Pair (.routine m) (.routine m'))
  (hms : Stmt.RenamedMethods r (g.inClass superclass) ms ms')

omit h

include hat hname hc hpair hms

theorem declareClassHere (hr : r.IsLocal) : Twins r W i (fun _ _ _ => True)
    (declareClassHere name c ms) (declareClassHere name c ms') := by
  have hword {W' : Layout} (hW : W <+: W') : name.text = W'.word r i name.text :=
    hname.trans ((hat.mono hW).word_eq name.text)
  refine (twins_define (hword (List.prefix_refl W)) .nil).bind
    fun W₁ _ _ hW₁ _ => ?_
  refine (methodFrame hr (hat.mono hW₁) c).bind fun W₂ frame frame' hW₂ hframe => ?_
  obtain ⟨rfl, hatFrame⟩ := hframe
  have hnone : MethodsRenamed r W₂ [] [] := fun _ => .none
  refine (makeMethods (g.depth_inClass hc) hpair hms hatFrame hnone).bind
    fun W₃ table table' hW₃ htable => ?_
  refine (twins_newClass name.text c htable).bind fun W₄ c₁ c₂ hW₄ hc => ?_
  subst hc
  have hW := ((hW₁.trans hW₂).trans hW₃).trans hW₄
  exact twins_define (hword hW) (.cls c₁)

theorem declareClass (hr : r.IsLocal) : Twins r W i (fun _ _ _ => True) (declareClass name c ms)
    (declareClass name c ms') := by
  intro m m' hm
  have hlt : m.current < m.frames.size := by
    rw [hm.current, hm.frames.size]
    exact hat.lt_length
  have hlt' : m'.current < m'.frames.size := by
    rw [hm.current', hm.frames.size']
    exact hat.lt_length
  rw [declareClass_eq hlt, declareClass_eq hlt']
  exact declareClassHere hat hname hc hpair hms hr m m' hm

end Classes

/-- One step of a statement. -/
theorem executeStep (hr : r.IsLocal) (bound : Nat) {g : Region} {s s' : Stmt}
    (hpair : r.Pair (.stmt s) (.stmt s')) (hs : s.Renamed r g s') (hat : W.At i g.depth) :
    Twins r W i (Flow.Renamed r) (executeStep parts bound s) (executeStep parts' bound s') := by
  have hchild {node node' : Node} (hnode : node ∈ s.children) (hnode' : node' ∈ s'.children) :
    r.Pair node node' := hpair.child hnode hnode'
  have hnew : r.new ∉ s.declared.map Name.text := by
    obtain ⟨⟨above, hoccurs⟩, -⟩ := hpair
    exact hr.fresh hoccurs
  cases hs with
  | expression e _ =>
    exact (h.evaluate (hchild List.mem_cons_self List.mem_cons_self) hat).bind fun _ _ _ _ _ =>
      .pure .normal
  | «variable» name initializer _ =>
    have hname : name.text ≠ r.new := Name.text_ne_of_not_mem hnew
    have hword {W' : Layout} (hW : W <+: W') :
        (r.declaration g.depth name).text = W'.word r i name.text :=
      (Renaming.text_declaration hname g.depth).trans ((hat.mono hW).word_eq name.text)
    cases initializer with
    | none => exact (twins_declare (hword (List.prefix_refl W))).bind fun _ _ _ _ _ => .pure .normal
    | some e =>
      refine (h.evaluate (hchild List.mem_cons_self List.mem_cons_self) hat).bind
        fun W₁ v v' hW₁ hv => ?_
      exact (twins_define (hword hW₁) hv).bind fun _ _ _ _ _ => .pure .normal
  | @block g inner body body' hopens hbody =>
    refine twins_currentFrame.bind fun W₁ j j' hW₁ hj => ?_
    obtain ⟨rfl, rfl⟩ := hj
    refine (twins_newFrame _ (inner.depth == some 0)).bind fun W₂ k k' hW₂ hk => ?_
    obtain ⟨rfl, hshape⟩ := hk
    have hinner := Layout.At.opened hopens hshape (hat.mono (hW₁.trans hW₂))
    exact (h.executeAll (fun s hs s' hs' => hchild (List.mem_map_of_mem hs)
      (List.mem_map_of_mem hs')) hbody hinner).within
  | ifThen condition hthen =>
    refine (h.evaluate (hchild List.mem_cons_self List.mem_cons_self) hat).bind
      fun W₁ v v' hW₁ hv => ?_
    rw [hv.alike.isTruthy]
    have hbranch := hchild (List.mem_cons_of_mem _ List.mem_cons_self)
      (List.mem_cons_of_mem _ List.mem_cons_self)
    exact .ite (h.execute hbranch hthen (hat.mono hW₁)) (.pure .normal)
  | ifElse condition hsplits hthen helse =>
    refine (h.evaluate (hchild List.mem_cons_self List.mem_cons_self) hat).bind
      fun W₁ v v' hW₁ hv => ?_
    rw [hv.alike.isTruthy]
    have hbranch := hchild (List.mem_cons_of_mem _ List.mem_cons_self)
      (List.mem_cons_of_mem _ List.mem_cons_self)
    have hother := hchild (List.mem_cons_of_mem _ (List.mem_cons_of_mem _ List.mem_cons_self))
      (List.mem_cons_of_mem _ (List.mem_cons_of_mem _ List.mem_cons_self))
    have hat₁ := hat.mono hW₁
    exact .ite (h.execute hbranch hthen (hsplits.depth_left ▸ hat₁))
      (h.execute hother helse (hsplits.depth_right ▸ hat₁))
  | «while» condition hbody =>
    exact h.loop (hchild List.mem_cons_self List.mem_cons_self)
      (hchild (List.mem_cons_of_mem _ List.mem_cons_self)
        (List.mem_cons_of_mem _ List.mem_cons_self)) hbody hat bound
  | @function g decl decl' hkept hdecl =>
    have hname : decl.name.text ≠ r.new := Name.text_ne_of_not_mem hnew
    refine twins_currentFrame.bind fun W₁ j j' hW₁ hj => ?_
    obtain ⟨rfl, rfl⟩ := hj
    have hclosure (id : Nat) : Closure.Renamed r W₁ 0 ⟨id, decl, j', false⟩ ⟨id, decl', j', false⟩ :=
      ⟨rfl, rfl, rfl, ⟨g, g.depth, hat.mono hW₁, by cases g <;> rfl, hdecl⟩,
        hchild List.mem_cons_self List.mem_cons_self⟩
    refine (twins_newClosure hclosure).bind fun W₂ f f' hW₂ hf => ?_
    have hword := (Renaming.word_eq_self hkept hname).symm.trans
      ((hat.mono (hW₁.trans hW₂)).word_eq decl.name.text)
    rw [hdecl.name_eq]
    exact (twins_define hword (.function hf)).bind fun _ _ _ _ _ => .pure .normal
  | «return» line value _ =>
    cases value with
    | none => exact .pure (.returned .nil)
    | some e =>
      exact (h.evaluate (hchild List.mem_cons_self List.mem_cons_self) hat).bind fun _ _ _ _ hv =>
        .pure (.returned hv)
  | @«class» g name superclass ms ms' hkept hms =>
    have hname : name.text ≠ r.new := Name.text_ne_of_not_mem hnew
    have hword := (Renaming.word_eq_self hkept hname).symm
    have hmethods : ∀ m ∈ ms, ∀ m' ∈ ms', r.Pair (.routine m) (.routine m') := fun m hm m' hm' =>
      hchild (List.mem_append_right _ (List.mem_map_of_mem hm))
        (List.mem_append_right _ (List.mem_map_of_mem hm'))
    cases superclass with
    | none =>
      exact (declareClass hat hword rfl hmethods hms hr).bind fun _ _ _ _ _ => .pure .normal
    | some s =>
      have hsuperclass := hchild List.mem_cons_self List.mem_cons_self
      refine (h.evaluate hsuperclass hat).bind fun W₁ v v' hW₁ hv => ?_
      have hline : (s.rename r g.depth).name.line = s.name.line := r.line_occurrence g.depth s.id s.name
      rw [hline]
      refine (twins_asSuperclass hv s.name.line).bind fun W₂ c c' hW₂ hc => ?_
      subst hc
      exact (declareClass (hat.mono (hW₁.trans hW₂)) hword rfl hmethods hms hr).bind
        fun _ _ _ _ _ => .pure .normal

/-! ### Calls of functions -/

omit h in
theorem bindParameters {depth : Option Nat} {k : Nat} (hat : W.At k depth) (params : List Name)
    (hnew : r.new ∉ params.map Name.text) {arguments arguments' : List Value}
    (harguments : List.Forall₂ (Value.Renamed r W) arguments arguments') :
    Twins r W i (fun _ _ _ => True) (bindParameters k params arguments)
      (bindParameters k (params.map (r.declaration depth)) arguments') := by
  induction params generalizing arguments arguments' W with
  | nil => exact .pure trivial
  | cons p params ih =>
    rw [List.map_cons, List.mem_cons, not_or] at hnew
    cases harguments with
    | nil => exact .pure trivial
    | cons hv harguments =>
      have hname := (Renaming.text_declaration (Ne.symm hnew.1) depth).trans (hat.word_eq p.text)
      refine (twins_writeSlot hname (.some hv)).bind fun W₁ _ _ hW₁ _ => ?_
      exact ih (hat.mono hW₁) hnew.2 (harguments.imp fun _ _ hv => hv.mono hW₁)

/-- One step of a call. -/
theorem invokeStep (hr : r.IsLocal) {f f' : Closure} (hf : Closure.Renamed r W 0 f f')
    {arguments arguments' : List Value}
    (harguments : List.Forall₂ (Value.Renamed r W) arguments arguments') :
    Twins r W i (Value.Renamed r) (invokeStep parts f arguments)
      (invokeStep parts' f' arguments') := by
  obtain ⟨g, hat, hdecl⟩ := hf.exists_region
  have hpair := hf.pair
  have hname := hf.name_eq
  unfold Treewalk.invokeStep receiverOf
  rw [hf.frame, hf.isInitializer, hname]
  generalize f.decl = decl, f'.decl = decl' at hdecl hpair hname ⊢
  cases hdecl with
  | @intro g inner name params body body' hopens hbody =>
    have hnew : r.new ∉ params.map Name.text := by
      obtain ⟨⟨above, hoccurs⟩, -⟩ := hpair
      exact hr.fresh hoccurs
    refine (twins_newFrame f.frame (inner.depth == some 0)).bind fun W₁ k k' hW₁ hk => ?_
    obtain ⟨rfl, hshape⟩ := hk
    have hinner := Layout.At.opened hopens hshape (hat.mono hW₁)
    refine (bindParameters hinner params hnew (harguments.imp fun _ _ hv => hv.mono hW₁)).bind
      fun W₂ _ _ hW₂ _ => ?_
    have hbodies : ∀ s ∈ body, ∀ s' ∈ body', r.Pair (.stmt s) (.stmt s') := fun s hs s' hs' =>
      hpair.child (List.mem_map_of_mem hs) (List.mem_map_of_mem hs')
    refine (h.executeAll hbodies hbody (hinner.mono hW₂)).within.bind
      fun W₃ flow flow' hW₃ hflow => .ite ?_ (.pure hflow.value)
    exact .get_bind fun m m' hm =>
      twins_checked_getAt hr hm.frames (List.prefix_refl W₃) f.frame 0 .thisWord name.line

end EvaluatorsTwin

/-! ### Whole programs -/

section

variable {r : Renaming}

/-- Expressions, statements and calls of a renamed program. -/
theorem evaluators_twin (hr : r.IsLocal) (fuel : Nat) :
    EvaluatorsTwin r (evaluators .resolved fuel) (evaluators .resolved fuel) := by
  induction fuel with
  | zero =>
    exact ⟨fun _ _ _ _ hm => .error .outOfFuel hm, fun _ _ _ _ _ hm => .error .outOfFuel hm,
      fun _ _ _ _ hm => .error .outOfFuel hm⟩
  | succ fuel ih =>
    exact ⟨ih.evaluateStep hr, ih.executeStep hr fuel,
      fun hf harguments => ih.invokeStep hr hf harguments⟩

/-- A renamed program does the same in the outermost frame. -/
theorem interpret_twins (hr : r.IsLocal) (fuel : Nat) {W : Layout} {i : Nat} (hat : W.At i none) :
    Twins r W i (fun _ _ _ => True) (interpret .resolved fuel r.before)
      (interpret .resolved fuel r.after) := by
  have hpair : ∀ s ∈ r.before, ∀ s' ∈ r.after, r.Pair (.stmt s) (.stmt s') :=
    fun s hs s' hs' => ⟨⟨[], .statement hs⟩, [], .statement hs'⟩
  exact ((evaluators_twin hr fuel).executeAll hpair hr.renamed hat).bind fun _ _ _ _ _ =>
    .pure trivial

end

end Treewalk
