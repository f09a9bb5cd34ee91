import Treewalk.Proofs.Syntax.Drafts.Expression

/-!
# Programs as drafts

The drafters of declarations and statements mirror the readers of declarations and statements. A
statement that is given up leaves no draft, but what has been listed in it stays listed.

## Main results

* `mirrors_loopInitializer`, `mirrors_superclass?`, …: parts of statements.
* `StatementsMirror.all`: declarations and statements.
-/

namespace Treewalk

variable {tokens : List Token} {listings : List Listing}

/-! ### Parts of statements -/

theorem Draws.loopStmt {i : Option StmtDraft} {is : Option Stmt} {c n : Option ExprDraft}
    {ce ne : Option Expr} {b : StmtDraft} {bs : Stmt} (hi : Draws tokens i is listings)
    (hc : Draws tokens c ce listings) (hn : Draws tokens n ne listings)
    (hb : Draws tokens b bs listings) :
    Draws tokens (Drafter.loop i c n b) (Treewalk.loopStmt is ce ne bs) listings := by
  have hcondition : Draws tokens (c.getD (.literal (.bool true)))
      (ce.getD (.literal (.bool true))) listings := by
    obtain ⟨rfl, rfl⟩ | ⟨_, _, rfl, rfl, h⟩ := hc.option_cases
    · exact .literal (.bool true)
    · exact h
  unfold Drafter.loop Treewalk.loopStmt
  obtain ⟨rfl, rfl⟩ | ⟨_, _, rfl, rfl, hincrement⟩ := hn.option_cases <;>
    obtain ⟨rfl, rfl⟩ | ⟨_, _, rfl, rfl, hinitializer⟩ := hi.option_cases
  · exact .loop hcondition hb
  · exact .block (.cons hinitializer (.cons (.loop hcondition hb) .nil))
  · exact .loop hcondition (.block (.cons hb (.cons (.expression hincrement) .nil)))
  · exact .block (.cons hinitializer
      (.cons (.loop hcondition (.block (.cons hb (.cons (.expression hincrement) .nil)))) .nil))

theorem mirrors_expressionUnless (kind : TokenKind) :
    Mirrors tokens listings (Draws tokens) (Drafter.expressionUnless kind)
      (Reader.expressionUnless kind) := by
  refine .check fun b => ?_
  cases b with
  | true => exact .pure fun _ _ => .none
  | false => exact (mirrors_expression tokens listings).bind fun _ _ _ _ h => .pure fun _ => h.some.mono

theorem mirrors_initializer? :
    Mirrors tokens listings (Draws tokens) Drafter.initializer? Reader.initializer? :=
  .accept ((mirrors_expression tokens listings).bind fun _ _ _ _ h => .pure fun _ => h.some.mono)
    (.pure fun _ _ => .none)

theorem mirrors_variableDecl :
    Mirrors tokens listings (Draws tokens) Drafter.variableDecl Reader.variableDecl :=
  .expect rfl fun _ hname hmem => mirrors_initializer?.bind fun _ _ _ _ h =>
    .expect rfl fun _ _ _ => .pure fun _ => (Draws.declaration ⟨hname, hmem⟩ h).mono

theorem mirrors_expressionStmt :
    Mirrors tokens listings (Draws tokens) Drafter.expressionStmt Reader.expressionStmt :=
  (mirrors_expression tokens listings).bind fun _ _ _ _ h =>
    .expect rfl fun _ _ _ => .pure fun _ => h.expression.mono

theorem mirrors_returnStmt (keyword : Token) :
    Mirrors tokens listings (Draws tokens) (Drafter.returnStmt keyword)
      (Reader.returnStmt keyword.line) :=
  (mirrors_expressionUnless _).bind fun _ _ _ _ h =>
    .expect rfl fun _ _ _ => .pure fun _ => (Draws.returning keyword h).mono

theorem mirrors_loopInitializer :
    Mirrors tokens listings (Draws tokens) Drafter.loopInitializer Reader.loopInitializer :=
  .accept (.pure fun _ _ => .none) <|
    .accept (mirrors_variableDecl.bind fun _ _ _ _ h => .pure fun _ => h.some.mono)
      (mirrors_expressionStmt.bind fun _ _ _ _ h => .pure fun _ => h.some.mono)

theorem mirrors_superclass? :
    Mirrors tokens listings (fun o so => Draws tokens o (so.map Superclass.expr))
      Drafter.superclass? Reader.superclass? :=
  .accept (.expect rfl fun _ hname hmem => .freshId fun id =>
      .pure fun _ _ => (Draws.ofVariable id ⟨hname, hmem⟩).some)
    (.pure fun _ _ => .none)

/-- A parameter is a name. -/
def IsParameter (tokens : List Token) (t : Token) (n : Name) (_ : List Listing) : Prop :=
  t.toName = n ∧ t.is .identifier ∧ t ∈ tokens

theorem mirrors_parameter : Mirrors tokens listings (IsParameter tokens)
    (liftM (Reader.expect .identifier .parameterName)) Reader.parameter := by
  have h : Mirrors tokens listings (IsParameter tokens)
      (liftM (Reader.expect .identifier .parameterName) >>= fun t => pure t) Reader.parameter :=
    .expect rfl fun _ hname hmem => .pure fun _ _ => ⟨rfl, hname, hmem⟩
  rwa [bind_pure] at h

theorem IsParameter.names {ms : List (Nat × Token)} {ns : List Name}
    (h : List.Forall₂ (fun m n => IsParameter tokens m.2 n listings) ms ns) :
    ns = (ms.map Prod.snd).map Token.toName ∧
      ∀ t ∈ ms.map Prod.snd, t.is .identifier ∧ t ∈ tokens := by
  induction h with
  | nil => simp
  | cons hm _ ih => exact ⟨by simp [hm.1, ih.1], List.forall_mem_cons.mpr ⟨hm.2, ih.2⟩⟩

/-! ### Declarations and statements -/

/-- The drafters that call each other mirror the readers with the same bound. -/
structure StatementsMirror (tokens : List Token) (bound : Nat) : Prop where
  item : ∀ ls, Mirrors tokens ls (Draws tokens) (Drafter.item bound) (Reader.item bound)
  statement : ∀ ls,
    Mirrors tokens ls (Draws tokens) (Drafter.statement bound) (Reader.statement bound)
  items : ∀ inBlock ls,
    Mirrors tokens ls (Draws tokens) (Drafter.items bound inBlock) (Reader.items bound inBlock)
  routine : ∀ kind ls,
    Mirrors tokens ls (Draws tokens) (Drafter.routine bound kind) (Reader.routine bound kind)
  methods : ∀ ls, Mirrors tokens ls (Draws tokens) (Drafter.methods bound) (Reader.methods bound)

theorem StatementsMirror.zero : StatementsMirror tokens 0 where
  item _ := .pure fun _ _ => .none
  statement _ := .fail rfl
  items _ _ := .pure fun _ _ => .nil
  routine _ _ := .fail rfl
  methods _ := .pure fun _ _ => .nil

namespace StatementsMirror

variable {bound : Nat}

theorem item_succ (h : StatementsMirror tokens bound) :
    Mirrors tokens listings (Draws tokens) (Drafter.item (bound + 1)) (Reader.item (bound + 1)) := by
  refine .orRecover (.accept (.expect rfl fun name hname hmem => ?_) <|
    .accept ((h.routine .function listings).bind fun _ _ _ _ hd => .pure fun _ => hd.function.mono) <|
    .accept mirrors_variableDecl (h.statement listings))
  refine mirrors_superclass?.bind fun o so ls₁ _ hsuper => .expect rfl fun _ _ _ => ?_
  refine (h.methods ls₁).bind fun ds fs ls₂ hsub hmethods => .expect rfl fun _ _ _ => .pure fun _ => ?_
  exact (Draws.classDecl ⟨hname, hmem⟩ (hsuper.mono hsub) hmethods).mono

theorem statement_succ (h : StatementsMirror tokens bound) :
    Mirrors tokens listings (Draws tokens) (Drafter.statement (bound + 1))
      (Reader.statement (bound + 1)) := by
  refine .accept (.expect rfl fun _ _ _ => ?_) <| .accept (.expect rfl fun _ _ _ => ?_) <|
    .accept (.expect rfl fun _ _ _ => ?_) <| .accept? (fun keyword _ _ => mirrors_returnStmt keyword) <|
    .accept ((h.items true listings).bind fun _ _ _ _ hb =>
      .expect rfl fun _ _ _ => .pure fun _ => hb.block.mono) mirrors_expressionStmt
  · refine mirrors_loopInitializer.bind fun i is ls₁ _ hi => ?_
    refine (mirrors_expressionUnless _).bind fun c ce ls₂ hsub₂ hc => .expect rfl fun _ _ _ => ?_
    refine (mirrors_expressionUnless _).bind fun n ne ls₃ hsub₃ hn => .expect rfl fun _ _ _ => ?_
    refine (h.statement ls₃).bind fun b bs ls₄ hsub₄ hb => .pure fun _ => ?_
    exact (Draws.loopStmt (((hi.mono hsub₂).mono hsub₃).mono hsub₄) ((hc.mono hsub₃).mono hsub₄)
      (hn.mono hsub₄) hb).mono
  · refine (mirrors_expression tokens listings).bind fun c ce ls₁ _ hc => .expect rfl fun _ _ _ => ?_
    refine (h.statement ls₁).bind fun t ts ls₂ hsub₂ ht => .accept ?_ ?_
    · refine (h.statement ls₂).bind fun e es ls₃ hsub₃ he => .pure fun _ => ?_
      exact (Draws.ifElse ((hc.mono hsub₂).mono hsub₃) (ht.mono hsub₃) he).mono
    · exact .pure fun _ => (Draws.ifThen (hc.mono hsub₂) ht).mono
  · refine (mirrors_expression tokens listings).bind fun c ce ls₁ _ hc => .expect rfl fun _ _ _ => ?_
    exact (h.statement ls₁).bind fun b bs ls₂ hsub hb => .pure fun _ =>
      (Draws.loop (hc.mono hsub) hb).mono

theorem items_succ (h : StatementsMirror tokens bound) (inBlock : Bool) :
    Mirrors tokens listings (Draws tokens) (Drafter.items (bound + 1) inBlock)
      (Reader.items (bound + 1) inBlock) := by
  refine .peek? fun next => .check fun closes => ?_
  split
  · exact .pure fun _ _ => .nil
  · refine (h.item listings).bind fun o os ls₁ _ ho => ?_
    exact (h.items inBlock ls₁).bind fun ss ts ls₂ hsub hs =>
      .pure fun _ => ((ho.mono hsub).toList.append hs).mono

/-- A declaration that has been read is listed. -/
theorem routine_succ (h : StatementsMirror tokens bound) (kind : Routine) :
    Mirrors tokens listings (Draws tokens) (Drafter.routine (bound + 1) kind)
      (Reader.routine (bound + 1) kind) := by
  refine .expect rfl fun name hname hmem => fun s hs hsub => ?_
  refine .expect hs rfl fun opening rest hrest _ => ?_
  rw [Reader.parameters_eq_members]
  refine (mirrorsAt_members (fun _ => mirrors_parameter) (fun _ _ _ _ _ h => h) rfl rfl
    (hs.taken hrest) (Trail.place_onward_lt hrest)).bind fun ms ns s₂ hs₂ hleads₂ hms => ?_
  refine .expect_on hs₂ rfl fun _ s₃ hs₃ hleads₃ => .expect_on hs₃ rfl fun _ s₄ hs₄ hleads₄ => ?_
  have hmarks := (hms.marks.leads hleads₃).leads hleads₄
  have hplace : s₄.place ≤ s.place := hleads₄.place_le.trans
    (hleads₃.place_le.trans (hleads₂.place_le.trans (Trail.place_onward_lt hrest).le))
  refine ((h.items true _ s₄ hs₄ (List.Subset.refl _)).with_leads.mono hplace).bind
    fun ss ts s₅ hs₅ _ ⟨hleads₅, hbody⟩ => ?_
  refine .expect_on hs₅ rfl fun _ s₆ hs₆ hleads₆ => ?_
  obtain ⟨rfl, hparams⟩ := IsParameter.names hms.answers
  refine .list hs₆ ((hmarks.leads hleads₅).leads hleads₆) (by simp [DraftNode.list?])
    fun s₇ hs₇ hsub hlisted => .answer rfl rfl hs₇ (.refl s₇) ?_
  exact .routine ⟨hname, hmem⟩ hparams (hbody.mono (List.Subset.trans hleads₆.listings hsub)) hlisted

theorem methods_succ (h : StatementsMirror tokens bound) :
    Mirrors tokens listings (Draws tokens) (Drafter.methods (bound + 1))
      (Reader.methods (bound + 1)) := by
  refine .peek? fun next => .check fun closes => ?_
  split
  · exact .pure fun _ _ => .nil
  · refine (h.routine .method listings).bind fun d f ls₁ _ hd => ?_
    exact (h.methods ls₁).bind fun ds fs ls₂ hsub hs => .pure fun _ => ((hd.mono hsub).cons hs).mono

theorem succ (h : StatementsMirror tokens bound) : StatementsMirror tokens (bound + 1) where
  item _ := h.item_succ
  statement _ := h.statement_succ
  items inBlock _ := h.items_succ inBlock
  routine kind _ := h.routine_succ kind
  methods _ := h.methods_succ

theorem all : (bound : Nat) → StatementsMirror tokens bound
  | 0 => zero
  | bound + 1 => (all bound).succ

end StatementsMirror

end Treewalk
