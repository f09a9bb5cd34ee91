import Treewalk.Proofs.Syntax.Soundness.Expression

/-!
# What is answered was read as a program

Statements that are answered without a fault were read from the tokens that were taken. The greedy
treatment of `else` shows in the token after a statement: a statement that dangles was not followed
by an `else`, which it would have taken.

## Main results

* `Program.ofTokens_sound`: the statements of a program without faults read from its tokens.
-/

namespace Treewalk

namespace Reader

/-! ### Parts of statements -/

theorem expressionUnless_yields (kind : TokenKind) :
    (expressionUnless kind).Yields Expr.ReadsOptional := by
  refine (Ensures.check (Q := fun _ taken _ noted _ _ e => noted = [] →
    Expr.ReadsOptional (taken.map Token.sign) e) fun b => ?_).mono fun _ _ _ _ _ _ hq => hq
  cases b with
  | true =>
    refine (Ensures.pure none).mono ?_
    rintro _ _ _ _ _ _ ⟨rfl, -, -, rfl⟩ -
    exact .none
  | false =>
    refine (expression_yields.bind fun e => Ensures.pure (some e)).mono ?_
    rintro _ _ _ _ _ _ ⟨e, _, _, _, _, _, rfl, rfl, he, rfl, rfl, -, rfl⟩ hn
    simpa using Expr.ReadsOptional.some (he (by simpa using hn))

theorem initializer?_yields : initializer?.Yields Expr.ReadsInitializer := by
  refine (Ensures.accept (expression_yields.bind fun e => Ensures.pure (some e))
    (Ensures.pure none)).mono ?_
  rintro _ _ _ _ _ _ (⟨t, _, rfl, ht, e, _, _, _, _, _, rfl, rfl, he, rfl, rfl, -, rfl⟩ |
    ⟨-, rfl, -, -, rfl⟩) hn
  · simpa [Token.is_mark.mp ht] using Expr.ReadsInitializer.some (he (by simpa using hn))
  · exact .none

/-- What a variable declaration reads as after its first word. -/
def ReadsVariable (ts : List Sign) (s : Stmt) : Prop :=
  ∃ name us initializer, ts = Name.sign name :: us ++ [.mark .semicolon] ∧
    Expr.ReadsInitializer us initializer ∧ s = .variable name initializer

/-- What an expression and a semicolon read as. -/
def ReadsExpression (ts : List Sign) (s : Stmt) : Prop :=
  ∃ us e, ts = us ++ [.mark .semicolon] ∧ Expr.Reads .assignment us e ∧ s = .expression e

theorem variableDecl_yields : variableDecl.Yields ReadsVariable := by
  refine (Ensures.expect fun name => initializer?_yields.bind fun e => Ensures.expect fun _ =>
    Ensures.pure (Stmt.variable name.toName e)).mono ?_
  rintro _ _ _ _ _ _ ⟨name, _, rfl, hname, e, _, _, _, _, _, rfl, rfl, he, t, _, rfl, ht, rfl, rfl,
    -, rfl⟩ hn
  refine ⟨name.toName, _, e, ?_, he (by simpa using hn), rfl⟩
  simp [Token.is_identifier.mp hname, Token.is_mark.mp ht]

theorem expressionStmt_yields : expressionStmt.Yields ReadsExpression := by
  refine (expression_yields.bind fun e => Ensures.expect fun _ =>
    Ensures.pure (Stmt.expression e)).mono ?_
  rintro _ _ _ _ _ _ ⟨e, _, _, _, _, _, rfl, rfl, he, t, _, rfl, ht, rfl, rfl, -, rfl⟩ hn
  refine ⟨_, e, ?_, he (by simpa using hn), rfl⟩
  simp [Token.is_mark.mp ht]

theorem returnStmt_yields (line : Nat) : (returnStmt line).Yields fun ts s =>
    Stmt.Reads (.statement false) (.keyword .returnWord :: ts) s := by
  refine ((expressionUnless_yields _).bind fun e => Ensures.expect fun _ =>
    Ensures.pure (Stmt.return line e)).mono ?_
  rintro _ _ _ _ _ _ ⟨e, _, _, _, _, _, rfl, rfl, he, t, _, rfl, ht, rfl, rfl, -, rfl⟩ hn
  simpa [Token.is_mark.mp ht] using Stmt.Reads.return line (he (by simpa using hn))

theorem loopInitializer_yields : loopInitializer.Yields Stmt.ReadsClause := by
  refine (Ensures.accept (Ensures.pure none) <| Ensures.accept
    (variableDecl_yields.bind fun s => Ensures.pure (some s))
    (expressionStmt_yields.bind fun s => Ensures.pure (some s))).mono ?_
  rintro _ _ _ _ _ _ (⟨t, _, rfl, ht, rfl, -, -, rfl⟩ |
    ⟨-, ⟨t, _, rfl, ht, s, _, _, _, _, _, rfl, rfl, hs, rfl, rfl, -, rfl⟩ |
      ⟨-, s, _, _, _, _, _, rfl, rfl, hs, rfl, rfl, -, rfl⟩⟩) hn
  · simpa [Token.is_mark.mp ht] using Stmt.ReadsClause.none
  · obtain ⟨name, us, e, hts, he, rfl⟩ := hs (by simpa using hn)
    simpa [Token.is_keyword.mp ht, hts] using Stmt.ReadsClause.variable name he
  · obtain ⟨us, e, hts, he, rfl⟩ := hs (by simpa using hn)
    simpa [hts] using Stmt.ReadsClause.expression he

theorem superclass?_yields : superclass?.Yields fun ts s => ts = Superclass.signs s := by
  refine (Ensures.accept (Ensures.expect fun name => Ensures.freshId fun id =>
    Ensures.pure (some (⟨id, name.toName⟩ : Superclass))) (Ensures.pure none)).mono ?_
  rintro _ _ _ _ _ _ (⟨t, _, rfl, ht, name, _, rfl, hname, rfl, -, -, rfl⟩ | ⟨-, rfl, -, -, rfl⟩) -
  · simp [Token.is_mark.mp ht, Token.is_identifier.mp hname, Superclass.signs]
  · rfl

/-- Names with commas between them; `count` names stand before. -/
def ReadsParameters (count : Nat) (ts : List Sign) (params : List Name) : Prop :=
  ts = separated (params.map fun p => [p.sign]) ∧
    (params ≠ [] → count + params.length ≤ maxArguments)

theorem parametersFrom_yields (bound count : Nat) :
    (parametersFrom bound count).Yields fun ts params => params ≠ [] ∧
      ReadsParameters count ts params := by
  induction bound generalizing count with
  | zero => exact Ensures.fail _
  | succ bound ih =>
    refine ((Ensures.noteBeyond count _).bind fun _ => Ensures.expect fun t => Ensures.accept
      ((ih (count + 1)).bind fun others => Ensures.pure (t.toName :: others))
      (Ensures.pure [t.toName])).mono ?_
    rintro _ _ _ _ _ _ ⟨-, _, _, _, _, _, rfl, rfl, ⟨rfl, hcount, -⟩, name, _, rfl, hname,
      ⟨t, _, rfl, ht, others, _, _, _, _, _, rfl, rfl, hothers, rfl, rfl, -, rfl⟩ |
        ⟨-, rfl, rfl, -, rfl⟩⟩ hn
    all_goals
      simp only [List.append_eq_nil_iff] at hn
      have hlt := hcount.mp hn.1
      refine ⟨List.cons_ne_nil _ _, ?_⟩
    · obtain ⟨hne, hts, hlen⟩ := hothers hn.2.1
      obtain ⟨p, ps, rfl⟩ := List.exists_cons_of_ne_nil hne
      refine ⟨?_, fun _ => ?_⟩
      · simp [Token.is_identifier.mp hname, Token.is_mark.mp ht, hts, separated,
          List.intercalate_cons_cons]
      · have := hlen hne
        simp only [List.length_cons] at this ⊢
        omega
    · exact ⟨by simp [Token.is_identifier.mp hname], fun _ => hlt⟩

theorem parameters_yields : parameters.Yields (ReadsParameters 0) := by
  refine (Ensures.check (Q := fun _ taken _ noted _ _ params => noted = [] →
    ReadsParameters 0 (taken.map Token.sign) params) fun b => ?_).mono fun _ _ _ _ _ _ hq => hq
  cases b with
  | true =>
    refine (Ensures.pure []).mono ?_
    rintro _ _ _ _ _ _ ⟨rfl, -, -, rfl⟩ -
    exact ⟨rfl, by simp⟩
  | false =>
    exact Ensures.bounded fun bound => (parametersFrom_yields (bound + 1) 0).mono
      fun _ _ _ _ _ _ hq hn => (hq hn).2

/-! ### Statements -/

/-- A statement, and whether an `else` may follow it. -/
def ReadsStatement (taken left : List Token) (s : Stmt) : Prop :=
  ∃ dangles, Stmt.Reads (.statement dangles) (taken.map Token.sign) s ∧
    (dangles = true → ∀ t ∈ left.head?, ¬ t.is (.keyword .elseWord))

theorem ReadsStatement.closed {taken left : List Token} {s : Stmt} {t : Token}
    (h : ReadsStatement taken (t :: left) s) (ht : t.is (.keyword .elseWord)) :
    Stmt.Reads (.statement false) (taken.map Token.sign) s := by
  obtain ⟨dangles, hs, hd⟩ := h
  cases dangles with
  | false => exact hs
  | true => exact absurd ht (hd rfl t rfl)

theorem ReadsStatement.of_closed {taken left : List Token} {s : Stmt}
    (h : Stmt.Reads (.statement false) (taken.map Token.sign) s) : ReadsStatement taken left s :=
  ⟨false, h, by simp⟩

/-- What the readers that call each other answer. With enough depth the items of a text, unlike
those of a block, end only with the text. -/
structure StatementYields (bound : Nat) : Prop where
  item : (item bound).Yields fun ts s =>
    (∃ s', s = some s' ∧ Stmt.Reads .item ts s') ∨ (bound = 0 ∧ ts = [] ∧ s = none)
  statement : Ensures (statement bound) fun taken left noted _ _ s => noted = [] →
    ReadsStatement taken left s
  items : ∀ inBlock, Ensures (items bound inBlock) fun taken left noted _ _ ss => noted = [] →
    ReadsItems (taken.map Token.sign) ss ∧
      (inBlock = false → 3 * (taken ++ left).length + 3 ≤ bound → left = [])
  routine : ∀ kind, (routine bound kind).Yields ReadsRoutine
  methods : (methods bound).Yields ReadsMethods

theorem StatementYields.zero : StatementYields 0 where
  item := by
    refine (Ensures.pure none).mono ?_
    rintro _ _ _ _ _ _ ⟨rfl, -, -, rfl⟩ -
    exact .inr ⟨rfl, rfl, rfl⟩
  statement := Ensures.fail _
  items _ := by
    refine (Ensures.pure []).mono ?_
    rintro _ _ _ _ _ _ ⟨rfl, -, -, rfl⟩ -
    exact ⟨.nil, fun _ h => absurd h (by omega)⟩
  routine _ := Ensures.fail _
  methods := by
    refine (Ensures.pure []).mono ?_
    rintro _ _ _ _ _ _ ⟨rfl, -, -, rfl⟩ -
    exact .nil

namespace StatementYields

variable {bound : Nat}

theorem statement_succ (h : StatementYields bound) :
    Ensures (Reader.statement (bound + 1)) fun taken left noted _ _ s => noted = [] →
      ReadsStatement taken left s := by
  refine (Ensures.accept (Ensures.expect fun _ => loopInitializer_yields.bind fun initializer =>
    (expressionUnless_yields _).bind fun condition => Ensures.expect fun _ =>
      (expressionUnless_yields _).bind fun increment => Ensures.expect fun _ =>
        h.statement.bind fun body =>
          Ensures.pure (loopStmt initializer condition increment body)) <|
    Ensures.accept (Ensures.expect fun _ => expression_yields.bind fun condition =>
      Ensures.expect fun _ => h.statement.bind fun thenBranch => Ensures.accept
        (h.statement.bind fun elseBranch =>
          Ensures.pure (Stmt.ifElse condition thenBranch elseBranch))
        (Ensures.pure (Stmt.ifThen condition thenBranch))) <|
    Ensures.accept (Ensures.expect fun _ => expression_yields.bind fun condition =>
      Ensures.expect fun _ => h.statement.bind fun body =>
        Ensures.pure (Stmt.while condition body)) <|
    Ensures.accept? (fun t => returnStmt_yields t.line) <|
    Ensures.accept ((h.items true).bind fun body => Ensures.expect fun _ =>
      Ensures.pure (Stmt.block body)) expressionStmt_yields).mono ?_
  rintro _ _ _ _ _ _ (⟨t, _, rfl, ht, t₁, _, rfl, ht₁, initializer, _, _, _, _, _, rfl, rfl, hi,
    condition, _, _, _, _, _, rfl, rfl, hc, t₂, _, rfl, ht₂, increment, _, _, _, _, _, rfl, rfl, he,
    t₃, _, rfl, ht₃, body, _, _, _, _, _, rfl, rfl, hb, rfl, rfl, -, rfl⟩ | ⟨-, hq⟩) hn
  · simp only [List.append_eq_nil_iff] at hn
    obtain ⟨dangles, hb, hd⟩ := hb hn.2.2.2.1
    refine ⟨dangles, ?_, hd⟩
    simpa [Token.is_keyword.mp ht, Token.is_mark.mp ht₁, Token.is_mark.mp ht₂,
      Token.is_mark.mp ht₃] using Stmt.Reads.loop (hi hn.1) (hc hn.2.1) (he hn.2.2.1) hb
  rcases hq with ⟨t, _, rfl, ht, t₁, _, rfl, ht₁, condition, _, _, _, _, _, rfl, rfl, hc, t₂, _, rfl,
    ht₂, thenBranch, _, _, _, _, _, rfl, rfl, hthen, ⟨t₃, _, rfl, ht₃, elseBranch, _, _, _, _, _,
    rfl, rfl, helse, rfl, rfl, -, rfl⟩ | ⟨hne, rfl, rfl, -, rfl⟩⟩ | ⟨-, hq⟩
  · simp only [List.append_eq_nil_iff] at hn
    obtain ⟨dangles, he, hd⟩ := helse hn.2.2.1
    have hclosed := (hthen hn.2.1).closed ht₃
    refine ⟨dangles, ?_, hd⟩
    simpa [Token.is_keyword.mp ht, Token.is_mark.mp ht₁, Token.is_mark.mp ht₂,
      Token.is_keyword.mp ht₃] using Stmt.Reads.ifElse (hc hn.1) hclosed he
  · simp only [List.append_eq_nil_iff] at hn
    obtain ⟨dangles, hthen, -⟩ := hthen hn.2.1
    refine ⟨true, ?_, fun _ => hne⟩
    simpa [Token.is_keyword.mp ht, Token.is_mark.mp ht₁, Token.is_mark.mp ht₂] using
      Stmt.Reads.ifThen (hc hn.1) hthen
  rcases hq with ⟨t, _, rfl, ht, t₁, _, rfl, ht₁, condition, _, _, _, _, _, rfl, rfl, hc, t₂, _, rfl,
    ht₂, body, _, _, _, _, _, rfl, rfl, hb, rfl, rfl, -, rfl⟩ | ⟨-, ⟨t, _, rfl, ht, hr⟩ |
    ⟨-, ⟨t, _, rfl, ht, body, _, _, _, _, _, rfl, rfl, hb, t₁, _, rfl, ht₁, rfl, rfl, -, rfl⟩ |
      ⟨-, he⟩⟩⟩
  · simp only [List.append_eq_nil_iff] at hn
    obtain ⟨dangles, hb, hd⟩ := hb hn.2.1
    refine ⟨dangles, ?_, hd⟩
    simpa [Token.is_keyword.mp ht, Token.is_mark.mp ht₁, Token.is_mark.mp ht₂] using
      Stmt.Reads.while (hc hn.1) hb
  · refine .of_closed ?_
    simpa [Token.is_keyword.mp ht] using hr hn
  · obtain ⟨⟨body, hts, rfl, hitems⟩, -⟩ := hb (by simpa using hn)
    refine .of_closed ?_
    simpa [Token.is_mark.mp ht, Token.is_mark.mp ht₁, hts] using Stmt.Reads.block body hitems
  · obtain ⟨us, e, hts, hread, rfl⟩ := he hn
    exact .of_closed (hts ▸ .expression hread)

theorem item_succ (h : StatementYields bound) :
    (Reader.item (bound + 1)).Yields fun ts s => ∃ s', s = some s' ∧ Stmt.Reads .item ts s' := by
  refine (Ensures.orRecover (Q := fun taken _ noted _ _ s => noted = [] →
    Stmt.Reads .item (taken.map Token.sign) s) <|
    (Ensures.accept (Ensures.expect fun name => superclass?_yields.bind fun superclass =>
        Ensures.expect fun _ => h.methods.bind fun methods => Ensures.expect fun _ =>
          Ensures.pure (Stmt.class name.toName superclass methods)) <|
      Ensures.accept ((h.routine .function).bind fun decl => Ensures.pure (Stmt.function decl)) <|
      Ensures.accept variableDecl_yields h.statement).mono ?_).mono ?_
  · rintro _ _ _ _ _ _ (⟨t, _, rfl, ht, name, _, rfl, hname, superclass, _, _, _, _, _, rfl, rfl, hs,
      t₁, _, rfl, ht₁, methods, _, _, _, _, _, rfl, rfl, hm, t₂, _, rfl, ht₂, rfl, rfl, -, rfl⟩ |
      ⟨-, ⟨t, _, rfl, ht, decl, _, _, _, _, _, rfl, rfl, hd, rfl, rfl, -, rfl⟩ |
        ⟨-, ⟨t, _, rfl, ht, hv⟩ | ⟨-, hs⟩⟩⟩) hn
    · simp only [List.append_eq_nil_iff] at hn
      obtain ⟨methods, hts, rfl, hlen, hb⟩ := hm hn.2.1
      simpa [Token.is_keyword.mp ht, Token.is_identifier.mp hname, Token.is_mark.mp ht₁,
        Token.is_mark.mp ht₂, hs hn.1, hts, classSigns] using
        Stmt.Reads.class name.toName superclass methods hlen hb
    · obtain ⟨f, hts, rfl, hlen, hb⟩ := hd (by simpa using hn)
      simpa [Token.is_keyword.mp ht, hts] using Stmt.Reads.function f hlen hb
    · obtain ⟨name, us, e, hts, he, rfl⟩ := hv hn
      simpa [Token.is_keyword.mp ht, hts] using Stmt.Reads.variable name he
    · obtain ⟨dangles, hs, -⟩ := hs hn
      exact hs.ofStatement
  · rintro _ _ _ _ _ _ (⟨s, rfl, hs⟩ | ⟨rfl, hne, -⟩) hn
    · exact ⟨s, rfl, hs hn⟩
    · exact absurd hn hne

theorem items_succ (h : StatementYields bound) (inBlock : Bool) :
    Ensures (Reader.items (bound + 1) inBlock) fun taken left noted _ _ ss => noted = [] →
      ReadsItems (taken.map Token.sign) ss ∧
        (inBlock = false → 3 * (taken ++ left).length + 3 ≤ bound + 1 → left = []) := by
  rw [Reader.items_succ]
  refine (Ensures.untilEnd (h.item.bind fun first => (h.items inBlock).bind fun others =>
    Ensures.pure (first.toList ++ others))).mono ?_
  rintro _ left _ _ _ _ (⟨hends, rfl, -, -, rfl⟩ | ⟨first, ts, _, _, _, _, rfl, rfl, hfirst, others,
    us, _, _, _, _, rfl, rfl, hothers, rfl, rfl, -, rfl⟩) hn
  · refine ⟨.nil, fun hb _ => ?_⟩
    simpa [endsItems, hb] using hends
  · simp only [List.append_eq_nil_iff] at hn
    obtain ⟨hread, hleft⟩ := hothers hn.2.1
    rcases hfirst hn.1 with ⟨s, rfl, hs⟩ | ⟨rfl, hts, rfl⟩
    · refine ⟨by simpa using ReadsItems.cons hs hread, fun hb hlen => ?_⟩
      -- The first item takes a token, which makes up for the depth that it costs.
      have hpos : 0 < ts.length := List.length_pos_iff.mpr fun hnil => hs.ne_nil (by rw [hnil]; rfl)
      refine hleft hb ?_
      simp only [List.length_append, List.length_nil] at hlen ⊢
      omega
    · exact ⟨by simpa [hts] using hread, fun hb hlen => absurd hlen (by omega)⟩

theorem routine_succ (h : StatementYields bound) (kind : Routine) :
    (Reader.routine (bound + 1) kind).Yields ReadsRoutine := by
  refine (Ensures.expect fun name => Ensures.expect fun _ => parameters_yields.bind fun params =>
    Ensures.expect fun _ => Ensures.expect fun _ => (h.items true).bind fun body =>
      Ensures.expect fun _ =>
        Ensures.pure (⟨name.toName, params, body⟩ : FunctionDecl)).mono ?_
  rintro _ _ _ _ _ _ ⟨name, _, rfl, hname, t, _, rfl, ht, params, _, _, _, _, _, rfl, rfl, hp, t₁,
    _, rfl, ht₁, t₂, _, rfl, ht₂, body, _, _, _, _, _, rfl, rfl, hb, t₃, _, rfl, ht₃, rfl, rfl, -,
    rfl⟩ hn
  simp only [List.append_eq_nil_iff] at hn
  obtain ⟨hts, hlen⟩ := hp hn.1
  obtain ⟨⟨body, hus, rfl, hitems⟩, -⟩ := hb hn.2.1
  refine ⟨⟨name.toName, params, body⟩, ?_, rfl, ?_, hitems⟩
  · simp [Token.is_identifier.mp hname, Token.is_mark.mp ht, Token.is_mark.mp ht₁,
      Token.is_mark.mp ht₂, Token.is_mark.mp ht₃, hts, hus, RoutineText.signs, routineSigns]
  · by_cases hnil : params = []
    · simp [hnil]
    · simpa using hlen hnil

theorem methods_succ (h : StatementYields bound) :
    (Reader.methods (bound + 1)).Yields ReadsMethods := by
  rw [Reader.methods_succ]
  refine (Ensures.untilEnd ((h.routine .method).bind fun first => h.methods.bind fun others =>
    Ensures.pure (first :: others))).mono ?_
  rintro _ _ _ _ _ _ (⟨-, rfl, -, -, rfl⟩ | ⟨first, _, _, _, _, _, rfl, rfl, hf, others, _, _, _, _,
    _, rfl, rfl, ho, rfl, rfl, -, rfl⟩) hn
  · exact .nil
  · simp only [List.append_eq_nil_iff] at hn
    simpa using ReadsMethods.cons (hf hn.1) (ho hn.2.1)

theorem succ (h : StatementYields bound) : StatementYields (bound + 1) where
  item := h.item_succ.mono fun _ _ _ _ _ _ hq hn => .inl (hq hn)
  statement := h.statement_succ
  items := h.items_succ
  routine := h.routine_succ
  methods := h.methods_succ

theorem all : (bound : Nat) → StatementYields bound
  | 0 => zero
  | bound + 1 => (all bound).succ

end StatementYields

end Reader

/-- If no fault is found, the statements that were read read from all tokens of the text. -/
theorem Program.ofTokens_sound {nextId : Nat} {tokens : List Token}
    (h : (Program.ofTokens nextId tokens).errors = []) :
    ReadsItems ((tokensBeforeEnd tokens).map Token.sign)
      (Program.ofTokens nextId tokens).body := by
  have hitems := (Reader.StatementYields.all (3 * (tokensBeforeEnd tokens).length + 3)).items false
    ⟨tokensBeforeEnd tokens, [], nextId⟩
  unfold Program.ofTokens at h ⊢
  dsimp only at h ⊢
  split at h
  · next body c hr =>
    rw [hr] at hitems
    obtain ⟨taken, noted, hl, hq⟩ := hitems
    have hnone : noted = [] := by simpa [hl.errors] using h
    obtain ⟨hread, hleft⟩ := hq hnone
    have hrest : tokensBeforeEnd tokens = taken ++ c.rest := hl.rest
    have hend := hleft rfl (hrest ▸ Nat.le_refl _)
    rw [hrest, hend, List.append_nil]
    exact hread
  · exact absurd h (by simp)

end Treewalk
