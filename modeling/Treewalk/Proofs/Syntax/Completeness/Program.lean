import Treewalk.Proofs.Syntax.Completeness.Expression

/-!
# What reads as a program is answered

Tokens that read as statements are taken by the readers of statements, which note no fault and
answer the statements up to lines and node numbers. After a statement that dangles no `else` may
come, since it would be taken too.

The depth that suffices is three for each token and a little more, for statements as for
expressions.

## Main results

* `Program.ofTokens_complete`: a text that reads as statements has no faults.
-/

namespace Treewalk

open Reader

/-! ### Parts of statements -/

/-- A mark that ends an expression. -/
theorem Tier.stopsAt_mark {tier : Tier} {t : Token} {left : List Token} {m : Mark}
    (ht : t.sign = .mark m) (hm : (Sign.mark m).joins? = none) : tier.StopsAt (t :: left) :=
  .of_none (by rw [ht, hm])

/-- A token with which an expression can begin is of no other kind. -/
theorem Token.not_is_mark {t : Token} {m : Mark} (h : t.sign.opensExpression = true)
    (hm : (Sign.mark m).opensExpression = false) : ¬ t.is (.mark m) := by
  rw [is_mark]
  intro ht
  rw [ht, hm] at h
  cases h

theorem Token.not_is_keyword {t : Token} {k : Keyword} (h : t.sign.opensExpression = true)
    (hk : (Sign.keyword k).opensExpression = false) : ¬ t.is (.keyword k) := by
  rw [is_keyword]
  intro ht
  rw [ht, hk] at h
  cases h

theorem expressionUnless_takes {us left : List Token} {t : Token} {m : Mark} {e : Option Expr}
    (h : Expr.ReadsOptional (us.map Token.sign) e) (ht : t.sign = .mark m)
    (hj : (Sign.mark m).joins? = none) (hm : (Sign.mark m).opensExpression = false) :
    Takes (expressionUnless (.mark m)) us (t :: left)
      fun e' => e'.map Expr.bare = e.map Expr.bare := by
  refine .check ?_
  generalize hts : us.map Token.sign = ts at h
  cases h with
  | none =>
    obtain rfl := List.map_eq_nil_iff.mp hts
    have hcheck : (([] : List Token) ++ t :: left).head?.any (·.is (.mark m)) = true := by
      simpa using Token.is_mark.mpr ht
    rw [hcheck, if_pos rfl]
    exact Takes.pure rfl
  | some h =>
    obtain ⟨s, ts', hs, hopens, -⟩ := h.opens
    subst hts
    obtain ⟨first, rest, rfl, rfl, -⟩ := List.map_eq_cons_iff.mp hs
    have hcheck : ((first :: rest) ++ t :: left).head?.any (·.is (.mark m)) = false := by
      simpa using Token.not_is_mark hopens hm
    rw [hcheck, if_neg Bool.false_ne_true]
    exact Takes.bind_last (h.takes (Tier.stopsAt_mark ht hj)) fun e' he' => Takes.pure (by simp [he'])

theorem initializer?_takes {us left : List Token} {t : Token} {e : Option Expr}
    (h : Expr.ReadsInitializer (us.map Token.sign) e) (ht : t.sign = .mark .semicolon) :
    Takes initializer? us (t :: left) fun e' => e'.map Expr.bare = e.map Expr.bare := by
  generalize hts : us.map Token.sign = ts at h
  cases h with
  | none =>
    obtain rfl := List.map_eq_nil_iff.mp hts
    exact .decline (forall_head (by simp [Token.is_mark, ht])) (Takes.pure rfl)
  | some h =>
    obtain ⟨equal, us, rfl, hequal, rfl⟩ := List.map_eq_cons_iff.mp hts
    exact .accept (Token.is_mark.mpr hequal) <|
      Takes.bind_last (h.takes (Tier.stopsAt_mark ht rfl)) fun e' he' => Takes.pure (by simp [he'])

/-- Statements that differ only in lines and node numbers. -/
abbrev Stmt.Same (s s' : Stmt) : Prop :=
  s'.bare = s.bare

theorem variableDecl_takes {us left : List Token} {t semicolon : Token} {name : Name}
    {e : Option Expr} (hn : t.sign = name.sign) (h : Expr.ReadsInitializer (us.map Token.sign) e)
    (hs : semicolon.sign = .mark .semicolon) :
    Takes variableDecl (t :: us ++ [semicolon]) left (Stmt.variable name e).Same :=
  .expect (Token.is_identifier_of_sign hn) <| Takes.bind (initializer?_takes h hs) fun e' he' =>
    .expect (Token.is_mark.mpr hs) <| Takes.pure <| by
      simp [Stmt.Same, Stmt.bare, Token.bare_toName hn, he']

theorem expressionStmt_takes {us left : List Token} {semicolon : Token} {e : Expr}
    (h : Expr.Reads .assignment (us.map Token.sign) e) (hs : semicolon.sign = .mark .semicolon) :
    Takes expressionStmt (us ++ [semicolon]) left (Stmt.expression e).Same :=
  Takes.bind (h.takes (Tier.stopsAt_mark hs rfl)) fun e' he' =>
    .expect (Token.is_mark.mpr hs) <| Takes.pure <| by simp [Stmt.Same, Stmt.bare, he']

theorem returnStmt_takes {us left : List Token} {semicolon : Token} {e : Option Expr}
    (line line' : Nat) (h : Expr.ReadsOptional (us.map Token.sign) e)
    (hs : semicolon.sign = .mark .semicolon) :
    Takes (returnStmt line) (us ++ [semicolon]) left (Stmt.return line' e).Same :=
  Takes.bind (expressionUnless_takes h hs rfl rfl) fun e' he' =>
    .expect (Token.is_mark.mpr hs) <| Takes.pure <| by simp [Stmt.Same, Stmt.bare, he']

/-- The tokens of a word, of a condition in parentheses, and of what comes behind it. -/
theorem exists_condition {us : List Token} {k : Keyword} {ts ts' : List Sign}
    (hu : us.map Token.sign = .keyword k :: .mark .leftParen :: ts ++ .mark .rightParen :: ts') :
    ∃ (word opening : Token) (vs : List Token) (closing : Token) (ws : List Token),
      us = word :: opening :: vs ++ closing :: ws ∧ word.sign = .keyword k ∧
      opening.sign = .mark .leftParen ∧ vs.map Token.sign = ts ∧
      closing.sign = .mark .rightParen ∧ ws.map Token.sign = ts' := by
  obtain ⟨us', ws', rfl, hus, hws⟩ := List.map_eq_append_iff.mp hu
  obtain ⟨word, us'', rfl, hword, hus'⟩ := List.map_eq_cons_iff.mp hus
  obtain ⟨opening, vs, rfl, hopening, hvs⟩ := List.map_eq_cons_iff.mp hus'
  obtain ⟨closing, ws, rfl, hclosing, hws⟩ := List.map_eq_cons_iff.mp hws
  exact ⟨word, opening, vs, closing, ws, rfl, hword, hopening, hvs, hclosing, hws⟩

/-- A condition in parentheses is taken, and then what the statement goes on with. -/
theorem condition_takes {vs ws left : List Token} {opening closing : Token} {e : Expr}
    {opened closed : SyntaxFault} {f : Expr → Reader Stmt} {P : Stmt → Prop}
    (ho : opening.sign = .mark .leftParen) (h : Expr.Reads .assignment (vs.map Token.sign) e)
    (hc : closing.sign = .mark .rightParen) (hf : ∀ e', e.Same e' → Takes (f e') ws left P) :
    Takes (do
      let _ ← expect (.mark .leftParen) opened
      let condition ← expression
      let _ ← expect (.mark .rightParen) closed
      f condition) (opening :: vs ++ closing :: ws) left P :=
  .expect (Token.is_mark.mpr ho) <| Takes.bind (h.takes (Tier.stopsAt_mark hc rfl)) fun e' he' =>
    .expect (Token.is_mark.mpr hc) (hf e' he')

/-- The clauses of a loop that differ only in lines and node numbers. -/
abbrev Stmt.SameClause (s s' : Option Stmt) : Prop :=
  s'.map Stmt.bare = s.map Stmt.bare

theorem loopInitializer_takes {us left : List Token} {s : Option Stmt}
    (h : Stmt.ReadsClause (us.map Token.sign) s) :
    Takes loopInitializer us left (Stmt.SameClause s) := by
  generalize hts : us.map Token.sign = ts at h
  cases h with
  | none =>
    obtain ⟨t, rfl, ht⟩ := List.map_eq_singleton_iff.mp hts
    exact .accept (Token.is_mark.mpr ht) (Takes.pure rfl)
  | «variable» name h =>
    obtain ⟨us', semicolon', rfl, hus', hs'⟩ := List.map_eq_append_iff.mp hts
    obtain ⟨var, us'', rfl, hvar, hus''⟩ := List.map_eq_cons_iff.mp hus'
    obtain ⟨t, us, rfl, ht, rfl⟩ := List.map_eq_cons_iff.mp hus''
    obtain ⟨semicolon, rfl, hs⟩ := List.map_eq_singleton_iff.mp hs'
    exact .decline (forall_head (by simp [Token.is_mark, hvar])) <|
      .accept (Token.is_keyword.mpr hvar) <|
      Takes.bind_last (variableDecl_takes ht h hs) fun s' hs' => Takes.pure (by simp [Stmt.SameClause, hs'])
  | expression h =>
    obtain ⟨us', semicolon', rfl, rfl, hs'⟩ := List.map_eq_append_iff.mp hts
    obtain ⟨semicolon, rfl, hs⟩ := List.map_eq_singleton_iff.mp hs'
    have hstmt : Takes expressionStmt (us' ++ [semicolon]) left _ := expressionStmt_takes h hs
    obtain ⟨s, ts', hs', hopens, -⟩ := h.opens
    obtain ⟨first, rest, rfl, rfl, -⟩ := List.map_eq_cons_iff.mp hs'
    exact .decline (forall_head (Token.not_is_mark hopens rfl)) <|
      .decline (forall_head (Token.not_is_keyword hopens rfl)) <|
      Takes.bind_last hstmt fun s' hs' => Takes.pure (by simp [Stmt.SameClause, hs'])

theorem superclass?_takes {us left : List Token} {t : Token} {s : Option Superclass}
    (hu : us.map Token.sign = Superclass.signs s) (ht : t.sign = .mark .leftBrace) :
    Takes superclass? us (t :: left) fun s' => s'.map Superclass.bare = s.map Superclass.bare := by
  cases s with
  | none =>
    obtain rfl := List.map_eq_nil_iff.mp hu
    exact .decline (forall_head (by simp [Token.is_mark, ht])) (Takes.pure rfl)
  | some s =>
    obtain ⟨less, us, rfl, hless, hu'⟩ := List.map_eq_cons_iff.mp hu
    obtain ⟨name, rfl, hname⟩ := List.map_eq_singleton_iff.mp hu'
    exact .accept (Token.is_mark.mpr hless) <| .expect (Token.is_identifier_of_sign hname) <|
      .freshId fun id => Takes.pure <| by simp [Superclass.bare, Token.bare_toName hname]

theorem parametersFrom_takes {params : List Name} (hne : params ≠ []) {bound count : Nat}
    {us left : List Token} {close : Token}
    (hu : us.map Token.sign = separated (params.map fun p => [p.sign])) (hb : us.length < bound)
    (hc : count + params.length ≤ maxArguments) (hclose : close.sign = .mark .rightParen) :
    Takes (parametersFrom bound count) us (close :: left)
      fun params' => params'.map Name.bare = params.map Name.bare := by
  induction params generalizing us bound count with
  | nil => exact absurd rfl hne
  | cons p rest ih =>
    obtain ⟨bound, rfl⟩ := Nat.exists_eq_succ_of_ne_zero (Nat.ne_of_gt (Nat.zero_lt_of_lt hb))
    simp only [List.length_cons] at hc
    refine .noteBeyond (by omega) ?_
    cases rest with
    | nil =>
      obtain ⟨name, rfl, hname⟩ :=
        List.map_eq_singleton_iff.mp (show us.map Token.sign = [p.sign] by simpa using hu)
      refine .expect (Token.is_identifier_of_sign hname) <|
        .decline (forall_head (by simp [Token.is_mark, hclose])) (Takes.pure ?_)
      simp [Token.bare_toName hname]
    | cons q rest =>
      rw [List.map_cons, List.map_cons, separated, List.intercalate_cons_cons] at hu
      obtain ⟨name, us', rfl, hname, hu'⟩ := List.map_eq_cons_iff.mp hu
      obtain ⟨comma, us, rfl, hcomma, hus⟩ := List.map_eq_cons_iff.mp hu'
      simp only [List.length_cons] at hb
      have hrest := ih (List.cons_ne_nil _ _) hus (show us.length < bound by omega)
        (show count + 1 + (q :: rest).length ≤ maxArguments by omega)
      refine .expect (Token.is_identifier_of_sign hname) <| .accept (Token.is_mark.mpr hcomma) <|
        Takes.bind_last hrest fun params' hparams => Takes.pure ?_
      rw [List.map_cons, hparams, Token.bare_toName hname]
      rfl

theorem parameters_takes {params : List Name} {us left : List Token} {close : Token}
    (hu : us.map Token.sign = separated (params.map fun p => [p.sign]))
    (hc : params.length ≤ maxArguments) (hclose : close.sign = .mark .rightParen) :
    Takes parameters us (close :: left)
      fun params' => params'.map Name.bare = params.map Name.bare := by
  refine .check ?_
  cases params with
  | nil =>
    obtain rfl : us = [] := by simpa using hu
    have hcheck : (([] : List Token) ++ close :: left).head?.any (·.is (.mark .rightParen)) := by
      simpa using Token.is_mark.mpr hclose
    rw [hcheck]
    exact Takes.pure rfl
  | cons p rest =>
    obtain ⟨ws, hws⟩ : ∃ ws, us.map Token.sign = p.sign :: ws := by
      rw [hu]
      cases rest with
      | nil => exact ⟨[], rfl⟩
      | cons q rest => exact ⟨_, rfl⟩
    obtain ⟨name, vs, rfl, hname, -⟩ := List.map_eq_cons_iff.mp hws
    have hcheck : ((name :: vs) ++ close :: left).head?.any (·.is (.mark .rightParen)) = false := by
      have hne : ¬ name.is (.mark .rightParen) := by simp [Token.is_mark, hname, Name.sign]
      simpa using hne
    rw [hcheck, if_neg Bool.false_ne_true]
    refine .bounded ?_
    refine parametersFrom_takes (List.cons_ne_nil _ _) hu ?_ ?_ hclose
    · rw [List.length_append]
      omega
    · rwa [Nat.zero_add]

/-! ### What opens a statement -/

/-- The signs with which a phrase can begin. -/
def Phrase.opens : Phrase → Sign → Bool
  | item, .keyword .classWord | item, .keyword .funWord | item, .keyword .varWord => true
  | _, .keyword .forWord | _, .keyword .ifWord | _, .keyword .whileWord => true
  | _, .keyword .returnWord | _, .mark .leftBrace => true
  | _, s => s.opensExpression

theorem Phrase.opens_of_opensExpression {phrase : Phrase} {s : Sign}
    (h : s.opensExpression = true) : phrase.opens s = true := by
  unfold opens
  split <;> first | rfl | exact h

theorem Phrase.opens_item {phrase : Phrase} {s : Sign} (h : phrase.opens s = true) :
    Phrase.item.opens s = true := by
  cases phrase with
  | item => exact h
  | statement dangles =>
    unfold opens at h
    split at h <;> first | rfl | exact opens_of_opensExpression h

/-- A token with which a phrase can begin is of no other kind. -/
theorem Phrase.not_keyword {phrase : Phrase} {t : Token} {k : Keyword}
    (h : phrase.opens t.sign = true) (hk : phrase.opens (.keyword k) = false) :
    ¬ t.is (.keyword k) := by
  rw [Token.is_keyword]
  intro ht
  rw [ht, hk] at h
  cases h

/-- A statement begins with a sign with which one can begin. -/
theorem Stmt.Reads.opens {phrase : Phrase} {ts : List Sign} {s : Stmt}
    (h : Stmt.Reads phrase ts s) : ∃ sign us, ts = sign :: us ∧ phrase.opens sign = true := by
  induction h with
  | ofStatement _ ih =>
    obtain ⟨sign, us, hts, hs⟩ := ih
    exact ⟨sign, us, hts, Phrase.opens_item hs⟩
  | expression h =>
    obtain ⟨sign, us, rfl, hs, -⟩ := h.opens
    exact ⟨sign, us ++ [.mark .semicolon], rfl, Phrase.opens_of_opensExpression hs⟩
  | _ => exact ⟨_, _, rfl, rfl⟩

/-! ### Statements -/

/-- No `else` comes next. -/
def NoElse (left : List Token) : Prop :=
  ∀ t ∈ left.head?, ¬ t.is (.keyword .elseWord)

theorem NoElse.of_opens {t : Token} {left : List Token} (h : Phrase.item.opens t.sign = true) :
    NoElse (t :: left) := by
  rintro _ ⟨⟩ he
  rw [Token.is_keyword.mp he] at h
  cases h

theorem NoElse.of_mark {t : Token} {left : List Token} {m : Mark} (h : t.sign = .mark m) :
    NoElse (t :: left) := by
  rintro _ ⟨⟩
  simp [Token.is_keyword, h]

/-- What the readers of statements make of tokens that read as a statement. -/
def Phrase.Answers (ts : List Sign) (s : Stmt) : Phrase → Prop
  | item => ∀ bound us left, us.map Token.sign = ts → 3 * us.length + 2 ≤ bound → NoElse left →
    Takes (Reader.item bound) us left fun s' => ∃ s'', s' = some s'' ∧ s.Same s''
  | statement dangles => ∀ bound us left, us.map Token.sign = ts → 3 * us.length + 1 ≤ bound →
    (dangles = true → NoElse left) → Takes (Reader.statement bound) us left s.Same

theorem endsItems_brace {t : Token} {left : List Token} (h : t.sign = .mark .rightBrace) :
    endsItems true (t :: left) = true := by
  simpa [endsItems] using Token.is_mark.mpr h

theorem NoElse.of_ends {inBlock : Bool} {left : List Token} (h : endsItems inBlock left = true) :
    NoElse left := by
  cases left with
  | nil => rintro _ ⟨⟩
  | cons t left =>
    have ht : t.is (.mark .rightBrace) := by
      simp [endsItems] at h
      exact h.2
    exact .of_mark (Token.is_mark.mp ht)

/-- A list of items does not end before a token with which an item can begin. -/
theorem endsItems_of_opens {inBlock : Bool} {t : Token} {left : List Token}
    (h : Phrase.item.opens t.sign = true) : endsItems inBlock (t :: left) = false := by
  have ht : ¬ t.is (.mark .rightBrace) := fun hb => by
    rw [Token.is_mark.mp hb] at h
    cases h
  simp [endsItems, ht]

theorem items_end {inBlock : Bool} {bound : Nat} {left : List Token} {P : List Stmt → Prop}
    (h : endsItems inBlock left = true) (hP : P []) :
    Takes (items (bound + 1) inBlock) [] left P := by
  refine .peek? <| .check ?_
  split
  · exact Takes.pure hP
  · next hn => exact absurd h hn

theorem items_next {inBlock : Bool} {bound : Nat} {us left : List Token} {P : List Stmt → Prop}
    (h : endsItems inBlock (us ++ left) = false)
    (hr : Takes (do
      let first ← item bound
      let others ← items bound inBlock
      return first.toList ++ others) us left P) :
    Takes (items (bound + 1) inBlock) us left P := by
  refine .peek? <| .check ?_
  split
  · next hy => exact absurd (h.symm.trans hy) Bool.false_ne_true
  · exact hr

theorem items_takes {body : List (List Sign × Stmt)}
    (hr : ∀ p ∈ body, Stmt.Reads .item p.1 p.2) (ha : ∀ p ∈ body, Phrase.item.Answers p.1 p.2)
    {inBlock : Bool} {bound : Nat} {us left : List Token}
    (hu : us.map Token.sign = (body.map (·.1)).flatten) (hb : 3 * us.length + 3 ≤ bound)
    (hl : endsItems inBlock left = true) :
    Takes (items bound inBlock) us left
      fun ss => ss.map Stmt.bare = (body.map (·.2)).map Stmt.bare := by
  induction body generalizing us bound with
  | nil =>
    obtain ⟨bound, rfl⟩ := exists_succ_of_le hb
    obtain rfl := List.map_eq_nil_iff.mp hu
    exact items_end hl rfl
  | cons p rest ih =>
    obtain ⟨bound, rfl⟩ := exists_succ_of_le hb
    obtain ⟨us, vs, rfl, hus, hvs⟩ := List.map_eq_append_iff.mp hu
    obtain ⟨sign, ts, hp, hopens⟩ := (hr p List.mem_cons_self).opens
    obtain ⟨t, us, rfl, rfl, -⟩ := List.map_eq_cons_iff.mp (hus.trans hp)
    simp only [List.length_append, List.length_cons] at hb
    have hrest := ih (fun p hp => hr p (List.mem_cons_of_mem _ hp))
      (fun p hp => ha p (List.mem_cons_of_mem _ hp)) hvs (show 3 * vs.length + 3 ≤ bound by omega)
    have hnext : NoElse (vs ++ left) := by
      cases rest with
      | nil =>
        obtain rfl := List.map_eq_nil_iff.mp hvs
        exact .of_ends hl
      | cons q rest =>
        obtain ⟨sign, ts, hq, hopens⟩ := (hr q (by simp)).opens
        rw [List.map_cons, List.flatten_cons, hq] at hvs
        obtain ⟨u, vs, rfl, rfl, -⟩ := List.map_eq_cons_iff.mp hvs
        exact .of_opens hopens
    refine items_next (endsItems_of_opens hopens) ?_
    have hfirst := ha p List.mem_cons_self bound (t :: us) (vs ++ left) hus
      (by simp only [List.length_cons]; omega) hnext
    refine Takes.bind hfirst fun s' hs => Takes.bind_last hrest fun ss hss => Takes.pure ?_
    obtain ⟨s, rfl, hs⟩ := hs
    rw [Option.toList_some, List.singleton_append, List.map_cons, hs, hss]
    rfl

theorem routine_takes {f : RoutineText} (hn : f.params.length ≤ maxArguments)
    (hr : ∀ p ∈ f.body, Stmt.Reads .item p.1 p.2)
    (ha : ∀ p ∈ f.body, Phrase.item.Answers p.1 p.2) {kind : Routine} {bound : Nat}
    {us left : List Token} (hu : us.map Token.sign = f.signs) (hb : 3 * us.length + 1 ≤ bound) :
    Takes (routine bound kind) us left fun d => d.bare = f.decl.bare := by
  obtain ⟨bound, rfl⟩ := exists_succ_of_le hb
  rw [RoutineText.signs, routineSigns] at hu
  obtain ⟨us₁', us₂', rfl, hu₁', hu₂'⟩ := List.map_eq_append_iff.mp hu
  obtain ⟨us₁'', us₃', rfl, hu₁'', hu₃'⟩ := List.map_eq_append_iff.mp hu₁'
  obtain ⟨name, us₁''', rfl, hname, hu₁'''⟩ := List.map_eq_cons_iff.mp hu₁''
  obtain ⟨openP, us₁, rfl, hopenP, hparams⟩ := List.map_eq_cons_iff.mp hu₁'''
  obtain ⟨closeP, us₂'', rfl, hcloseP, hu₂''⟩ := List.map_eq_cons_iff.mp hu₃'
  obtain ⟨openB, us₂, rfl, hopenB, hbody⟩ := List.map_eq_cons_iff.mp hu₂''
  obtain ⟨closeB, rfl, hcloseB⟩ := List.map_eq_singleton_iff.mp hu₂'
  simp only [List.length_append, List.length_cons] at hb
  have hitems : Takes (items bound true) us₂ (closeB :: left) fun ss =>
      ss.map Stmt.bare = (f.body.map (·.2)).map Stmt.bare :=
    items_takes hr ha hbody (by omega) (endsItems_brace hcloseB)
  have hparameters : Takes parameters us₁ (closeP :: openB :: (us₂ ++ [closeB]) ++ left)
      fun params => params.map Name.bare = f.params.map Name.bare :=
    parameters_takes hparams hn hcloseP
  simp only [List.append_assoc, List.cons_append]
  refine .expect (Token.is_identifier_of_sign hname) <| .expect (Token.is_mark.mpr hopenP) <|
    Takes.bind hparameters fun params hps => .expect (Token.is_mark.mpr hcloseP) <|
    .expect (Token.is_mark.mpr hopenB) <| Takes.bind hitems fun body hbs =>
    .expect (Token.is_mark.mpr hcloseB) <| Takes.pure ?_
  rw [RoutineText.decl, FunctionDecl.bare, FunctionDecl.bare, Stmt.bareAll_eq_map,
    Stmt.bareAll_eq_map, hbs, hps, Token.bare_toName hname]

theorem methods_takes {methods : List RoutineText}
    (hn : ∀ m ∈ methods, m.params.length ≤ maxArguments)
    (hr : ∀ m ∈ methods, ∀ p ∈ m.body, Stmt.Reads .item p.1 p.2)
    (ha : ∀ m ∈ methods, ∀ p ∈ m.body, Phrase.item.Answers p.1 p.2) {bound : Nat}
    {us left : List Token} {close : Token}
    (hu : us.map Token.sign = (methods.map (·.signs)).flatten) (hb : 3 * us.length + 2 ≤ bound)
    (hclose : close.sign = .mark .rightBrace) :
    Takes (Reader.methods bound) us (close :: left)
      fun ds => ds.map FunctionDecl.bare = (methods.map (·.decl)).map FunctionDecl.bare := by
  induction methods generalizing us bound with
  | nil =>
    obtain ⟨bound, rfl⟩ := exists_succ_of_le hb
    obtain rfl := List.map_eq_nil_iff.mp hu
    refine .peek? <| .check ?_
    split
    · exact Takes.pure rfl
    · next h => exact absurd (by simpa using Token.is_mark.mpr hclose) h
  | cons m rest ih =>
    obtain ⟨bound, rfl⟩ := exists_succ_of_le hb
    obtain ⟨us, vs, rfl, hus, hvs⟩ := List.map_eq_append_iff.mp hu
    obtain ⟨name, us, rfl, hname, -⟩ := List.map_eq_cons_iff.mp hus
    simp only [List.length_append, List.length_cons] at hb
    have hfirst : Takes (routine bound .method) (name :: us) (vs ++ close :: left)
        fun d => d.bare = m.decl.bare :=
      routine_takes (hn m List.mem_cons_self) (hr m List.mem_cons_self) (ha m List.mem_cons_self) hus
        (by simp only [List.length_cons]; omega)
    have hrest := ih (fun m hm => hn m (List.mem_cons_of_mem _ hm))
      (fun m hm => hr m (List.mem_cons_of_mem _ hm))
      (fun m hm => ha m (List.mem_cons_of_mem _ hm)) hvs (show 3 * vs.length + 2 ≤ bound by omega)
    refine .peek? <| .check ?_
    split
    · next h =>
      refine absurd h ?_
      have hne : ¬ name.is (.mark .rightBrace) := by simp [Token.is_mark, hname, Name.sign]
      simpa using hne
    · refine Takes.bind hfirst fun d hd => Takes.bind_last hrest fun ds hds => Takes.pure ?_
      rw [List.map_cons, hd, hds]
      rfl

theorem Stmt.bare_loopStmt (initializer : Option Stmt) (condition increment : Option Expr)
    (body : Stmt) : (loopStmt initializer condition increment body).bare =
      loopStmt (initializer.map Stmt.bare) (condition.map Expr.bare) (increment.map Expr.bare)
        body.bare := by
  cases initializer <;> cases condition <;> cases increment <;>
    simp [loopStmt, Stmt.bare, Expr.bare]

/-- The readers of statements take what reads as a statement. -/
theorem Stmt.Reads.answers {phrase : Phrase} {ts : List Sign} {s : Stmt}
    (h : Stmt.Reads phrase ts s) : phrase.Answers ts s := by
  induction h with
  | ofStatement h ih =>
    intro bound us left hu hb hl
    obtain ⟨bound, rfl⟩ := exists_succ_of_le hb
    have hstatement := ih bound us left hu (by omega) fun _ => hl
    obtain ⟨sign, ts, rfl, hopens⟩ := h.opens
    obtain ⟨t, us, rfl, ht, -⟩ := List.map_eq_cons_iff.mp hu
    rw [← ht] at hopens
    exact Takes.orRecover <| .decline (forall_head (Phrase.not_keyword hopens rfl)) <|
      .decline (forall_head (Phrase.not_keyword hopens rfl)) <|
      .decline (forall_head (Phrase.not_keyword hopens rfl)) hstatement
  | «class» name superclass methods hn hr ih =>
    intro bound us left hu hb hl
    obtain ⟨bound, rfl⟩ := exists_succ_of_le hb
    obtain ⟨us₁', us₄', rfl, hu₁', hu₄'⟩ := List.map_eq_append_iff.mp hu
    obtain ⟨us₁'', us₃', rfl, hu₁'', hu₃'⟩ := List.map_eq_append_iff.mp hu₁'
    obtain ⟨t, us₁''', rfl, ht, hu₁'''⟩ := List.map_eq_cons_iff.mp hu₁''
    obtain ⟨identifier, us₁, rfl, hname, hsuper⟩ := List.map_eq_cons_iff.mp hu₁'''
    obtain ⟨openB, us₂, rfl, hopenB, hmethods⟩ := List.map_eq_cons_iff.mp hu₃'
    obtain ⟨closeB, rfl, hcloseB⟩ := List.map_eq_singleton_iff.mp hu₄'
    simp only [List.length_append, List.length_cons] at hb
    have hs : Takes superclass? us₁ (openB :: (us₂ ++ [closeB]) ++ left)
        fun s => s.map Superclass.bare = superclass.map Superclass.bare :=
      superclass?_takes hsuper hopenB
    have hms : Takes (Reader.methods bound) us₂ (closeB :: left)
        fun ds => ds.map FunctionDecl.bare = (methods.map (·.decl)).map FunctionDecl.bare :=
      methods_takes hn hr ih hmethods (by omega) hcloseB
    simp only [List.append_assoc, List.cons_append]
    refine Takes.orRecover <| .accept (Token.is_keyword.mpr ht) <|
      .expect (Token.is_identifier_of_sign hname) <| Takes.bind hs fun s' hs' =>
      .expect (Token.is_mark.mpr hopenB) <| Takes.bind hms fun ms' hms' =>
      .expect (Token.is_mark.mpr hcloseB) <| Takes.pure ?_
    rw [Stmt.Same, Stmt.bare, Stmt.bare, Stmt.bareMethods_eq_map, Stmt.bareMethods_eq_map, hs', hms',
      Token.bare_toName hname]
  | function f hn hr ih =>
    intro bound us left hu hb hl
    obtain ⟨bound, rfl⟩ := exists_succ_of_le hb
    obtain ⟨t, us, rfl, ht, hus⟩ := List.map_eq_cons_iff.mp hu
    simp only [List.length_cons] at hb
    have hroutine : Takes (routine bound .function) us left fun d => d.bare = f.decl.bare :=
      routine_takes hn hr ih hus (by omega)
    exact Takes.orRecover <| .decline (forall_head (by simp [Token.is_keyword, ht])) <|
      .accept (Token.is_keyword.mpr ht) <|
      Takes.bind_last hroutine fun d hd => Takes.pure (by simp [Stmt.Same, Stmt.bare, hd])
  | «variable» name h =>
    intro bound us left hu hb hl
    obtain ⟨bound, rfl⟩ := exists_succ_of_le hb
    obtain ⟨us', semicolon', rfl, hus', hs'⟩ := List.map_eq_append_iff.mp hu
    obtain ⟨var, us'', rfl, hvar, hus''⟩ := List.map_eq_cons_iff.mp hus'
    obtain ⟨t, us, rfl, ht, rfl⟩ := List.map_eq_cons_iff.mp hus''
    obtain ⟨semicolon, rfl, hs⟩ := List.map_eq_singleton_iff.mp hs'
    exact Takes.orRecover <| .decline (forall_head (by simp [Token.is_keyword, hvar])) <|
      .decline (forall_head (by simp [Token.is_keyword, hvar])) <|
      .accept (Token.is_keyword.mpr hvar) (variableDecl_takes ht h hs)
  | expression h =>
    intro bound us left hu hb hl
    obtain ⟨bound, rfl⟩ := exists_succ_of_le hb
    obtain ⟨us', semicolon', rfl, rfl, hs'⟩ := List.map_eq_append_iff.mp hu
    obtain ⟨semicolon, rfl, hs⟩ := List.map_eq_singleton_iff.mp hs'
    have hstmt : Takes expressionStmt (us' ++ [semicolon]) left _ := expressionStmt_takes h hs
    obtain ⟨s, ts', hs', hopens, -⟩ := h.opens
    obtain ⟨first, rest, rfl, rfl, -⟩ := List.map_eq_cons_iff.mp hs'
    exact .decline (forall_head (Token.not_is_keyword hopens rfl)) <|
      .decline (forall_head (Token.not_is_keyword hopens rfl)) <|
      .decline (forall_head (Token.not_is_keyword hopens rfl)) <|
      .accept?_none (forall_head (Token.not_is_keyword hopens rfl)) <|
      .decline (forall_head (Token.not_is_mark hopens rfl)) hstmt
  | @loop ts₁ ts₂ ts₃ ts₄ initializer condition increment body dangles hi hc hs hbody ih =>
    intro bound us left hu hb hl
    obtain ⟨bound, rfl⟩ := exists_succ_of_le hb
    obtain ⟨us₁₂', us₄', rfl, hu₁₂', hu₄'⟩ := List.map_eq_append_iff.mp hu
    obtain ⟨us₁₂, us₃', rfl, hu₁₂, hu₃'⟩ := List.map_eq_append_iff.mp hu₁₂'
    obtain ⟨us₁', us₂, rfl, hu₁', rfl⟩ := List.map_eq_append_iff.mp hu₁₂
    obtain ⟨t, us₁'', rfl, ht, hu₁''⟩ := List.map_eq_cons_iff.mp hu₁'
    obtain ⟨openP, us₁, rfl, hopenP, rfl⟩ := List.map_eq_cons_iff.mp hu₁''
    obtain ⟨semicolon, us₃, rfl, hsemicolon, rfl⟩ := List.map_eq_cons_iff.mp hu₃'
    obtain ⟨closeP, us₄, rfl, hcloseP, rfl⟩ := List.map_eq_cons_iff.mp hu₄'
    simp only [List.length_append, List.length_cons] at hb
    simp only [List.append_assoc, List.cons_append]
    refine .accept (Token.is_keyword.mpr ht) <| .expect (Token.is_mark.mpr hopenP) <|
      Takes.bind (loopInitializer_takes hi) fun i' hi' =>
      Takes.bind (expressionUnless_takes hc hsemicolon rfl rfl) fun c' hc' =>
      .expect (Token.is_mark.mpr hsemicolon) <|
      Takes.bind (expressionUnless_takes hs hcloseP rfl rfl) fun e' he' =>
      .expect (Token.is_mark.mpr hcloseP) <|
      Takes.bind_last (ih bound us₄ left rfl (by omega) hl) fun b' hb' => Takes.pure ?_
    rw [Stmt.Same, Stmt.bare_loopStmt, Stmt.bare_loopStmt, hi', hc', he', hb']
  | ifThen hc _ ih =>
    intro bound us left hu hb hl
    obtain ⟨bound, rfl⟩ := exists_succ_of_le hb
    obtain ⟨t, openP, us₁, closeP, us₂, rfl, hif, hopenP, rfl, hcloseP, rfl⟩ := exists_condition hu
    simp only [List.length_append, List.length_cons] at hb
    refine .decline (forall_head (by simp [Token.is_keyword, hif])) <|
      .accept (Token.is_keyword.mpr hif) <| condition_takes hopenP hc hcloseP fun c' hc' =>
      Takes.bind_last (ih bound us₂ left rfl (by omega) fun _ => hl rfl) fun t' ht' =>
      .decline (hl rfl) <| Takes.pure ?_
    rw [Stmt.Same, Stmt.bare, Stmt.bare, hc', ht']
  | ifElse hc _ _ iht ihe =>
    intro bound us left hu hb hl
    obtain ⟨bound, rfl⟩ := exists_succ_of_le hb
    obtain ⟨us₁₂, us₃', rfl, hu₁₂, hu₃'⟩ := List.map_eq_append_iff.mp hu
    obtain ⟨t, openP, us₁, closeP, us₂, rfl, hif, hopenP, rfl, hcloseP, rfl⟩ :=
      exists_condition hu₁₂
    obtain ⟨elseT, us₃, rfl, helse, rfl⟩ := List.map_eq_cons_iff.mp hu₃'
    simp only [List.length_append, List.length_cons] at hb
    simp only [List.append_assoc, List.cons_append]
    refine .decline (forall_head (by simp [Token.is_keyword, hif])) <|
      .accept (Token.is_keyword.mpr hif) <| condition_takes hopenP hc hcloseP fun c' hc' =>
      Takes.bind (iht bound us₂ _ rfl (by omega) (by simp)) fun t' ht' =>
      .accept (Token.is_keyword.mpr helse) <|
      Takes.bind_last (ihe bound us₃ left rfl (by omega) hl) fun e' he' => Takes.pure ?_
    rw [Stmt.Same, Stmt.bare, Stmt.bare, hc', ht', he']
  | «while» hc _ ih =>
    intro bound us left hu hb hl
    obtain ⟨bound, rfl⟩ := exists_succ_of_le hb
    obtain ⟨t, openP, us₁, closeP, us₂, rfl, hwhile, hopenP, rfl, hcloseP, rfl⟩ :=
      exists_condition hu
    simp only [List.length_append, List.length_cons] at hb
    refine .decline (forall_head (by simp [Token.is_keyword, hwhile])) <|
      .decline (forall_head (by simp [Token.is_keyword, hwhile])) <|
      .accept (Token.is_keyword.mpr hwhile) <| condition_takes hopenP hc hcloseP fun c' hc' =>
      Takes.bind_last (ih bound us₂ left rfl (by omega) hl) fun b' hb' => Takes.pure ?_
    rw [Stmt.Same, Stmt.bare, Stmt.bare, hc', hb']
  | «return» line h =>
    intro bound us left hu hb hl
    obtain ⟨bound, rfl⟩ := exists_succ_of_le hb
    obtain ⟨us', semicolon', rfl, hus', hs'⟩ := List.map_eq_append_iff.mp hu
    obtain ⟨t, us, rfl, ht, rfl⟩ := List.map_eq_cons_iff.mp hus'
    obtain ⟨semicolon, rfl, hs⟩ := List.map_eq_singleton_iff.mp hs'
    exact .decline (forall_head (by simp [Token.is_keyword, ht])) <|
      .decline (forall_head (by simp [Token.is_keyword, ht])) <|
      .decline (forall_head (by simp [Token.is_keyword, ht])) <|
      .accept? (Token.is_keyword.mpr ht) (returnStmt_takes t.line line h hs)
  | block body hr ih =>
    intro bound us left hu hb hl
    obtain ⟨bound, rfl⟩ := exists_succ_of_le hb
    obtain ⟨us', close', rfl, hus', hs'⟩ := List.map_eq_append_iff.mp hu
    obtain ⟨t, us, rfl, ht, hus⟩ := List.map_eq_cons_iff.mp hus'
    obtain ⟨close, rfl, hclose⟩ := List.map_eq_singleton_iff.mp hs'
    simp only [List.length_append, List.length_cons] at hb
    have hitems : Takes (items bound true) us (close :: left) fun ss =>
        ss.map Stmt.bare = (body.map (·.2)).map Stmt.bare :=
      items_takes hr ih hus (by omega) (endsItems_brace hclose)
    refine .decline (forall_head (by simp [Token.is_keyword, ht])) <|
      .decline (forall_head (by simp [Token.is_keyword, ht])) <|
      .decline (forall_head (by simp [Token.is_keyword, ht])) <|
      .accept?_none (forall_head (by simp [Token.is_keyword, ht])) <|
      .accept (Token.is_mark.mpr ht) <| Takes.bind hitems fun ss hss =>
      .expect (Token.is_mark.mpr hclose) <| Takes.pure ?_
    rw [Stmt.Same, Stmt.bare, Stmt.bare, Stmt.bareAll_eq_map, Stmt.bareAll_eq_map, hss]

/-- A text whose tokens read as statements has no faults, and the statements are read up to lines
and node numbers. -/
theorem Program.ofTokens_complete {tokens : List Token} {ss : List Stmt}
    (h : ReadsItems ((tokensBeforeEnd tokens).map Token.sign) ss) (nextId : Nat) :
    (Program.ofTokens nextId tokens).errors = [] ∧
      (Program.ofTokens nextId tokens).body.map Stmt.bare = ss.map Stmt.bare := by
  obtain ⟨body, hu, rfl, hr⟩ := h
  have hitems : Takes (items (3 * (tokensBeforeEnd tokens).length + 3) false)
      (tokensBeforeEnd tokens) [] fun ss => ss.map Stmt.bare = (body.map (·.2)).map Stmt.bare :=
    items_takes hr (fun p hp => (hr p hp).answers) hu (Nat.le_refl _) rfl
  obtain ⟨ss, n, hss, hrun⟩ := hitems [] nextId
  rw [List.append_nil] at hrun
  have hprogram : Program.ofTokens nextId tokens = ⟨ss, [], n⟩ := by
    simp only [Program.ofTokens, hrun, pure_apply]
  rw [hprogram]
  exact ⟨rfl, hss⟩

end Treewalk
