import Treewalk.Proofs.Syntax.Surrounded

/-!
# Tokens that end with a semicolon

Tokens that end with a semicolon, and in which no brace and no loop with clauses opens, are *closed*:
a semicolon ends every statement that can stand in them. So wherever a reader fails in closed tokens,
it fails before their end; and it takes the last one of them only where a statement ends with it.
This holds of all closed tokens, however many faults there are in them.

## Main definitions

* `Closed`: tokens that end with a semicolon and open nothing that goes on behind one.
* `Reader.Stays`: a reader that stays within closed tokens.

## Main results

* `Reader.declaration_stays`: declarations and statements stay within closed tokens.
* `Reader.item_within`: an item of closed tokens is the same before more tokens.
-/

namespace Treewalk

/-- Tokens that end with a semicolon and open no brace and no loop with clauses. -/
structure Closed (ts : List Token) : Prop where
  last : ∃ t, ts.getLast? = some t ∧ t.is (.mark .semicolon)
  plain : ∀ t ∈ ts, ¬ t.is (.mark .leftBrace) ∧ ¬ t.is (.keyword .forWord)

theorem Token.kind_of_is_mark {t : Token} {m : Mark} (h : t.is (.mark m)) : t.kind = .mark m := by
  obtain ⟨kind, lexeme, line⟩ := t
  cases kind <;> simp_all [Token.is, TokenKind.sameCategory]

namespace Closed

variable {ts us : List Token}

theorem ne_nil (h : Closed ts) : ts ≠ [] := by
  rintro rfl
  obtain ⟨t, ht, -⟩ := h.last
  cases ht

/-- What is left of closed tokens is closed. -/
theorem of_suffix (h : Closed ts) (hs : us <:+ ts) (hne : us ≠ []) : Closed us where
  last := by
    obtain ⟨t, hlast, ht⟩ := h.last
    obtain ⟨vs, rfl⟩ := hs
    rw [List.getLast?_append, List.getLast?_eq_some_getLast hne, Option.some_or] at hlast
    exact ⟨t, (List.getLast?_eq_some_getLast hne).trans hlast, ht⟩
  plain t ht := h.plain t (hs.subset ht)

/-- Behind a token of another kind than a semicolon there is another token. -/
theorem tail_ne_nil {t : Token} (h : Closed (t :: ts)) (ht : ¬ t.is (.mark .semicolon)) :
    ts ≠ [] := by
  rintro rfl
  obtain ⟨t', hlast, ht'⟩ := h.last
  cases hlast
  exact ht ht'

/-- Going on after a fault ends with the closed tokens at the latest. -/
theorem recover_append (h : Closed ts) (us : List Token) :
    recover (ts ++ us) = recover ts ++ us := by
  fun_induction recover ts with
  | case1 => exact absurd rfl h.ne_nil
  | case2 t rest ht => simp [recover, ht]
  | case3 t ht => exact absurd rfl (h.tail_ne_nil ht)
  | case4 t ht next rest hnext => simp [recover, ht, hnext]
  | case5 t ht next rest hnext ih =>
    rw [← ih (h.of_suffix (List.suffix_cons t _) (List.cons_ne_nil next rest))]
    simp [recover, ht, hnext]

end Closed

namespace Reader

variable {α β : Type}

/-- In closed tokens a reader fails before their end, and it answers before their end unless `all`
holds. -/
structure Stays (all : Prop) (x : Reader α) : Prop where
  suffix : ∀ {c a d}, Closed c.rest → x c = .ok a d → d.rest <:+ c.rest
  answer : ∀ {c a d}, Closed c.rest → x c = .ok a d → d.rest = [] → all
  failure : ∀ {c e d}, Closed c.rest → x c = .error e d → d.rest ≠ []

/-- A reader that answers where no token is left. -/
def AnswersAtEnd (x : Reader α) : Prop :=
  ∀ c, c.rest = [] → ∃ a d, d.rest = [] ∧ x c = .ok a d

/-! ### One reader after another -/

namespace Stays

variable {all : Prop} {x : Reader α} {f : α → Reader β}

protected theorem pure (a : α) : Stays all (Pure.pure a : Reader α) where
  suffix := by
    rintro c _ _ - ⟨⟩
    exact List.suffix_refl _
  answer := by
    rintro c _ _ hc ⟨⟩ hnil
    exact absurd hnil hc.ne_nil
  failure := by
    rintro c _ _ - ⟨⟩

protected theorem fail (fault : SyntaxFault) : Stays all (Reader.fail fault : Reader α) where
  suffix := by
    rintro c _ _ - ⟨⟩
  answer := by
    rintro c _ _ - ⟨⟩
  failure := by
    rintro c _ _ hc ⟨⟩
    exact hc.ne_nil

/-- One reader after another. -/
protected theorem bind (hx : Stays False x) (hf : ∀ a, Stays all (f a)) : Stays all (x >>= f) := by
  have hclosed {c c' : Cursor} {a : α} (hc : Closed c.rest) (hxa : x c = .ok a c') :
      Closed c'.rest := hc.of_suffix (hx.suffix hc hxa) (hx.answer hc hxa)
  constructor
  · intro c b d hc heq
    obtain ⟨a, c', hxa, hfb⟩ := exists_of_bind heq
    exact ((hf a).suffix (hclosed hc hxa) hfb).trans (hx.suffix hc hxa)
  · intro c b d hc heq
    obtain ⟨a, c', hxa, hfb⟩ := exists_of_bind heq
    exact (hf a).answer (hclosed hc hxa) hfb
  · intro c e d hc heq
    rcases error_of_bind heq with hxe | ⟨a, c', hxa, hfe⟩
    · exact hx.failure hc hxe
    · exact (hf a).failure (hclosed hc hxa) hfe

/-- One reader after another, where the first one may have taken the last token. -/
theorem bindLast (hx : Stays True x) (hf : ∀ a, Stays True (f a))
    (hend : ∀ a, AnswersAtEnd (f a)) : Stays True (x >>= f) where
  suffix {c b d} hc heq := by
    obtain ⟨a, c', hxa, hfb⟩ := exists_of_bind heq
    by_cases hnil : c'.rest = []
    · obtain ⟨b', d', hd', hfb'⟩ := hend a c' hnil
      rw [hfb'] at hfb
      cases hfb
      rw [hd']
      exact List.nil_suffix
    · exact ((hf a).suffix (hc.of_suffix (hx.suffix hc hxa) hnil) hfb).trans (hx.suffix hc hxa)
  answer _ _ _ := trivial
  failure {c e d} hc heq := by
    rcases error_of_bind heq with hxe | ⟨a, c', hxa, hfe⟩
    · exact hx.failure hc hxe
    · by_cases hnil : c'.rest = []
      · obtain ⟨b', d', -, hfb'⟩ := hend a c' hnil
        rw [hfb'] at hfe
        cases hfe
      · exact (hf a).failure (hc.of_suffix (hx.suffix hc hxa) hnil) hfe

/-- A reader whose bound is the number of tokens left. -/
protected theorem bounded {r : Nat → Reader α} (h : ∀ n, Stays all (r n)) :
    Stays all (Reader.bounded r) where
  suffix {c _ _} := (h c.rest.length).suffix
  answer {c _ _} := (h c.rest.length).answer
  failure {c _ _} := (h c.rest.length).failure

/-- A number is drawn first. -/
theorem freshId {f : Nat → Reader β} (h : ∀ id, Stays all (f id)) :
    Stays all (Reader.freshId >>= f) where
  suffix {c _ _} := (h c.nextId).suffix (c := { c with nextId := c.nextId + 1 })
  answer {c _ _} := (h c.nextId).answer (c := { c with nextId := c.nextId + 1 })
  failure {c _ _} := (h c.nextId).failure (c := { c with nextId := c.nextId + 1 })

/-- A fault is noted first. -/
theorem note {f : Unit → Reader β} (error : SyntaxError) (h : Stays all (f ())) :
    Stays all (Reader.note error >>= f) where
  suffix {c _ _} := h.suffix (c := { c with errors := c.errors ++ [error] })
  answer {c _ _} := h.answer (c := { c with errors := c.errors ++ [error] })
  failure {c _ _} := h.failure (c := { c with errors := c.errors ++ [error] })

/-! ### The next token -/

/-- The next token is looked at first. -/
theorem peek? {f : Option Token → Reader β} (h : ∀ t, Stays all (f t)) :
    Stays all (Reader.peek? >>= f) where
  suffix {c _ _} := (h c.rest.head?).suffix
  answer {c _ _} := (h c.rest.head?).answer
  failure {c _ _} := (h c.rest.head?).failure

/-- The next token is looked at for its kind. -/
theorem check {kind : TokenKind} {f : Bool → Reader β} (h : ∀ b, Stays all (f b)) :
    Stays all (Reader.check kind >>= f) :=
  peek? (f := fun t => f (t.any (·.is kind))) fun t => h (t.any (·.is kind))

theorem noteBeyond {f : Unit → Reader β} (count : Nat) (fault : SyntaxFault)
    (h : Stays all (f ())) : Stays all (Reader.noteBeyond count fault >>= f) := by
  unfold Reader.noteBeyond
  split
  · rw [Reader.noteHere, bind_assoc]
    exact .peek? fun t => .note ⟨t, fault⟩ h
  · exact h

/-- What a reader does at the next token. Behind a token that it takes there are closed tokens again;
what it does there is asked for only of tokens that closed ones can begin with. -/
theorem of_cons {x x' : Reader β} (h' : Stays all x')
    (h : ∀ t rest errors id, Closed (t :: rest) → x ⟨t :: rest, errors, id⟩ = x' ⟨t :: rest, errors, id⟩ ∨
      ∃ y, Stays all y ∧ ¬ t.is (.mark .semicolon) ∧
        x ⟨t :: rest, errors, id⟩ = y ⟨rest, errors, id⟩) : Stays all x := by
  have hrest {t : Token} {rest : List Token} (hc : Closed (t :: rest))
      (ht : ¬ t.is (.mark .semicolon)) : Closed rest :=
    hc.of_suffix (List.suffix_cons t rest) (hc.tail_ne_nil ht)
  constructor
  · rintro ⟨_ | ⟨t, rest⟩, errors, id⟩ b d hc heq
    · exact absurd rfl hc.ne_nil
    · rcases h t rest errors id hc with hx | ⟨y, hy, ht, hx⟩
      · exact h'.suffix hc (hx.symm.trans heq)
      · exact (hy.suffix (hrest hc ht) (hx.symm.trans heq)).trans (List.suffix_cons t rest)
  · rintro ⟨_ | ⟨t, rest⟩, errors, id⟩ b d hc heq
    · exact absurd rfl hc.ne_nil
    · rcases h t rest errors id hc with hx | ⟨y, hy, ht, hx⟩
      · exact h'.answer hc (hx.symm.trans heq)
      · exact hy.answer (hrest hc ht) (hx.symm.trans heq)
  · rintro ⟨_ | ⟨t, rest⟩, errors, id⟩ e d hc heq
    · exact absurd rfl hc.ne_nil
    · rcases h t rest errors id hc with hx | ⟨y, hy, ht, hx⟩
      · exact h'.failure hc (hx.symm.trans heq)
      · exact hy.failure (hrest hc ht) (hx.symm.trans heq)

section Accept

variable {kind : TokenKind} {f : Option Token → Reader β}

theorem accept?_cons (t : Token) (rest : List Token) (errors : List SyntaxError) (id : Nat) :
    (Reader.accept? kind >>= f) ⟨t :: rest, errors, id⟩ =
      if t.is kind then f (some t) ⟨rest, errors, id⟩ else f none ⟨t :: rest, errors, id⟩ := by
  by_cases ht : t.is kind <;> simp [bind_apply, Reader.accept?, ht]

/-- The next token is taken if it has a given kind; a semicolon has another one. -/
theorem accept? (hkind : (TokenKind.mark .semicolon).sameCategory kind = false)
    (h : ∀ t, Stays all (f (some t))) (h' : Stays all (f none)) :
    Stays all (Reader.accept? kind >>= f) := by
  refine .of_cons h' fun t rest errors id _ => ?_
  rw [accept?_cons]
  split
  · next ht =>
    refine .inr ⟨f (some t), h t, fun hs => ?_, rfl⟩
    rw [Token.is, Token.kind_of_is_mark hs, hkind] at ht
    cases ht
  · exact .inl rfl

/-- A brace or a loop with clauses does not open in closed tokens. -/
theorem accept?_opening (hkind : kind = .mark .leftBrace ∨ kind = .keyword .forWord)
    (h' : Stays all (f none)) : Stays all (Reader.accept? kind >>= f) := by
  refine .of_cons h' fun t rest errors id hc => .inl ?_
  have hplain := hc.plain t List.mem_cons_self
  rw [accept?_cons, if_neg]
  rcases hkind with rfl | rfl
  · exact hplain.1
  · exact hplain.2

end Accept

/-- The next token is taken if it has a given kind, and it is known whether it was. -/
theorem accept {kind : TokenKind} {f : Bool → Reader β}
    (hkind : (TokenKind.mark .semicolon).sameCategory kind = false) (h : Stays all (f true))
    (h' : Stays all (f false)) : Stays all (Reader.accept kind >>= f) := by
  rw [accept_bind]
  exact accept? hkind (fun _ => h) h'

/-- A brace or a loop with clauses does not open in closed tokens. -/
theorem acceptOpening {kind : TokenKind} {f : Bool → Reader β}
    (hkind : kind = .mark .leftBrace ∨ kind = .keyword .forWord) (h' : Stays all (f false)) :
    Stays all (Reader.accept kind >>= f) := by
  rw [accept_bind]
  exact accept?_opening hkind h'

/-- The next token is taken and must have a given kind; a semicolon has another one. -/
theorem expect {kind : TokenKind} {fault : SyntaxFault} {f : Token → Reader β}
    (hkind : (TokenKind.mark .semicolon).sameCategory kind = false) (h : ∀ t, Stays all (f t)) :
    Stays all (Reader.expect kind fault >>= f) := by
  rw [expect_bind]
  exact accept? hkind h (.fail fault)

/-- A brace that must open is not there. -/
theorem expectOpening {fault : SyntaxFault} {f : Token → Reader β} :
    Stays all (Reader.expect (.mark .leftBrace) fault >>= f) := by
  rw [expect_bind]
  exact accept?_opening (.inl rfl) (.fail fault)

/-- A semicolon ends a statement. -/
theorem expectLast {fault : SyntaxFault} (a : α) :
    Stays True (Reader.expect (.mark .semicolon) fault >>= fun _ => Pure.pure a) where
  suffix {c _ _} _ heq := (Ensures.expect fun _ => Ensures.pure a).goes.goesTo heq |>.suffix
  answer _ _ _ := trivial
  failure := by
    rintro ⟨_ | ⟨t, rest⟩, errors, id⟩ e d hc heq
    · exact absurd rfl hc.ne_nil
    · rw [expect_bind, accept?_cons] at heq
      split at heq
      · cases heq
      · cases heq
        exact List.cons_ne_nil t rest

/-- A token on which a function has a value is taken; a semicolon is none. -/
theorem acceptBy? {γ : Type} {v : Token → Option γ} {f : Option γ → Reader β}
    (hv : ∀ t : Token, t.kind = .mark .semicolon → v t = none) (h : ∀ a, Stays all (f (some a)))
    (h' : Stays all (f none)) : Stays all (Reader.acceptBy? v >>= f) := by
  refine .of_cons h' fun t rest errors id _ => ?_
  rw [acceptBy?_bind, bind_apply, Reader.peek?]
  simp only [List.head?_cons, Option.bind_some]
  cases ha : v t with
  | none => exact .inl rfl
  | some a =>
    refine .inr ⟨f (some a), h a, fun hs => ?_, rfl⟩
    rw [hv t (Token.kind_of_is_mark hs)] at ha
    cases ha

end Stays

/-! ### Expressions -/

section Operands

variable {operand : Reader Expr} (h : Stays False operand)

include h

theorem chainFrom_stays (level : Level) (bound : Nat) (left : Expr) :
    Stays False (chainFrom level operand bound left) := by
  have hlevel (t : Token) (ht : t.kind = .mark .semicolon) : level.combine? t = none := by
    obtain ⟨_, lexeme, line⟩ := t
    obtain rfl : _ = TokenKind.mark .semicolon := ht
    cases level <;> rfl
  induction bound generalizing left with
  | zero => exact .pure left
  | succ bound ih =>
    exact .acceptBy? hlevel (fun combine => h.bind fun right => ih (combine left right)) (.pure left)

theorem chain_stays (level : Level) : Stays False (chain level operand) :=
  h.bind fun left => .bounded fun bound => chainFrom_stays h level bound left

theorem equality_stays : Stays False (equality operand) :=
  chain_stays (chain_stays (chain_stays (chain_stays h _) _) _) _

theorem argumentsFrom_stays (bound count : Nat) :
    Stays False (argumentsFrom operand bound count) := by
  induction bound generalizing count with
  | zero => exact .fail _
  | succ bound ih =>
    exact .noteBeyond count _ (h.bind fun first =>
      .accept rfl ((ih (count + 1)).bind fun others => .pure (first :: others)) (.pure [first]))

theorem arguments_stays : Stays False (arguments operand) := by
  refine .check fun b => ?_
  cases b with
  | true => exact .pure []
  | false => exact .bounded fun bound => argumentsFrom_stays h (bound + 1) 0

theorem callOf_stays (callee : Expr) : Stays False (callOf operand callee) :=
  (arguments_stays h).bind fun es => .expect rfl fun t => .pure (Expr.call callee t.line es)

theorem suffixes_stays (bound : Nat) (e : Expr) : Stays False (suffixes operand bound e) := by
  induction bound generalizing e with
  | zero => exact .pure e
  | succ bound ih =>
    exact .accept rfl ((callOf_stays h e).bind fun e' => ih e')
      (.accept rfl (.expect rfl fun name => ih (.get e name.toName)) (.pure e))

theorem groupingOf_stays : Stays False (groupingOf operand) :=
  h.bind fun e => .expect rfl fun _ => .pure (Expr.grouping e)

omit h in
theorem superOf_stays (line : Nat) : Stays False (superOf line) :=
  .expect rfl fun _ => .expect rfl fun name => .freshId fun id =>
    .pure (Expr.super id line name.toName)

theorem primary_stays : Stays False (primary operand) := by
  have hliteral (t : Token) (ht : t.kind = .mark .semicolon) : t.literal? = none := by
    rw [Token.literal?, ht]
  exact .acceptBy? hliteral (fun l => .pure (Expr.literal l))
    (.accept? rfl (fun name => .freshId fun id => .pure (Expr.variable id name.toName))
      (.accept? rfl (fun t => .freshId fun id => .pure (Expr.this id t.line))
        (.accept? rfl (fun t => superOf_stays t.line)
          (.accept rfl (groupingOf_stays h) (.fail _)))))

theorem call_stays : Stays False (call operand) :=
  (primary_stays h).bind fun e => .bounded fun bound => suffixes_stays h bound e

end Operands

theorem assignTo_stays (target : Expr) (equals : Token) (value : Expr) :
    Stays False (assignTo target equals value) := by
  unfold assignTo
  split
  · exact .freshId fun id => .pure _
  · exact .pure _
  · exact .note _ (.pure target)

theorem levels_stay (bound : Nat) : Stays False (assignment bound) ∧
    Stays False (ternary bound) ∧ Stays False (unary bound) := by
  induction bound with
  | zero => exact ⟨.fail _, .fail _, .fail _⟩
  | succ bound ih =>
    obtain ⟨iha, iht, ihu⟩ := ih
    have hprefix (t : Token) (ht : t.kind = .mark .semicolon) :
        (t.unaryOp?.map fun op => Expr.unary op t.line) = none := by
      rw [Token.unaryOp?, ht]
      rfl
    refine ⟨?_, ?_, ?_⟩
    · exact (chain_stays (chain_stays iht _) _).bind fun target => .accept? rfl
        (fun equals => iha.bind fun value => assignTo_stays target equals value) (.pure target)
    · exact (equality_stays ihu).bind fun condition => .accept rfl
        ((equality_stays ihu).bind fun whenTrue => .expect rfl fun _ => iht.bind fun whenFalse =>
          .pure (Expr.ternary condition whenTrue whenFalse)) (.pure condition)
    · exact .acceptBy? hprefix (fun apply => ihu.bind fun e => .pure (apply e)) (call_stays iha)

theorem expression_stays : Stays False expression :=
  .bounded fun tokens => (levels_stay (3 * tokens + 3)).1

/-! ### Statements -/

theorem expressionUnless_stays (kind : TokenKind) : Stays False (expressionUnless kind) := by
  refine .check fun b => ?_
  cases b with
  | true => exact .pure none
  | false => exact expression_stays.bind fun e => .pure (some e)

theorem parametersFrom_stays (bound count : Nat) : Stays False (parametersFrom bound count) := by
  induction bound generalizing count with
  | zero => exact .fail _
  | succ bound ih =>
    exact .noteBeyond count _ (.expect rfl fun first => .accept rfl
      ((ih (count + 1)).bind fun others => .pure (first.toName :: others)) (.pure [first.toName]))

theorem parameters_stays : Stays False parameters := by
  refine .check fun b => ?_
  cases b with
  | true => exact .pure []
  | false => exact .bounded fun bound => parametersFrom_stays (bound + 1) 0

theorem initializer?_stays : Stays False initializer? :=
  .accept rfl (expression_stays.bind fun e => .pure (some e)) (.pure none)

theorem superclass?_stays : Stays False superclass? :=
  .accept rfl (.expect rfl fun name => .freshId fun id =>
    .pure (some (⟨id, name.toName⟩ : Superclass))) (.pure none)

theorem variableDecl_stays : Stays True variableDecl :=
  .expect rfl fun name => initializer?_stays.bind fun e =>
    .expectLast (Stmt.variable name.toName e)

theorem expressionStmt_stays : Stays True expressionStmt :=
  expression_stays.bind fun e => .expectLast (Stmt.expression e)

theorem returnStmt_stays (line : Nat) : Stays True (returnStmt line) :=
  (expressionUnless_stays _).bind fun e => .expectLast (Stmt.return line e)

theorem statement_stays (bound : Nat) : Stays True (statement bound) := by
  induction bound with
  | zero => exact .fail _
  | succ bound ih =>
    refine .acceptOpening (.inr rfl) (.accept rfl ?_ (.accept rfl ?_ (.accept? rfl
      (fun t => returnStmt_stays t.line) (.acceptOpening (.inl rfl) expressionStmt_stays))))
    · refine .expect rfl fun _ => expression_stays.bind fun condition => .expect rfl fun _ =>
        ih.bindLast (fun thenBranch => .accept rfl (ih.bindLast (fun elseBranch =>
          .pure (Stmt.ifElse condition thenBranch elseBranch)) fun _ c hc => ⟨_, c, hc, rfl⟩)
          (.pure (Stmt.ifThen condition thenBranch))) fun thenBranch c hc => ?_
      refine ⟨Stmt.ifThen condition thenBranch, c, hc, ?_⟩
      obtain ⟨_, errors, id⟩ := c
      obtain rfl : _ = [] := hc
      rfl
    · exact .expect rfl fun _ => expression_stays.bind fun condition => .expect rfl fun _ =>
        ih.bindLast (fun body => .pure (Stmt.while condition body)) fun _ c hc => ⟨_, c, hc, rfl⟩

/-- A class and a function have a body in braces, which is not there. -/
theorem declaration_stays (bound : Nat) : Stays True (declaration bound) := by
  have hroutine : Stays True (routine bound .function >>= fun decl => pure (Stmt.function decl)) := by
    cases bound with
    | zero => exact .fail _
    | succ bound =>
      simp only [routine, bind_assoc]
      exact .expect rfl fun name => .expect rfl fun _ => parameters_stays.bind fun params =>
        .expect rfl fun _ => .expectOpening
  exact .accept rfl (.expect rfl fun name => superclass?_stays.bind fun superclass => .expectOpening)
    (.accept rfl hroutine (.accept rfl variableDecl_stays (statement_stays bound)))

/-- An item that has no fault is the same before more tokens, and so is an item of closed tokens,
whatever faults it has. -/
theorem item_within {s : Surroundings} {bound bound' : Nat} (hs : NoElse s.later)
    (hle : bound + 1 ≤ bound') {c d : Cursor} {a : Option Stmt}
    (hbound : 3 * c.rest.length + 1 ≤ bound) (h : item (bound + 1) c = .ok a d)
    (hc : d.errors = c.errors ∨ Closed c.rest) :
    item bound' (c.within s) = .ok a (d.within s) := by
  obtain ⟨bound', rfl⟩ : ∃ k, bound' = k + 1 := ⟨bound' - 1, by omega⟩
  have hat := ((StatementsKeep.all hs bound).declaration_keeps (n := c.rest.length + 1)
    (Nat.le_of_succ_le_succ hle) (by omega)).same c (Nat.lt_succ_self _)
  rw [item_succ] at h ⊢
  cases hr : declaration bound c with
  | ok s' c' =>
    rw [orRecover_of_ok hr] at h
    cases h
    exact orRecover_of_ok (hat.answer hr fun _ _ => trivial)
  | error e c' =>
    rw [orRecover_of_error hr] at h
    cases h
    have hgoes := (StatementsKeep.declaration_takes bound).goes.goesTo_error hr
    have hclosed : Closed c.rest := by
      refine hc.resolve_left fun heq => ?_
      obtain ⟨_, _, hl⟩ := hgoes
      simp [hl.errors] at heq
    have hne := (declaration_stays bound).failure hclosed hr
    have hleft := (hclosed.of_suffix hgoes.suffix hne).recover_append s.later
    rw [orRecover_of_error (hat.failure hr fun _ => hne)]
    simp [Cursor.within, hleft]

end Reader

end Treewalk
