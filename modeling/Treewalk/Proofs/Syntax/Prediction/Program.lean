import Treewalk.Proofs.Syntax.Joining
import Treewalk.Proofs.Syntax.Prediction.Expression

/-!
# Statements as expected

The readers of statements and declarations expect the texts of their rules, followed by what may
follow. An `else` that follows a statement is taken for a part of it, so a statement and what follows
it must go on to be possible then.

At the end of a block the reader looks for the closing brace, and at the end of the text for none.

## Main definitions

* `Stmt.Precedes`: what may follow a statement.
* `Reader.StatementsExpect`: the readers that call each other, and what they expect.

## Main results

* `Reader.StatementsExpect.all`: statements and declarations.
* `Reader.items_meets`: the items of a program.
-/

namespace Treewalk

open scoped Computability
open Ebnf

/-! ### What follows -/

/-- The texts of a language may follow a statement: where one begins with an `else`, a statement
follows it, and then again what may follow. -/
structure Stmt.Precedes (K : Language Sign) : Prop where
  nonempty : ∃ w, w ∈ K
  absorbs : ∀ w, .keyword .elseWord :: w ∈ K → w ∈ Rule.statement.texts * K

namespace Stmt.Precedes

variable {K : Language Sign}

theorem of_begins {p : Sign → Prop} (hne : ∃ w, w ∈ K) (hK : Begins K p)
    (hp : ¬ p (.keyword .elseWord)) : Stmt.Precedes K :=
  ⟨hne, fun _ hw => absurd (hK.cons hw) hp⟩

/-- Declarations may follow a statement, if what comes after them is none and no `else`. -/
theorem declarations {p : Sign → Prop} (hne : ∃ w, w ∈ K) (hK : Begins K p)
    (hp : ¬ p (.keyword .elseWord)) : Stmt.Precedes (Rule.declaration.texts∗ * K) := by
  refine of_begins (p := fun s => Phrase.item.opens s ∨ p s) (exists_mem_star_mul _ hne)
    ((begins_declaration.mono fun _ => .inl).star_mul (hK.mono fun _ => .inr)) ?_
  rintro (h | h)
  · cases h
  · exact hp h

/-- After the statement behind a condition there may be an `else` that belongs to it. -/
theorem optionalElse (h : Stmt.Precedes K) :
    Stmt.Precedes ((word .elseWord).texts * (Rule.statement.texts * K) + K) := by
  obtain ⟨w, hw⟩ := h.nonempty
  refine ⟨⟨w, .inr hw⟩, fun w hw => ?_⟩
  have hlast : w ∈ Rule.statement.texts * K := by
    rcases hw with hw | hw
    · rw [texts_terminal] at hw
      exact (cons_mem_single_mul.mp hw).2
    · exact h.absorbs w hw
  rw [mul_add]
  exact .inr hlast

end Stmt.Precedes

/-! ### Beginnings and parts -/

theorem exists_mem_optional_mul (L : Language Sign) {K : Language Sign} (h : ∃ w, w ∈ K) :
    ∃ w, w ∈ (L + 1) * K := by
  obtain ⟨w, hw⟩ := h
  rw [add_mul, one_mul]
  exact ⟨w, .inr hw⟩

namespace Reader

variable {n bound : Nat} {K : Language Sign}

/-! ### Parts of statements -/

theorem expressionUnless_expects {m : Mark} (hm : (Sign.mark m).joins? = none)
    (ho : (Sign.mark m).opensExpression = false) (hK : Begins K (·.Fits (.mark m)))
    (hne : ∃ w, w ∈ K) :
    Expects (expressionUnless (.mark m)) n ((Rule.assignment.texts + 1) * K) K := by
  rw [add_mul, one_mul, add_comm]
  exact .check rfl (.pure none hne) ((expression_expects (.of_mark hm hK hne)).bind fun e =>
    .pure (some e) hne) hK (begins_assignment.mul.not_mark (Bool.eq_false_iff.mp ho))

theorem initializer?_expects (hK : Begins K (·.Fits (.mark .semicolon))) (hne : ∃ w, w ∈ K) :
    Expects initializer? n (((mark .equal).texts * Rule.assignment.texts + 1) * K) K := by
  rw [add_mul, one_mul, mul_assoc]
  exact .accept rfl ((expression_expects (.of_mark rfl hK hne)).bind fun e => .pure (some e) hne)
    (.pure none hne) (hK.not_mark nofun)

theorem variableDecl_expects (hne : ∃ w, w ∈ K) : Expects variableDecl n (identifier.texts *
    (((mark .equal).texts * Rule.assignment.texts + 1) * ((mark .semicolon).texts * K))) K :=
  .expect rfl rfl fun name => (initializer?_expects (.mul (.terminal fun _ => id))
    (Terminal.exists_mem_mul _ hne)).bind fun e => .expect rfl rfl fun _ =>
      .pure (Stmt.variable name.toName e) hne

theorem expressionStmt_expects (hne : ∃ w, w ∈ K) :
    Expects expressionStmt n (Rule.exprStmt.texts * K) K := by
  rw [texts_exprStmt, mul_assoc]
  exact (expression_expects (.mark_mul rfl hne)).bind fun e => .expect rfl rfl fun _ =>
    .pure (Stmt.expression e) hne

theorem returnStmt_expects (line : Nat) (hne : ∃ w, w ∈ K) : Expects (returnStmt line) n
    ((Rule.assignment.texts + 1) * ((mark .semicolon).texts * K)) K :=
  (expressionUnless_expects rfl rfl (.mul (.terminal fun _ => id))
    (Terminal.exists_mem_mul _ hne)).bind fun e => .expect rfl rfl fun _ =>
      .pure (Stmt.return line e) hne

theorem loopInitializer_expects (hne : ∃ w, w ∈ K) : Expects loopInitializer n
    (((mark .semicolon).texts + (Rule.varDecl.texts + Rule.exprStmt.texts)) * K) K := by
  rw [add_mul, add_mul, texts_varDecl]
  simp only [mul_assoc]
  refine .accept rfl (.pure none hne)
    (.accept rfl ((variableDecl_expects hne).bind fun s => .pure (some s) hne)
      ((expressionStmt_expects hne).bind fun s => .pure (some s) hne)
      (begins_exprStmt.mul.not_word nofun)) ?_
  exact .add (.mul (.word nofun)) (begins_exprStmt.mul.not_mark nofun)

theorem superclass?_expects (hK : Begins K (·.Fits (.mark .leftBrace))) (hne : ∃ w, w ∈ K) :
    Expects superclass? n (((mark .less).texts * identifier.texts + 1) * K) K := by
  rw [add_mul, one_mul, mul_assoc]
  exact .accept rfl (.expect rfl rfl fun name => .freshId fun id =>
    .pure (some (⟨id, name.toName⟩ : Superclass)) hne) (.pure none hne) (hK.not_mark nofun)

/-- Parameters, with commas between them, are followed by a parenthesis. -/
theorem parametersFrom_expects (hK : Begins K (·.Fits (.mark .rightParen))) (hne : ∃ w, w ∈ K)
    (hn : n ≤ bound) (count : Nat) :
    Expects (parametersFrom bound count) n (Rule.parameters.texts * K) K := by
  have hrest : Rule.parameters.texts * K =
      identifier.texts * ((mark .comma).texts * (Rule.parameters.texts * K) + K) := by
    rw [texts_parameters]
    exact separated_mul _ _ _
  induction bound generalizing n count with
  | zero =>
    obtain rfl := Nat.le_zero.mp hn
    refine .of_goes (Ensures.fail _) ?_
    rw [texts_parameters, mul_assoc]
    exact Terminal.exists_mem_mul _ (exists_mem_star_mul _ hne)
  | succ bound ih =>
    rw [hrest]
    exact .noteBeyond rfl (.expect rfl rfl fun first => .accept rfl
      ((ih (by omega) (count + 1)).bind fun others => .pure (first.toName :: others) hne)
      (.pure [first.toName] hne) (hK.not_mark nofun))

theorem parameters_expects (hK : Begins K (·.Fits (.mark .rightParen))) (hne : ∃ w, w ∈ K) :
    Expects parameters n ((Rule.parameters.texts + 1) * K) K := by
  have hbegins : Begins (Rule.parameters.texts * K) fun s => ¬ s.Fits (.mark .rightParen) := by
    rw [texts_parameters]
    exact Begins.not_mark (.mul (.mul (.terminal fun _ => id))) nofun
  rw [add_mul, one_mul, add_comm]
  exact .check rfl (.pure [] hne) (.bounded fun hk _ => parametersFrom_expects hK hne hk 0) hK
    hbegins

/-! ### Statements -/

/-- What is read up to a closing brace: repetitions, of which none begins with the brace. -/
theorem untilEnd_expects {α : Type} {D : Language Sign} {p : Sign → Prop} {a : α} {x : Reader α}
    (hD : Begins D p) (hbrace : ¬ p (.mark .rightBrace)) (hend : ¬ p .endOfText)
    (hK : Begins K (·.Fits (.mark .rightBrace))) (hne : ∃ w, w ∈ K) (hgoes : Goes x)
    (hx : ∀ c, c.rest ≠ [] → c.rest.length < n → Meets (D * (D∗ * K)) K c (x c)) :
    Expects (untilEnd true a x) n (D∗ * K) K := by
  refine ⟨hgoes.untilEnd.goes, exists_mem_star_mul D hne, fun c hc => ?_⟩
  cases hends : endsItems true c.rest with
  | true =>
    rw [untilEnd_of_ends hends, ← pure_apply]
    refine .pure_star_mul a hD ?_
    cases hrest : c.rest with
    | nil => exact hend
    | cons t rest =>
      rw [hrest] at hends
      have hsign : nextSign (t :: rest) = .mark .rightBrace := Token.is_mark.mp hends
      rwa [hsign]
  | false =>
    rw [untilEnd_of_not_ends hends]
    have hrest : c.rest ≠ [] := by
      rintro hnil
      rw [hnil] at hends
      cases hends
    refine (hx c hrest hc).star_mul fun w hw => ?_
    obtain ⟨t, rest, hrest, ht⟩ :=
      (@nextSign_fits_iff (.mark .rightBrace) rfl c.rest).mp (hK.cons hw)
    rw [hrest] at hends
    exact absurd ht (Bool.eq_false_iff.mp hends)

/-- The readers that call each other, and what they expect. Their bounds suffice for the tokens that
they find. -/
structure StatementsExpect (bound : Nat) : Prop where
  item : ∀ {n K}, 3 * n ≤ bound + 1 → Stmt.Precedes K →
    Expects (item bound) n (Rule.declaration.texts * K) K
  statement : ∀ {n K}, 3 * n ≤ bound + 2 → Stmt.Precedes K →
    Expects (statement bound) n (Rule.statement.texts * K) K
  items : ∀ {n K}, 3 * n ≤ bound → Begins K (·.Fits (.mark .rightBrace)) → (∃ w, w ∈ K) →
    Expects (items bound true) n (Rule.declaration.texts∗ * K) K
  routine : ∀ {n K} kind, 3 * n ≤ bound + 2 → (∃ w, w ∈ K) →
    Expects (routine bound kind) n (Rule.function.texts * K) K
  methods : ∀ {n K}, 3 * n ≤ bound + 1 → Begins K (·.Fits (.mark .rightBrace)) → (∃ w, w ∈ K) →
    Expects (methods bound) n (Rule.function.texts∗ * K) K

namespace StatementsExpect

theorem zero : StatementsExpect 0 where
  item {n K} hn hK := by
    obtain rfl : n = 0 := by omega
    obtain ⟨ts, hts⟩ := exists_mem_declaration
    obtain ⟨w, hw⟩ := hK.nonempty
    exact .of_goes (Ensures.pure none).goes ⟨_, Language.append_mem_mul hts hw⟩
  statement {n K} hn hK := by
    obtain rfl : n = 0 := by omega
    obtain ⟨ts, hts⟩ := exists_mem_statement
    obtain ⟨w, hw⟩ := hK.nonempty
    exact .of_goes (Ensures.fail _) ⟨_, Language.append_mem_mul hts hw⟩
  items {n K} hn _ hne := by
    obtain rfl : n = 0 := by omega
    exact .of_goes (Ensures.pure []).goes (exists_mem_star_mul _ hne)
  routine {n K} kind hn hne := by
    obtain rfl : n = 0 := by omega
    obtain ⟨ts, hts⟩ := exists_mem_function
    obtain ⟨w, hw⟩ := hne
    exact .of_goes (Ensures.fail _) ⟨_, Language.append_mem_mul hts hw⟩
  methods {n K} hn _ hne := by
    obtain rfl : n = 0 := by omega
    exact .of_goes (Ensures.pure []).goes (exists_mem_star_mul _ hne)

variable (h : StatementsExpect bound)

include h

theorem statement_succ (hn : 3 * n ≤ bound + 3) (hK : Stmt.Precedes K) :
    Expects (Reader.statement (bound + 1)) n (Rule.statement.texts * K) K := by
  have hne := hK.nonempty
  have hstatement {k : Nat} {K : Language Sign} (hk : k ≤ n - 1) (hK : Stmt.Precedes K) :=
    h.statement (n := k) (by omega) hK
  have hbody := Terminal.exists_mem_mul (.mark .rightParen)
    (hstatement (Nat.zero_le _) hK).nonempty
  have hexpression {k : Keyword} (hk : (Sign.keyword k).opensExpression = false) :=
    (begins_exprStmt.mul (M := K)).not_word (Bool.eq_false_iff.mp hk)
  have helse : ((word .elseWord).texts * Rule.statement.texts + 1) * K =
      (word .elseWord).texts * (Rule.statement.texts * K) + K := by
    rw [add_mul, one_mul, mul_assoc]
  rw [texts_statement, add_mul, add_mul, add_mul, add_mul, add_mul, texts_forStmt, texts_ifStmt,
    texts_whileStmt, texts_returnStmt, texts_block]
  simp only [mul_assoc, helse]
  refine .accept rfl ?_ (.accept rfl ?_ (.accept rfl ?_ (.accept? rfl (fun t => ?_)
    (.accept rfl ?_ (expressionStmt_expects hne) (begins_exprStmt.mul.not_mark nofun)) ?_) ?_) ?_) ?_
  · have hincrement := exists_mem_optional_mul Rule.assignment.texts hbody
    have hcondition := exists_mem_optional_mul Rule.assignment.texts
      (Terminal.exists_mem_mul (.mark .semicolon) hincrement)
    exact .expect rfl rfl fun _ => (loopInitializer_expects hcondition).bind fun initializer =>
      (expressionUnless_expects rfl rfl (.mul (.terminal fun _ => id))
        (Terminal.exists_mem_mul _ hincrement)).bind fun condition => .expect rfl rfl fun _ =>
          (expressionUnless_expects rfl rfl (.mul (.terminal fun _ => id)) hbody).bind
            fun increment => .expect rfl rfl fun _ => (hstatement (by omega) hK).bind fun body =>
              .pure (loopStmt initializer condition increment body) hne
  · have hthen := (hstatement (Nat.zero_le _) hK.optionalElse).nonempty
    refine .expect rfl rfl fun _ => (expression_expects (.mark_mul rfl hthen)).bind
      fun condition => .expect rfl rfl fun _ =>
        (hstatement (by omega) hK.optionalElse).bind fun thenBranch => .accept_of_absorbs rfl
          ((hstatement (by omega) hK).bind fun elseBranch =>
            .pure (Stmt.ifElse condition thenBranch elseBranch) hne)
          (.pure (Stmt.ifThen condition thenBranch) hne) fun s w hs hw => ?_
    rw [Sign.fits_keyword.mp hs] at hw
    exact hK.absorbs w hw
  · exact .expect rfl rfl fun _ => (expression_expects (.of_mark rfl (.mul (.terminal fun _ => id))
      hbody)).bind fun condition => .expect rfl rfl fun _ =>
        (hstatement (by omega) hK).bind fun body => .pure (Stmt.while condition body) hne
  · exact returnStmt_expects t.line hne
  · exact (h.items (by omega) (.mul (.terminal fun _ => id))
      (Terminal.exists_mem_mul _ hne)).bind fun body => .expect rfl rfl fun _ =>
        .pure (Stmt.block body) hne
  · exact .add (.mul (.mark nofun)) (hexpression rfl)
  · exact .add (.mul (.word nofun)) (.add (.mul (.mark nofun)) (hexpression rfl))
  · exact .add (.mul (.word nofun)) (.add (.mul (.word nofun)) (.add (.mul (.mark nofun))
      (hexpression rfl)))
  · exact .add (.mul (.word nofun)) (.add (.mul (.word nofun)) (.add (.mul (.word nofun))
      (.add (.mul (.mark nofun)) (hexpression rfl))))

theorem declaration_expects (hn : 3 * n ≤ bound + 2) (hK : Stmt.Precedes K) :
    Expects (declaration bound) n (Rule.declaration.texts * K) K := by
  have hne := hK.nonempty
  have hstatement {k : Keyword} (hk : (Phrase.statement false).opens (.keyword k) = false) :
      Begins (Rule.statement.texts * K) fun s => ¬ s.Fits (.keyword k) := by
    refine begins_statement.mul.mono fun s hs hfits => ?_
    rw [Sign.fits_keyword.mp hfits, hk] at hs
    cases hs
  rw [texts_declaration, add_mul, add_mul, add_mul, texts_classDecl, texts_funDecl, texts_varDecl]
  simp only [mul_assoc]
  refine .accept rfl ?_ (.accept rfl ?_ (.accept rfl (variableDecl_expects hne)
    (h.statement hn hK) (hstatement rfl)) ?_) ?_
  · have hmethods := Terminal.exists_mem_mul (.mark .leftBrace)
      (exists_mem_star_mul Rule.function.texts (Terminal.exists_mem_mul (.mark .rightBrace) hne))
    exact .expect rfl rfl fun name => (superclass?_expects (.mul (.terminal fun _ => id))
      hmethods).bind fun superclass => .expect rfl rfl fun _ =>
        (h.methods (by omega) (.mul (.terminal fun _ => id)) (Terminal.exists_mem_mul _ hne)).bind
          fun methods => .expect rfl rfl fun _ =>
            .pure (Stmt.class name.toName superclass methods) hne
  · exact (h.routine .function (by omega) hne).bind fun decl => .pure (Stmt.function decl) hne
  · exact .add (.mul (.word nofun)) (hstatement rfl)
  · exact .add (.mul (.word nofun)) (.add (.mul (.word nofun)) (hstatement rfl))

theorem item_succ (hn : 3 * n ≤ bound + 2) (hK : Stmt.Precedes K) :
    Expects (Reader.item (bound + 1)) n (Rule.declaration.texts * K) K :=
  .orRecover (h.declaration_expects hn hK)

theorem items_succ (hn : 3 * n ≤ bound + 1) (hK : Begins K (·.Fits (.mark .rightBrace)))
    (hne : ∃ w, w ∈ K) :
    Expects (Reader.items (bound + 1) true) n (Rule.declaration.texts∗ * K) K := by
  have hgoes := (StatementYields.all bound).item.goes.bind fun first =>
    ((StatementYields.all bound).items true).goes.bind fun others =>
      Ensures.pure (first.toList ++ others)
  rw [Reader.items_succ]
  refine untilEnd_expects begins_declaration nofun nofun hK hne hgoes.goes fun c hc hlength => ?_
  have hitem := h.item (n := n) (by omega) (.declarations hne hK nofun)
  refine (hitem.meets c hlength).bind fun first d hfirst => ?_
  -- The item takes a token, which makes up for the depth that it costs.
  have hlt : d.rest.length < c.rest.length := by
    cases bound with
    | zero => omega
    | succ bound => exact StatementsKeep.item_length_lt hc hfirst
  exact ((h.items (n := n - 1) (by omega) hK hne).bind fun others =>
    .pure (first.toList ++ others) hne).meets d (by omega)

theorem routine_succ (kind : Routine) (hn : 3 * n ≤ bound + 3) (hne : ∃ w, w ∈ K) :
    Expects (Reader.routine (bound + 1) kind) n (Rule.function.texts * K) K := by
  have hbrace := Terminal.exists_mem_mul (.mark .rightBrace) hne
  have hbody := Terminal.exists_mem_mul (.mark .rightParen) (Terminal.exists_mem_mul
    (.mark .leftBrace) (exists_mem_star_mul Rule.declaration.texts hbrace))
  rw [texts_function, texts_block]
  simp only [mul_assoc]
  exact .expect rfl rfl fun name => .expect rfl rfl fun _ =>
    (parameters_expects (.mul (.terminal fun _ => id)) hbody).bind fun params =>
      .expect rfl rfl fun _ => .expect rfl rfl fun _ =>
        (h.items (by omega) (.mul (.terminal fun _ => id)) hbrace).bind fun body =>
          .expect rfl rfl fun _ => .pure (⟨name.toName, params, body⟩ : FunctionDecl) hne

theorem methods_succ (hn : 3 * n ≤ bound + 2) (hK : Begins K (·.Fits (.mark .rightBrace)))
    (hne : ∃ w, w ∈ K) :
    Expects (Reader.methods (bound + 1)) n (Rule.function.texts∗ * K) K := by
  have hgoes := (StatementsKeep.routine_takes bound .method).bind fun first =>
    (StatementYields.all bound).methods.goes.bind fun others => Ensures.pure (first :: others)
  rw [Reader.methods_succ]
  refine untilEnd_expects begins_function nofun nofun hK hne hgoes.goes fun c hc hlength => ?_
  have hroutine := h.routine (n := n) .method (by omega)
    (exists_mem_star_mul Rule.function.texts hne)
  refine (hroutine.meets c hlength).bind fun first d hfirst => ?_
  have hlt := (StatementsKeep.routine_takes bound .method).length_lt hfirst
  exact ((h.methods (n := n - 1) (by omega) hK hne).bind fun others =>
    .pure (first :: others) hne).meets d (by omega)

theorem succ : StatementsExpect (bound + 1) where
  item := h.item_succ
  statement := h.statement_succ
  items := h.items_succ
  routine := h.routine_succ
  methods := h.methods_succ

omit h in
theorem all : (bound : Nat) → StatementsExpect bound
  | 0 => zero
  | bound + 1 => (all bound).succ

end StatementsExpect

/-- The items of a program, up to the end of the text. -/
theorem items_meets (bound : Nat) (c : Cursor) (hbound : 3 * c.rest.length + 3 ≤ bound)
    (hend : ∀ t ∈ c.rest, t.kind.isEnd = false) :
    Meets Rule.program.texts (terminal .endOfText).texts c (items bound false c) := by
  rw [texts_program]
  induction bound generalizing c with
  | zero => omega
  | succ bound ih =>
    obtain ⟨_ | ⟨t, rest⟩, errors, id⟩ := c
    · rw [items_nil]
      exact Meets.pure_star_mul (c := ⟨[], errors, id⟩) [] begins_declaration nofun
    simp only [List.length_cons] at hbound
    have hlast : Begins (terminal .endOfText).texts (· = .endOfText) :=
      .terminal fun s hs => by cases s <;> first | rfl | exact hs.elim
    have hitem := (StatementsExpect.all bound).item (n := rest.length + 2) (by omega)
      (.declarations ⟨[.endOfText], .terminal trivial⟩ hlast nofun)
    rw [items_cons]
    have hmeets := (hitem.meets ⟨t :: rest, errors, id⟩ (Nat.lt_succ_self _)).bind
      (K := (terminal .endOfText).texts) (f := fun first => items bound false >>= fun others =>
        Pure.pure (first.toList ++ others)) fun first d hfirst => ?_
    · refine hmeets.star_mul fun w hw => ?_
      have hsign : t.sign = .endOfText := hlast.cons hw
      exact absurd (Token.isEnd_iff.mpr hsign) (by simp [hend t List.mem_cons_self])
    · obtain ⟨bound, rfl⟩ : ∃ k, bound = k + 1 := ⟨bound - 1, by omega⟩
      have hlt : d.rest.length < rest.length + 1 :=
        StatementsKeep.item_length_lt (List.cons_ne_nil t rest) hfirst
      have hsuffix := ((StatementYields.all _).item.goes.goesTo hfirst).suffix
      exact (ih d (by omega) fun t ht => hend t (hsuffix.subset ht)).bind fun _ _ _ => .pure _

end Reader

end Treewalk
