import Treewalk.Proofs.Syntax.Completeness.Program
import Treewalk.Proofs.Syntax.Keeping
import Treewalk.Proofs.Syntax.Soundness.Program

/-!
# Statements among other tokens

The readers of expressions and statements do the same among other tokens, with the same faults or
without any, unless they leave no token. A statement that is read to its end does the same even then:
it ends with a semicolon or a brace, and what follows cannot be taken for the rest of it, since an
`else` begins none.

The bounds that `Program.ofTokens` and `Reader.expression` start from suffice: each of them allows
three levels for each token, and no token is taken by more than three readers that call each other.

## Main definitions

* `Reader.declaration`: what an item is, when it can be read.
* `Reader.StatementsKeep`: the readers that call each other, among other tokens.

## Main results

* `Reader.expression_keeps`: expressions among other tokens.
* `Reader.StatementsKeep.all`: statements among other tokens.
-/

namespace Treewalk

/-! ### Going on after a fault -/

/-- The place where reading goes on is found before more tokens, if it is not their beginning. -/
theorem recover_append {ts : List Token} (us : List Token) (h : recover ts ≠ []) :
    recover (ts ++ us) = recover ts ++ us := by
  fun_induction recover ts with
  | case1 => exact absurd rfl h
  | case2 t rest ht => simp [recover, ht]
  | case3 t ht => exact absurd rfl h
  | case4 t ht next rest hnext => simp [recover, ht, hnext]
  | case5 t ht next rest hnext ih =>
    rw [← ih h]
    simp [recover, ht, hnext]

/-- Going on after a fault passes over a token. -/
theorem recover_length_lt {ts : List Token} (h : ts ≠ []) : (recover ts).length < ts.length := by
  fun_induction recover ts with
  | case1 => exact absurd rfl h
  | case2 t rest => exact Nat.lt_succ_self _
  | case3 t => exact Nat.zero_lt_succ _
  | case4 t _ next rest => exact Nat.lt_succ_self _
  | case5 t _ next rest _ ih =>
    exact Nat.lt_succ_of_lt (ih (List.cons_ne_nil next rest))

namespace Reader

variable {s : Surroundings} {n bound bound' : Nat}

/-! ### Expressions -/

theorem chainFrom_nil (level : Level) (operand : Reader Expr) (bound : Nat) (left : Expr)
    {c : Cursor} (hc : c.rest = []) : chainFrom level operand bound left c = .ok left c := by
  cases bound with
  | zero => rfl
  | succ bound =>
    rw [chainFrom, acceptBy?_bind, bind_apply, peek?, hc]
    rfl

theorem suffixes_nil (argument : Reader Expr) (bound : Nat) (e : Expr) {c : Cursor}
    (hc : c.rest = []) : suffixes argument bound e c = .ok e c := by
  obtain ⟨_, errors, id⟩ := c
  obtain rfl : _ = [] := hc
  cases bound <;> rfl

section Operands

variable {operand operand' : Reader Expr}

theorem chainFrom_keeps (h : Keeps False n s operand operand') (level : Level)
    (hle : bound ≤ bound') (hn : n ≤ bound + 1) (left : Expr) :
    Keeps False n s (chainFrom level operand bound left)
      (chainFrom level operand' bound' left) := by
  induction bound generalizing bound' n left with
  | zero =>
    refine ⟨(Ensures.pure left).goes, fun c hc => ⟨?_, ?_⟩⟩
    · rintro _ _ ⟨⟩ hrest
      have hnil : c.rest = [] := List.eq_nil_of_length_eq_zero (by omega)
      have hs : s.later = [] := Classical.not_not.mp fun hs => hrest hs hnil
      exact chainFrom_nil level operand' bound' left (by simp [Cursor.within, hnil, hs])
    · rintro _ _ ⟨⟩
  | succ bound ih =>
    obtain ⟨bound', rfl⟩ : ∃ k, bound' = k + 1 := ⟨bound' - 1, by omega⟩
    have hle : bound ≤ bound' := Nat.le_of_succ_le_succ hle
    have hless := h.of_le (Nat.sub_le n 1)
    exact .acceptBy? (fun combine => hless.bindOpen (fun right =>
      ih hless hle (by omega) (combine left right)) False.elim) (.pure left) False.elim

theorem chain_keeps (h : Keeps False n s operand operand') (level : Level) :
    Keeps False n s (chain level operand) (chain level operand') :=
  h.bindOpen (fun left => .bounded fun hle hk hn =>
    chainFrom_keeps (h.of_le hn) level hle hk left) False.elim

theorem equality_keeps (h : Keeps False n s operand operand') :
    Keeps False n s (equality operand) (equality operand') :=
  chain_keeps (chain_keeps (chain_keeps (chain_keeps h _) _) _) _

theorem argumentsFrom_keeps (h : Keeps False n s operand operand') (hle : bound ≤ bound')
    (hn : n ≤ bound) (count : Nat) :
    Keeps False n s (argumentsFrom operand bound count) (argumentsFrom operand' bound' count) := by
  induction bound generalizing bound' n count with
  | zero =>
    obtain rfl := Nat.le_zero.mp hn
    exact .of_goes (Ensures.fail _) _
  | succ bound ih =>
    obtain ⟨bound', rfl⟩ : ∃ k, bound' = k + 1 := ⟨bound' - 1, by omega⟩
    have hle : bound ≤ bound' := Nat.le_of_succ_le_succ hle
    exact .noteBeyond count _ (h.bindOpen (fun first => .accept
      ((ih (h.of_le (Nat.sub_le n 1)) hle (by omega) (count + 1)).bindOpen
        (fun others => .pure (first :: others)) False.elim)
      (.pure [first]) False.elim) False.elim) False.elim

theorem arguments_keeps (h : Keeps False n s operand operand') :
    Keeps False n s (arguments operand) (arguments operand') := by
  refine .check (fun b => ?_) False.elim
  cases b with
  | true => exact .pure []
  | false =>
    exact .bounded fun hle hk hn =>
      argumentsFrom_keeps (h.of_le hn) (Nat.succ_le_succ hle) hk 0

theorem callOf_keeps (h : Keeps False n s operand operand') (callee : Expr) :
    Keeps False n s (callOf operand callee) (callOf operand' callee) :=
  (arguments_keeps h).bindOpen (fun es => .expect fun t => .pure (Expr.call callee t.line es))
    False.elim

/-- An opening parenthesis comes before the arguments. -/
theorem suffixes_keeps (h : Keeps False (n - 1) s operand operand') (hle : bound ≤ bound')
    (hn : n ≤ bound + 1) (e : Expr) :
    Keeps False n s (suffixes operand bound e) (suffixes operand' bound' e) := by
  induction bound generalizing bound' n e with
  | zero =>
    refine ⟨(Ensures.pure e).goes, fun c hc => ⟨?_, ?_⟩⟩
    · rintro _ _ ⟨⟩ hrest
      have hnil : c.rest = [] := List.eq_nil_of_length_eq_zero (by omega)
      have hs : s.later = [] := Classical.not_not.mp fun hs => hrest hs hnil
      exact suffixes_nil operand' bound' e (by simp [Cursor.within, hnil, hs])
    · rintro _ _ ⟨⟩
  | succ bound ih =>
    obtain ⟨bound', rfl⟩ : ∃ k, bound' = k + 1 := ⟨bound' - 1, by omega⟩
    have hle : bound ≤ bound' := Nat.le_of_succ_le_succ hle
    have hless := h.of_le (Nat.sub_le _ 1)
    exact .accept ((callOf_keeps h e).bindOpen (fun e' => ih hless hle (by omega) e') False.elim)
      (.accept (.expect fun name => ih (hless.of_le (Nat.sub_le _ 1)) hle (by omega)
        (.get e name.toName)) (.pure e) False.elim) False.elim

theorem groupingOf_keeps (h : Keeps False n s operand operand') :
    Keeps False n s (groupingOf operand) (groupingOf operand') :=
  h.bindOpen (fun e => .expect fun _ => .pure (Expr.grouping e)) False.elim

theorem superOf_keeps (line : Nat) : Keeps False n s (superOf line) (superOf line) :=
  .expect fun _ => .expect fun name => .freshId fun id => .pure (Expr.super id line name.toName)

/-- An opening parenthesis comes before the inner expression. -/
theorem primary_keeps (h : Keeps False (n - 1) s operand operand') :
    Keeps False n s (primary operand) (primary operand') :=
  .acceptBy? (fun l => .pure (Expr.literal l))
    (.accept? (fun name => .freshId fun id => .pure (Expr.variable id name.toName))
      (.accept? (fun t => .freshId fun id => .pure (Expr.this id t.line))
        (.accept? (fun t => superOf_keeps t.line)
          (.accept (groupingOf_keeps h) (.fail _) False.elim) False.elim) False.elim) False.elim)
    False.elim

theorem call_keeps (h : Keeps False (n - 1) s operand operand') :
    Keeps False n s (call operand) (call operand') :=
  (primary_keeps h).bindOpen (fun e => .bounded fun hle hk hn =>
    suffixes_keeps (h.of_le (Nat.sub_le_sub_right hn 1)) hle hk e) False.elim

end Operands

theorem assignTo_keeps (target : Expr) (equals : Token) (value : Expr) :
    Keeps False n s (assignTo target equals value) (assignTo target equals value) := by
  unfold assignTo
  split
  · exact .freshId fun id => .pure _
  · exact .pure _
  · exact (Keeps.note _).bind fun _ => .pure target

theorem levels_keep (hle : bound ≤ bound') :
    (∀ {n}, 3 * n ≤ bound → Keeps False n s (assignment bound) (assignment bound')) ∧
      (∀ {n}, 3 * n ≤ bound + 1 → Keeps False n s (ternary bound) (ternary bound')) ∧
      ∀ {n}, 3 * n ≤ bound + 2 → Keeps False n s (unary bound) (unary bound') := by
  induction bound generalizing bound' with
  | zero =>
    refine ⟨fun {n} hn => ?_, fun {n} hn => ?_, fun {n} hn => ?_⟩ <;>
    · obtain rfl : n = 0 := by omega
      exact .of_goes (Ensures.fail _) _
  | succ bound ih =>
    obtain ⟨bound', rfl⟩ : ∃ k, bound' = k + 1 := ⟨bound' - 1, by omega⟩
    obtain ⟨iha, iht, ihu⟩ := ih (Nat.le_of_succ_le_succ hle)
    refine ⟨fun {n} hn => ?_, fun {n} hn => ?_, fun {n} hn => ?_⟩
    · exact (chain_keeps (chain_keeps (iht (by omega)) _) _).bindOpen (fun target =>
        .accept? (fun equals => (iha (by omega)).bindOpen
            (fun value => assignTo_keeps target equals value) False.elim)
          (.pure target) False.elim) False.elim
    · exact (equality_keeps (ihu (by omega))).bindOpen (fun condition => .accept
        ((equality_keeps (ihu (by omega))).bindOpen (fun whenTrue => .expect fun _ =>
          (iht (by omega)).bindOpen
            (fun whenFalse => .pure (Expr.ternary condition whenTrue whenFalse)) False.elim)
          False.elim)
        (.pure condition) False.elim) False.elim
    · exact .acceptBy? (fun apply => (ihu (by omega)).bindOpen (fun e => .pure (apply e))
        False.elim) (call_keeps (iha (by omega))) False.elim

theorem expression_keeps : Keeps False n s expression expression :=
  .bounded fun hle hk _ => (levels_keep (by omega)).1 (by omega)

/-! ### Parts of statements -/

theorem expressionUnless_keeps (kind : TokenKind) :
    Keeps False n s (expressionUnless kind) (expressionUnless kind) := by
  refine .check (fun b => ?_) False.elim
  cases b with
  | true => exact .pure none
  | false => exact expression_keeps.bindOpen (fun e => .pure (some e)) False.elim

theorem parametersFrom_keeps (hle : bound ≤ bound') (hn : n ≤ bound) (count : Nat) :
    Keeps False n s (parametersFrom bound count) (parametersFrom bound' count) := by
  induction bound generalizing bound' n count with
  | zero =>
    obtain rfl := Nat.le_zero.mp hn
    exact .of_goes (Ensures.fail _) _
  | succ bound ih =>
    obtain ⟨bound', rfl⟩ : ∃ k, bound' = k + 1 := ⟨bound' - 1, by omega⟩
    have hle : bound ≤ bound' := Nat.le_of_succ_le_succ hle
    exact .noteBeyond count _ (.expect fun first => .accept
      ((ih hle (by omega) (count + 1)).bindOpen (fun others => .pure (first.toName :: others))
        False.elim) (.pure [first.toName]) False.elim) False.elim

theorem parameters_keeps : Keeps False n s parameters parameters := by
  refine .check (fun b => ?_) False.elim
  cases b with
  | true => exact .pure []
  | false =>
    exact .bounded fun hle hk _ => parametersFrom_keeps (Nat.succ_le_succ hle) hk 0

theorem initializer?_keeps : Keeps False n s initializer? initializer? :=
  .accept (expression_keeps.bindOpen (fun e => .pure (some e)) False.elim) (.pure none) False.elim

theorem superclass?_keeps : Keeps False n s superclass? superclass? :=
  .accept (.expect fun name => .freshId fun id => .pure (some (⟨id, name.toName⟩ : Superclass)))
    (.pure none) False.elim

/-- A token that must come next is not there at the end. -/
theorem failsAtEnd_expect {α : Type} (kind : TokenKind) (fault : SyntaxFault)
    (f : Token → Reader α) : FailsAtEnd (expect kind fault >>= f) :=
  (FailsAtEnd.expect kind fault).bind f

theorem variableDecl_keeps : Keeps True n s variableDecl variableDecl :=
  .expect fun name => initializer?_keeps.bindOpen
    (fun e => .expect fun _ => .pure (Stmt.variable name.toName e)) fun _ _ => failsAtEnd_expect _ _ _

theorem expressionStmt_keeps : Keeps True n s expressionStmt expressionStmt :=
  expression_keeps.bindOpen (fun e => .expect fun _ => .pure (Stmt.expression e))
    fun _ _ => failsAtEnd_expect _ _ _

theorem failsAtEnd_expressionStmt : FailsAtEnd expressionStmt :=
  FailsAtEnd.bind_of_goes (expression_keeps (n := 0) (s := ⟨[], []⟩)).goes
    fun _ => failsAtEnd_expect _ _ _

theorem returnStmt_keeps (line : Nat) : Keeps True n s (returnStmt line) (returnStmt line) :=
  (expressionUnless_keeps _).bindOpen (fun e => .expect fun _ => .pure (Stmt.return line e))
    fun _ _ => failsAtEnd_expect _ _ _

theorem loopInitializer_keeps : Keeps True n s loopInitializer loopInitializer :=
  .accept (.pure none)
    (.accept (variableDecl_keeps.bind fun s => .pure (some s))
      (expressionStmt_keeps.bind fun s => .pure (some s))
      fun _ => failsAtEnd_expressionStmt.bind _)
    fun _ => .accept_bind (failsAtEnd_expressionStmt.bind _)

/-! ### Statements -/

/-- Reads a declaration or a statement, and fails where there is none. -/
def declaration (bound : Nat) : Reader Stmt := do
  if ← accept (.keyword .classWord) then
    let name ← expect .identifier .className
    let superclass ← superclass?
    let _ ← expect (.mark .leftBrace) .classOpening
    let methods ← methods bound
    let _ ← expect (.mark .rightBrace) .classClosing
    return .class name.toName superclass methods
  else if ← accept (.keyword .funWord) then return .function (← routine bound .function)
  else if ← accept (.keyword .varWord) then variableDecl
  else statement bound

theorem item_succ (bound : Nat) : item (bound + 1) = orRecover (declaration bound) :=
  rfl

/-- The readers that call each other, among other tokens. Their bounds suffice for the tokens that
they find. -/
structure StatementsKeep (s : Surroundings) (bound : Nat) : Prop where
  item : ∀ {n bound'}, bound ≤ bound' → 3 * n ≤ bound + 1 →
    Keeps False n s (item bound) (item bound')
  statement : ∀ {n bound'}, bound ≤ bound' → 3 * n ≤ bound + 2 →
    Keeps True n s (statement bound) (statement bound')
  items : ∀ {n bound'} inBlock, bound ≤ bound' → 3 * n ≤ bound →
    Keeps False n s (items bound inBlock) (items bound' inBlock)
  routine : ∀ {n bound'} kind, bound ≤ bound' → 3 * n ≤ bound + 2 →
    Keeps True n s (routine bound kind) (routine bound' kind)
  methods : ∀ {n bound'}, bound ≤ bound' → 3 * n ≤ bound + 1 →
    Keeps False n s (methods bound) (methods bound')

theorem StatementsKeep.zero : StatementsKeep s 0 where
  item {n bound'} _ hn := by
    obtain rfl : n = 0 := by omega
    exact .of_goes (Ensures.pure none).goes _
  statement {n bound'} _ hn := by
    obtain rfl : n = 0 := by omega
    exact .of_goes (Ensures.fail _) _
  items {n bound'} inBlock _ hn := by
    obtain rfl : n = 0 := by omega
    exact .of_goes (Ensures.pure []).goes _
  routine {n bound'} kind _ hn := by
    obtain rfl : n = 0 := by omega
    exact .of_goes (Ensures.fail _) _
  methods {n bound'} _ hn := by
    obtain rfl : n = 0 := by omega
    exact .of_goes (Ensures.pure []).goes _

namespace StatementsKeep

/-! #### Taking a token -/

theorem statement_takes (bound : Nat) : TakesSome (Reader.statement bound) := by
  have hexpression : Goes Reader.expression := (expression_keeps (n := 0) (s := ⟨[], []⟩)).goes
  have hunless (kind : TokenKind) : Goes (expressionUnless kind) :=
    (expressionUnless_keeps (n := 0) (s := ⟨[], []⟩) kind).goes
  have hinitializer : Goes loopInitializer := (loopInitializer_keeps (n := 0) (s := ⟨[], []⟩)).goes
  cases bound with
  | zero => exact Ensures.fail _
  | succ bound =>
    have hstatement : Goes (Reader.statement bound) := (StatementYields.all bound).statement.goes
    refine .accept ?_ (.accept ?_ (.accept ?_ (.accept? (fun t => ?_) (.accept ?_ ?_))))
    · exact (Ensures.expect fun _ => hinitializer.bind fun initializer =>
        (hunless _).bind fun condition => Ensures.expect fun _ => (hunless _).bind fun increment =>
          Ensures.expect fun _ => hstatement.bind fun body =>
            Ensures.pure (loopStmt initializer condition increment body)).goes
    · exact (Ensures.expect fun _ => hexpression.bind fun condition => Ensures.expect fun _ =>
        hstatement.bind fun thenBranch => Ensures.accept
          (hstatement.bind fun elseBranch =>
            Ensures.pure (Stmt.ifElse condition thenBranch elseBranch))
          (Ensures.pure (Stmt.ifThen condition thenBranch))).goes
    · exact (Ensures.expect fun _ => hexpression.bind fun condition => Ensures.expect fun _ =>
        hstatement.bind fun body => Ensures.pure (Stmt.while condition body)).goes
    · exact (returnStmt_keeps (n := 0) (s := ⟨[], []⟩) t.line).goes
    · exact (((StatementYields.all bound).items true).bind fun body => Ensures.expect fun _ =>
        Ensures.pure (Stmt.block body)).goes
    · exact .bind_right hexpression fun e => .expect fun _ => (Ensures.pure _).goes

theorem routine_takes (bound : Nat) (kind : Routine) : TakesSome (Reader.routine bound kind) := by
  cases bound with
  | zero => exact Ensures.fail _
  | succ bound =>
    have hparameters : Goes parameters := (parameters_keeps (n := 0) (s := ⟨[], []⟩)).goes
    exact .expect fun name => (Ensures.expect fun _ => hparameters.bind fun params =>
      Ensures.expect fun _ => Ensures.expect fun _ =>
        ((StatementYields.all bound).items true).bind fun body => Ensures.expect fun _ =>
          Ensures.pure (⟨name.toName, params, body⟩ : FunctionDecl)).goes

theorem declaration_takes (bound : Nat) : TakesSome (declaration bound) := by
  refine .accept ?_ (.accept ?_ (.accept ?_ (statement_takes bound)))
  · exact (Ensures.expect fun name =>
      (superclass?_keeps (n := 0) (s := ⟨[], []⟩)).goes.bind fun superclass =>
        Ensures.expect fun _ => (StatementYields.all bound).methods.bind fun methods =>
          Ensures.expect fun _ =>
            Ensures.pure (Stmt.class name.toName superclass methods)).goes
  · exact ((routine_takes bound .function).bind fun decl =>
      Ensures.pure (Stmt.function decl)).goes
  · exact (variableDecl_keeps (n := 0) (s := ⟨[], []⟩)).goes

/-- Where there is a token, an item takes one, whether it can be read or not. -/
theorem item_length_lt {c d : Cursor} {s : Option Stmt} (hc : c.rest ≠ [])
    (h : Reader.item (bound + 1) c = .ok s d) : d.rest.length < c.rest.length := by
  rw [item_succ] at h
  cases hr : declaration bound c with
  | ok s' c' =>
    rw [orRecover_of_ok hr] at h
    cases h
    exact (declaration_takes bound).length_lt hr
  | error e c' =>
    rw [orRecover_of_error hr] at h
    cases h
    have hsuffix := ((declaration_takes bound).goes.goesTo_error hr).suffix
    by_cases hnil : c'.rest = []
    · rw [hnil]
      exact List.length_pos_iff.mpr hc
    · exact Nat.lt_of_lt_of_le (recover_length_lt hnil) hsuffix.length_le

/-! #### The same among other tokens -/

theorem failsAtEnd_statement (bound : Nat) : FailsAtEnd (Reader.statement bound) := by
  cases bound with
  | zero => exact fun _ _ _ _ heq => nomatch heq
  | succ bound =>
    exact .accept_bind (.accept_bind (.accept_bind (.accept?_bind
      (.accept_bind failsAtEnd_expressionStmt))))

variable (h : StatementsKeep s bound)

include h

theorem statement_succ (hs : NoElse s.later) (hle : bound + 1 ≤ bound')
    (hn : 3 * n ≤ bound + 3) :
    Keeps True n s (Reader.statement (bound + 1)) (Reader.statement bound') := by
  obtain ⟨bound', rfl⟩ : ∃ k, bound' = k + 1 := ⟨bound' - 1, by omega⟩
  have hle : bound ≤ bound' := Nat.le_of_succ_le_succ hle
  have hstatement {k : Nat} (hk : k ≤ n - 1) := h.statement (n := k) hle (by omega)
  refine .accept ?_ (.accept ?_ (.accept ?_ (.accept? (fun t => returnStmt_keeps t.line)
      (.accept ?_ expressionStmt_keeps fun _ => failsAtEnd_expressionStmt)
      fun _ => .accept_bind failsAtEnd_expressionStmt)
    fun _ => .accept?_bind (.accept_bind failsAtEnd_expressionStmt))
    fun _ => .accept_bind (.accept?_bind (.accept_bind failsAtEnd_expressionStmt)))
    fun _ => .accept_bind (.accept_bind (.accept?_bind (.accept_bind failsAtEnd_expressionStmt)))
  · exact .expect fun _ => loopInitializer_keeps.bind fun initializer =>
      (expressionUnless_keeps _).bindOpen (fun condition => .expect fun _ =>
        (expressionUnless_keeps _).bindOpen (fun increment => .expect fun _ =>
          (hstatement (by omega)).bind fun body =>
            .pure (loopStmt initializer condition increment body))
          fun _ _ => failsAtEnd_expect _ _ _) fun _ _ => failsAtEnd_expect _ _ _
  · exact .expect fun _ => expression_keeps.bindOpen (fun condition => .expect fun _ =>
      (hstatement (by omega)).bind fun thenBranch => .acceptUnlessNext hs
        ((hstatement (by omega)).bind fun elseBranch =>
          .pure (Stmt.ifElse condition thenBranch elseBranch))
        (.pure (Stmt.ifThen condition thenBranch))) fun _ _ => failsAtEnd_expect _ _ _
  · exact .expect fun _ => expression_keeps.bindOpen (fun condition => .expect fun _ =>
      (hstatement (by omega)).bind fun body => .pure (Stmt.while condition body))
      fun _ _ => failsAtEnd_expect _ _ _
  · exact (h.items true hle (by omega)).bindOpen
      (fun body => .expect fun _ => .pure (Stmt.block body)) fun _ _ => failsAtEnd_expect _ _ _

theorem declaration_keeps (hle : bound ≤ bound') (hn : 3 * n ≤ bound + 2) :
    Keeps True n s (declaration bound) (declaration bound') := by
  refine .accept ?_ (.accept ?_ (.accept variableDecl_keeps (h.statement hle hn)
    fun _ => failsAtEnd_statement bound) fun _ => .accept_bind (failsAtEnd_statement bound))
    fun _ => .accept_bind (.accept_bind (failsAtEnd_statement bound))
  · exact .expect fun name => superclass?_keeps.bindOpen (fun superclass => .expect fun _ =>
      (h.methods hle (by omega)).bindOpen (fun methods => .expect fun _ =>
        .pure (Stmt.class name.toName superclass methods)) fun _ _ => failsAtEnd_expect _ _ _)
      fun _ _ => failsAtEnd_expect _ _ _
  · exact (h.routine .function hle (by omega)).bind fun decl => .pure (Stmt.function decl)

theorem item_keeps (hle : bound + 1 ≤ bound') (hn : 3 * n ≤ bound + 2) :
    Keeps False n s (Reader.item (bound + 1)) (Reader.item bound') := by
  obtain ⟨bound', rfl⟩ : ∃ k, bound' = k + 1 := ⟨bound' - 1, by omega⟩
  exact .orRecover (h.declaration_keeps (Nat.le_of_succ_le_succ hle) hn)
    fun ts => recover_append s.later

theorem items_succ (inBlock : Bool) (hle : bound + 1 ≤ bound') (hn : 3 * n ≤ bound + 1) :
    Keeps False n s (Reader.items (bound + 1) inBlock) (Reader.items bound' inBlock) := by
  obtain ⟨bound', rfl⟩ : ∃ k, bound' = k + 1 := ⟨bound' - 1, by omega⟩
  have hle : bound ≤ bound' := Nat.le_of_succ_le_succ hle
  have hothers (first : Option Stmt) := ((h.items (n := 0) inBlock hle (by omega)).goes.bind
    fun others => Ensures.pure (first.toList ++ others)).goes
  rw [Reader.items_succ, Reader.items_succ]
  refine .untilEnd ((h.item (n := 0) hle (by omega)).goes.bind hothers).goes fun c hne hc => ?_
  have hitem := (h.item hle (by omega)).same c hc
  refine hitem.bind_of_rest hothers (fun first c' hfirst => ?_) fun _ _ _ _ _ _ _ hall => hall
  -- The item takes a token, which makes up for the depth that it costs.
  have hlt : c'.rest.length < c.rest.length := by
    cases bound with
    | zero => omega
    | succ bound => exact item_length_lt hne hfirst
  exact ((h.items inBlock hle (n := n - 1) (by omega)).bindOpen
    (fun others => .pure (first.toList ++ others)) False.elim).same c' (by omega)

theorem routine_succ (kind : Routine) (hle : bound + 1 ≤ bound') (hn : 3 * n ≤ bound + 3) :
    Keeps True n s (Reader.routine (bound + 1) kind) (Reader.routine bound' kind) := by
  obtain ⟨bound', rfl⟩ : ∃ k, bound' = k + 1 := ⟨bound' - 1, by omega⟩
  have hle : bound ≤ bound' := Nat.le_of_succ_le_succ hle
  exact .expect fun name => .expect fun _ => parameters_keeps.bindOpen (fun params =>
    .expect fun _ => .expect fun _ => (h.items true hle (by omega)).bindOpen (fun body =>
      .expect fun _ => .pure (⟨name.toName, params, body⟩ : FunctionDecl))
      fun _ _ => failsAtEnd_expect _ _ _) fun _ _ => failsAtEnd_expect _ _ _

theorem methods_succ (hle : bound + 1 ≤ bound') (hn : 3 * n ≤ bound + 2) :
    Keeps False n s (Reader.methods (bound + 1)) (Reader.methods bound') := by
  obtain ⟨bound', rfl⟩ : ∃ k, bound' = k + 1 := ⟨bound' - 1, by omega⟩
  have hle : bound ≤ bound' := Nat.le_of_succ_le_succ hle
  have hothers (first : FunctionDecl) := ((h.methods (n := 0) hle (by omega)).goes.bind
    fun others => Ensures.pure (first :: others)).goes
  rw [Reader.methods_succ, Reader.methods_succ]
  refine .untilEnd ((routine_takes bound .method).bind hothers).goes fun c hne hc => ?_
  have hroutine := (h.routine .method hle (by omega)).same c hc
  refine hroutine.bind_of_rest hothers (fun first c' hfirst => ?_) fun _ _ _ _ _ _ _ _ => trivial
  have hlt := (routine_takes bound .method).length_lt hfirst
  exact ((h.methods hle (n := n - 1) (by omega)).bindOpen
    (fun others => .pure (first :: others)) False.elim).same c' (by omega)

theorem succ (hs : NoElse s.later) : StatementsKeep s (bound + 1) where
  item := h.item_keeps
  statement := h.statement_succ hs
  items := h.items_succ
  routine := h.routine_succ
  methods := h.methods_succ

omit h in
theorem all (hs : NoElse s.later) : (bound : Nat) → StatementsKeep s bound
  | 0 => zero
  | bound + 1 => (all hs bound).succ hs

end StatementsKeep

end Reader

end Treewalk
