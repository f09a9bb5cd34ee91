import Treewalk.Proofs.Lockstep
import Treewalk.Proofs.Relocation.Trees

/-!
# Reading relocated tokens

A reader does the same on tokens of other lines, and with other node numbers to draw: whatever it
reads, and whatever faults it notes, has moved with the tokens and the numbers.

## Main definitions

* `Cursor.Moved`: a cursor whose tokens, faults and numbers have moved.
* `Reader.Moves`: a reader that does the same wherever its cursor has moved to.

## Main results

* `Program.ofTokens_relocate`: a program that is read from relocated tokens.
-/

namespace Treewalk

/-- A fault at a token on another line. -/
def SyntaxError.relocate (r : Relocation) (e : SyntaxError) : SyntaxError :=
  ⟨e.found.map (Token.relocate r), e.fault⟩

theorem SyntaxError.relocate_eq_id {r : Relocation} (hr : r.KeepsLines) :
    SyntaxError.relocate r = id := by
  funext e
  rw [SyntaxError.relocate, Token.relocate_eq_id hr, Option.map_id, id, id]

/-- The cursor `d` is `c` after a relocation, which also takes the numbers that are yet to be drawn
at `c` to those that are yet to be drawn at `d`. -/
structure Cursor.Moved (r : Relocation) (c d : Cursor) : Prop where
  rest : d.rest = c.rest.map (Token.relocate r)
  errors : d.errors = c.errors.map (SyntaxError.relocate r)
  id : ∀ k, r.id (c.nextId + k) = d.nextId + k

namespace Reader

variable {α β : Type} {r : Relocation}

/-- Cursors and faults that correspond to each other by a relocation. -/
def tie (r : Relocation) : Tie SyntaxError Cursor where
  state := Cursor.Moved r
  error := Maps (SyntaxError.relocate r)
  free _ := False

/-- A reader does the same wherever its cursor has moved to, and what it answers moves as well. -/
abbrev Moves (r : Relocation) (e : α → α) (x : Reader α) : Prop :=
  Lockstep (tie r) (Maps e) x x

/-! ### The next token -/

theorem peek?_moves : Moves r (Option.map (Token.relocate r)) peek? := by
  intro c d h
  refine .ok ?_ h
  rw [h.rest, List.head?_map]

theorem check_moves (kind : TokenKind) : Moves r id (check kind) := by
  intro c d h
  refine .ok ?_ h
  rw [h.rest, List.head?_map, Option.any_map]
  rfl

theorem skip_moves : Moves r id skip := by
  intro c d h
  refine .ok rfl ⟨?_, h.errors, h.id⟩
  rw [h.rest, List.map_tail]

theorem accept?_moves (kind : TokenKind) :
    Moves r (Option.map (Token.relocate r)) (accept? kind) := by
  intro c d h
  unfold accept?
  rw [h.rest]
  cases hc : c.rest with
  | nil => exact .ok rfl h
  | cons t rest =>
    rw [List.map_cons]
    dsimp only
    rw [Token.is_relocate]
    split
    · exact .ok rfl ⟨rfl, h.errors, h.id⟩
    · exact .ok rfl h

theorem accept_moves (kind : TokenKind) : Moves r id (accept kind) :=
  (accept?_moves kind).bind_map fun t => .pure (by cases t <;> rfl)

theorem fail_moves {R : α → β → Prop} (fault : SyntaxFault) :
    Lockstep (tie r) R (fail fault) (fail fault) := by
  intro c d h
  refine .error ?_ h
  rw [h.rest, List.head?_map]
  rfl

theorem expect_moves (kind : TokenKind) (fault : SyntaxFault) :
    Moves r (Token.relocate r) (expect kind fault) :=
  (accept?_moves kind).bind_map fun t => by
    cases t with
    | none => exact fail_moves fault
    | some t => exact .pure rfl

/-- A token on which a function has a value is taken, where the function has corresponding values on
corresponding tokens. -/
theorem acceptBy?_moves {R : α → β → Prop} {f : Token → Option α} {g : Token → Option β}
    (h : ∀ t : Token, Option.Rel R (f t) (g (t.relocate r))) :
    Lockstep (tie r) (Option.Rel R) (acceptBy? f) (acceptBy? g) :=
  peek?_moves.bind_map fun t => by
    have hrel : Option.Rel R (t.bind f) ((t.map (Token.relocate r)).bind g) := by
      cases t with
      | none => exact .none
      | some t => exact h t
    revert hrel
    generalize t.bind f = a, (t.map (Token.relocate r)).bind g = b
    rintro (hab | _)
    · exact skip_moves.bind_map fun _ => .pure (.some hab)
    · exact .pure .none

/-! ### Faults and numbers -/

theorem note_moves (e : SyntaxError) :
    Lockstep (tie r) (Maps id) (note e) (note (e.relocate r)) := by
  intro c d h
  refine .ok rfl ⟨h.rest, ?_, h.id⟩
  rw [h.errors, List.map_append, List.map_singleton]

theorem noteBeyond_moves (count : Nat) (fault : SyntaxFault) :
    Moves r id (noteBeyond count fault) := by
  unfold noteBeyond
  split
  · exact peek?_moves.bind_map fun t => note_moves ⟨t, fault⟩
  · exact .pure rfl

theorem freshId_moves : Moves r r.id freshId := by
  intro c d h
  refine .ok (h.id 0).symm ⟨h.rest, h.errors, fun k => ?_⟩
  have hid := h.id (k + 1)
  rw [Nat.add_comm k 1, ← Nat.add_assoc, ← Nat.add_assoc] at hid
  exact hid

theorem bounded_moves {R : α → β → Prop} {x : Nat → Reader α} {y : Nat → Reader β}
    (h : ∀ n, Lockstep (tie r) R (x n) (y n)) : Lockstep (tie r) R (bounded x) (bounded y) := by
  intro c d hcd
  unfold bounded
  rw [hcd.rest, List.length_map]
  exact h _ c d hcd

/-! ### Expressions -/

/-- Ways of joining two operands that do the same on operands that have moved. -/
abbrev Joins (r : Relocation) (join join' : Expr → Expr → Expr) : Prop :=
  ∀ a b, join' (a.relocate r) (b.relocate r) = (join a b).relocate r

theorem combine?_moves (level : Level) (t : Token) :
    Option.Rel (Joins r) (level.combine? t) (level.combine? (t.relocate r)) := by
  obtain ⟨kind, lexeme, line⟩ := t
  unfold Level.combine? Token.relocate
  dsimp only
  split
  · exact .some fun _ _ => rfl
  · exact .some fun _ _ => rfl
  · cases Level.binaryOp? _ _ with
    | none => exact .none
    | some op => exact .some fun _ _ => rfl
  · exact .none

theorem chainFrom_moves {level : Level} {operand : Reader Expr}
    (h : operand.Moves r (Expr.relocate r)) (bound : Nat) (left : Expr) :
    Lockstep (tie r) (Maps (Expr.relocate r)) (chainFrom level operand bound left)
      (chainFrom level operand bound (left.relocate r)) := by
  induction bound generalizing left with
  | zero => exact .pure rfl
  | succ bound ih =>
    refine (acceptBy?_moves (combine?_moves level)).bind fun a b hab => ?_
    cases hab with
    | none => exact .pure rfl
    | some hjoin => exact h.bind_map fun right => hjoin left right ▸ ih _

theorem chain_moves {level : Level} {operand : Reader Expr}
    (h : operand.Moves r (Expr.relocate r)) : (chain level operand).Moves r (Expr.relocate r) :=
  h.bind_map fun left => bounded_moves fun bound => chainFrom_moves h bound left

theorem equality_moves {operand : Reader Expr} (h : operand.Moves r (Expr.relocate r)) :
    (equality operand).Moves r (Expr.relocate r) :=
  chain_moves (chain_moves (chain_moves (chain_moves h)))

theorem argumentsFrom_moves {argument : Reader Expr} (h : argument.Moves r (Expr.relocate r))
    (bound count : Nat) :
    (argumentsFrom argument bound count).Moves r (List.map (Expr.relocate r)) := by
  induction bound generalizing count with
  | zero => exact fail_moves _
  | succ bound ih =>
    refine (noteBeyond_moves count _).bind_map fun _ => h.bind_map fun first =>
      (accept_moves _).bind_map fun more => ?_
    cases more with
    | true => exact (ih (count + 1)).bind_map fun others => .pure rfl
    | false => exact .pure rfl

theorem arguments_moves {argument : Reader Expr} (h : argument.Moves r (Expr.relocate r)) :
    (arguments argument).Moves r (List.map (Expr.relocate r)) := by
  refine (check_moves _).bind_map fun closes => ?_
  cases closes with
  | true => exact .pure rfl
  | false => exact bounded_moves fun bound => argumentsFrom_moves h (bound + 1) 0

theorem callOf_moves {argument : Reader Expr} (h : argument.Moves r (Expr.relocate r))
    (callee : Expr) : Lockstep (tie r) (Maps (Expr.relocate r)) (callOf argument callee)
      (callOf argument (callee.relocate r)) :=
  (arguments_moves h).bind_map fun es => (expect_moves _ _).bind_map fun t =>
    .pure (by simp [Maps, Expr.relocate, Token.relocate])

theorem suffixes_moves {argument : Reader Expr} (h : argument.Moves r (Expr.relocate r))
    (bound : Nat) (e : Expr) : Lockstep (tie r) (Maps (Expr.relocate r))
      (suffixes argument bound e) (suffixes argument bound (e.relocate r)) := by
  induction bound generalizing e with
  | zero => exact .pure rfl
  | succ bound ih =>
    refine (accept_moves _).bind_map fun isCall => ?_
    cases isCall with
    | true => exact (callOf_moves h e).bind_map fun e' => ih e'
    | false =>
      refine (accept_moves _).bind_map fun isProperty => ?_
      cases isProperty with
      | true => exact (expect_moves _ _).bind_map fun name => ih (.get e name.toName)
      | false => exact .pure rfl

theorem groupingOf_moves {inner : Reader Expr} (h : inner.Moves r (Expr.relocate r)) :
    (groupingOf inner).Moves r (Expr.relocate r) :=
  h.bind_map fun _ => (expect_moves _ _).bind_map fun _ => .pure rfl

theorem superOf_moves (line : Nat) :
    Lockstep (tie r) (Maps (Expr.relocate r)) (superOf line) (superOf (r.line line)) :=
  (expect_moves _ _).bind_map fun _ => (expect_moves _ _).bind_map fun _ =>
    freshId_moves.bind_map fun _ => .pure rfl

theorem primary_moves {inner : Reader Expr} (h : inner.Moves r (Expr.relocate r)) :
    (primary inner).Moves r (Expr.relocate r) := by
  have hliteral (t : Token) : Option.Rel Eq t.literal? (t.relocate r).literal? := by
    change Option.Rel Eq t.literal? t.literal?
    cases t.literal? with
    | none => exact .none
    | some l => exact .some rfl
  refine (acceptBy?_moves hliteral).bind fun a b hab => ?_
  cases hab with
  | some hl => exact .pure (hl ▸ rfl)
  | none =>
    refine (accept?_moves _).bind_map fun name => ?_
    cases name with
    | some name => exact freshId_moves.bind_map fun _ => .pure rfl
    | none =>
      refine (accept?_moves _).bind_map fun this => ?_
      cases this with
      | some t => exact freshId_moves.bind_map fun _ => .pure rfl
      | none =>
        refine (accept?_moves _).bind_map fun super => ?_
        cases super with
        | some t => exact superOf_moves t.line
        | none =>
          refine (accept_moves _).bind_map fun isGrouping => ?_
          cases isGrouping with
          | true => exact groupingOf_moves h
          | false => exact fail_moves _

theorem call_moves {inner : Reader Expr} (h : inner.Moves r (Expr.relocate r)) :
    (call inner).Moves r (Expr.relocate r) :=
  (primary_moves h).bind_map fun e => bounded_moves fun bound => suffixes_moves h bound e

theorem assignTo_moves (target : Expr) (equals : Token) (value : Expr) :
    Lockstep (tie r) (Maps (Expr.relocate r)) (assignTo target equals value)
      (assignTo (target.relocate r) (equals.relocate r) (value.relocate r)) := by
  have hinvalid : Lockstep (tie r) (Maps (Expr.relocate r))
      (note ⟨equals, .invalidTarget⟩ >>= fun _ => pure target)
      (note ⟨equals.relocate r, .invalidTarget⟩ >>= fun _ => pure (target.relocate r)) :=
    (note_moves ⟨equals, .invalidTarget⟩).bind_map fun _ => .pure rfl
  cases target with
  | «variable» id name => exact freshId_moves.bind_map fun _ => .pure rfl
  | get object name => exact .pure rfl
  | _ => exact hinvalid

theorem levels_move (bound : Nat) : (assignment bound).Moves r (Expr.relocate r) ∧
    (ternary bound).Moves r (Expr.relocate r) ∧ (unary bound).Moves r (Expr.relocate r) := by
  induction bound with
  | zero => exact ⟨fail_moves _, fail_moves _, fail_moves _⟩
  | succ bound ih =>
    obtain ⟨iha, iht, ihu⟩ := ih
    refine ⟨?_, ?_, ?_⟩
    · refine (chain_moves (chain_moves iht)).bind_map fun target =>
        (accept?_moves _).bind_map fun equals => ?_
      cases equals with
      | some equals => exact iha.bind_map fun value => assignTo_moves target equals value
      | none => exact .pure rfl
    · refine (equality_moves ihu).bind_map fun condition =>
        (accept_moves _).bind_map fun isChoice => ?_
      cases isChoice with
      | true =>
        exact (equality_moves ihu).bind_map fun whenTrue => (expect_moves _ _).bind_map fun _ =>
          iht.bind_map fun whenFalse => .pure rfl
      | false => exact .pure rfl
    · have hprefix (t : Token) : Option.Rel
          (fun f g : Expr → Expr => ∀ e, g (e.relocate r) = (f e).relocate r)
          (t.unaryOp?.map fun op => Expr.unary op t.line)
          ((t.relocate r).unaryOp?.map fun op => Expr.unary op (t.relocate r).line) := by
        change Option.Rel _ _ (t.unaryOp?.map _)
        cases t.unaryOp? with
        | none => exact .none
        | some op => exact .some fun e => rfl
      refine (acceptBy?_moves hprefix).bind fun a b hab => ?_
      cases hab with
      | some happly => exact ihu.bind_map fun e => .pure (happly e)
      | none => exact call_moves iha

theorem expression_moves : expression.Moves r (Expr.relocate r) :=
  bounded_moves fun tokens => (levels_move (3 * tokens + 3)).1

/-! ### Statements -/

theorem expressionUnless_moves (kind : TokenKind) :
    (expressionUnless kind).Moves r (Option.map (Expr.relocate r)) := by
  refine (check_moves kind).bind_map fun stops => ?_
  cases stops with
  | true => exact .pure rfl
  | false => exact expression_moves.bind_map fun e => .pure rfl

theorem initializer?_moves : initializer?.Moves r (Option.map (Expr.relocate r)) := by
  refine (accept_moves _).bind_map fun hasValue => ?_
  cases hasValue with
  | true => exact expression_moves.bind_map fun e => .pure rfl
  | false => exact .pure rfl

theorem variableDecl_moves : variableDecl.Moves r (Stmt.relocate r) :=
  (expect_moves _ _).bind_map fun _ => initializer?_moves.bind_map fun _ =>
    (expect_moves _ _).bind_map fun _ => .pure rfl

theorem expressionStmt_moves : expressionStmt.Moves r (Stmt.relocate r) :=
  expression_moves.bind_map fun _ => (expect_moves _ _).bind_map fun _ => .pure rfl

theorem returnStmt_moves (line : Nat) :
    Lockstep (tie r) (Maps (Stmt.relocate r)) (returnStmt line) (returnStmt (r.line line)) :=
  (expressionUnless_moves _).bind_map fun _ => (expect_moves _ _).bind_map fun _ => .pure rfl

theorem loopInitializer_moves : loopInitializer.Moves r (Option.map (Stmt.relocate r)) := by
  refine (accept_moves _).bind_map fun isAbsent => ?_
  cases isAbsent with
  | true => exact .pure rfl
  | false =>
    refine (accept_moves _).bind_map fun isVariable => ?_
    cases isVariable with
    | true => exact variableDecl_moves.bind_map fun _ => .pure rfl
    | false => exact expressionStmt_moves.bind_map fun _ => .pure rfl

theorem superclass?_moves : superclass?.Moves r (Option.map (Superclass.relocate r)) := by
  refine (accept_moves _).bind_map fun isDerived => ?_
  cases isDerived with
  | true =>
    exact (expect_moves _ _).bind_map fun _ => freshId_moves.bind_map fun _ => .pure rfl
  | false => exact .pure rfl

theorem parametersFrom_moves (bound count : Nat) :
    (parametersFrom bound count).Moves r (List.map (Name.relocate r)) := by
  induction bound generalizing count with
  | zero => exact fail_moves _
  | succ bound ih =>
    refine (noteBeyond_moves count _).bind_map fun _ => (expect_moves _ _).bind_map fun first =>
      (accept_moves _).bind_map fun more => ?_
    cases more with
    | true => exact (ih (count + 1)).bind_map fun others => .pure rfl
    | false => exact .pure rfl

theorem parameters_moves : parameters.Moves r (List.map (Name.relocate r)) := by
  refine (check_moves _).bind_map fun closes => ?_
  cases closes with
  | true => exact .pure rfl
  | false => exact bounded_moves fun bound => parametersFrom_moves (bound + 1) 0

theorem recover_relocate (ts : List Token) :
    recover (ts.map (Token.relocate r)) = (recover ts).map (Token.relocate r) := by
  fun_induction recover ts with
  | case1 => rfl
  | case2 t rest h => simp [recover, h]
  | case3 t h => simp [recover, h]
  | case4 t h next rest hopens =>
    have hopens' : (next.relocate r).opensStatement = true := hopens
    simp [recover, h, hopens']
  | case5 t h next rest hopens ih =>
    have hopens' : ¬ (next.relocate r).opensStatement = true := hopens
    rw [List.map_cons, List.map_cons, recover, Token.is_relocate, if_neg h, if_neg hopens',
      ← List.map_cons, ih]

theorem orRecover_moves {x : Reader Stmt} (h : x.Moves r (Stmt.relocate r)) :
    (orRecover x).Moves r (Option.map (Stmt.relocate r)) := by
  intro c d hcd
  have hout := h c d hcd
  unfold orRecover
  generalize x c = o, x d = o' at hout
  cases hout with
  | ok ha hs => exact .ok (ha ▸ rfl) hs
  | error he hs =>
    refine .ok rfl ⟨?_, ?_, hs.id⟩
    · rw [hs.rest, recover_relocate]
    · rw [hs.errors, he, List.map_append, List.map_singleton]
  | free he => exact he.elim

theorem relocate_loopStmt (initializer : Option Stmt) (condition increment : Option Expr)
    (body : Stmt) : (loopStmt initializer condition increment body).relocate r =
      loopStmt (initializer.map (Stmt.relocate r)) (condition.map (Expr.relocate r))
        (increment.map (Expr.relocate r)) (body.relocate r) := by
  cases initializer <;> cases condition <;> cases increment <;>
    simp [loopStmt, Stmt.relocate, Expr.relocate]

/-- The readers that call each other, on tokens that have moved. -/
structure StatementsMove (r : Relocation) (bound : Nat) : Prop where
  item : (item bound).Moves r (Option.map (Stmt.relocate r))
  statement : (statement bound).Moves r (Stmt.relocate r)
  items : ∀ inBlock, (items bound inBlock).Moves r (List.map (Stmt.relocate r))
  routine : ∀ kind, (routine bound kind).Moves r (FunctionDecl.relocate r)
  methods : (methods bound).Moves r (List.map (FunctionDecl.relocate r))

namespace StatementsMove

variable {bound : Nat}

theorem zero : StatementsMove r 0 where
  item := .pure rfl
  statement := fail_moves _
  items _ := .pure rfl
  routine _ := fail_moves _
  methods := .pure rfl

theorem forStmt (h : StatementsMove r bound) : Moves r (Stmt.relocate r) (do
    let _ ← expect (.mark .leftParen) .forOpening
    let initializer ← loopInitializer
    let condition ← expressionUnless (.mark .semicolon)
    let _ ← expect (.mark .semicolon) .forConditionEnd
    let increment ← expressionUnless (.mark .rightParen)
    let _ ← expect (.mark .rightParen) .forClosing
    return loopStmt initializer condition increment (← Reader.statement bound)) :=
  (expect_moves _ _).bind_map fun _ => loopInitializer_moves.bind_map fun _ =>
    (expressionUnless_moves _).bind_map fun _ => (expect_moves _ _).bind_map fun _ =>
      (expressionUnless_moves _).bind_map fun _ => (expect_moves _ _).bind_map fun _ =>
        h.statement.bind_map fun _ => .pure (relocate_loopStmt _ _ _ _).symm

theorem ifStmt (h : StatementsMove r bound) : Moves r (Stmt.relocate r) (do
    let _ ← expect (.mark .leftParen) .ifOpening
    let condition ← expression
    let _ ← expect (.mark .rightParen) .ifClosing
    let thenBranch ← Reader.statement bound
    if ← accept (.keyword .elseWord) then
      return .ifElse condition thenBranch (← Reader.statement bound)
    else return .ifThen condition thenBranch) := by
  refine (expect_moves _ _).bind_map fun _ => expression_moves.bind_map fun _ =>
    (expect_moves _ _).bind_map fun _ => h.statement.bind_map fun _ =>
      (accept_moves _).bind_map fun hasElse => ?_
  cases hasElse with
  | true => exact h.statement.bind_map fun _ => .pure rfl
  | false => exact .pure rfl

theorem statement_succ (h : StatementsMove r bound) :
    (Reader.statement (bound + 1)).Moves r (Stmt.relocate r) := by
  refine (accept_moves _).bind_map fun isFor => ?_
  cases isFor with
  | true => exact h.forStmt
  | false =>
  refine (accept_moves _).bind_map fun isIf => ?_
  cases isIf with
  | true => exact h.ifStmt
  | false =>
  refine (accept_moves _).bind_map fun isWhile => ?_
  cases isWhile with
  | true =>
    exact (expect_moves _ _).bind_map fun _ => expression_moves.bind_map fun _ =>
      (expect_moves _ _).bind_map fun _ => h.statement.bind_map fun _ => .pure rfl
  | false =>
  refine (accept?_moves _).bind_map fun isReturn => ?_
  cases isReturn with
  | some t => exact returnStmt_moves t.line
  | none =>
  refine (accept_moves _).bind_map fun isBlock => ?_
  cases isBlock with
  | true =>
    exact (h.items true).bind_map fun body => (expect_moves _ _).bind_map fun _ =>
      .pure (by simp [Maps, Stmt.relocate])
  | false => exact expressionStmt_moves

theorem item_succ (h : StatementsMove r bound) :
    (Reader.item (bound + 1)).Moves r (Option.map (Stmt.relocate r)) := by
  refine orRecover_moves ((accept_moves _).bind_map fun isClass => ?_)
  cases isClass with
  | true =>
    exact (expect_moves _ _).bind_map fun _ => superclass?_moves.bind_map fun _ =>
      (expect_moves _ _).bind_map fun _ => h.methods.bind_map fun _ =>
        (expect_moves _ _).bind_map fun _ => .pure (by simp [Maps, Stmt.relocate])
  | false =>
  refine (accept_moves _).bind_map fun isFunction => ?_
  cases isFunction with
  | true => exact (h.routine .function).bind_map fun _ => .pure rfl
  | false =>
  refine (accept_moves _).bind_map fun isVariable => ?_
  cases isVariable with
  | true => exact variableDecl_moves
  | false => exact h.statement

theorem items_succ (h : StatementsMove r bound) (inBlock : Bool) :
    (Reader.items (bound + 1) inBlock).Moves r (List.map (Stmt.relocate r)) := by
  refine peek?_moves.bind_map fun t => (check_moves _).bind_map fun closes => .ite ?_ (.pure rfl) ?_
  · simp
  · refine h.item.bind_map fun first => (h.items inBlock).bind_map fun others => .pure ?_
    cases first <;> rfl

theorem routine_succ (h : StatementsMove r bound) (kind : Routine) :
    (Reader.routine (bound + 1) kind).Moves r (FunctionDecl.relocate r) :=
  (expect_moves _ _).bind_map fun _ => (expect_moves _ _).bind_map fun _ =>
    parameters_moves.bind_map fun _ => (expect_moves _ _).bind_map fun _ =>
      (expect_moves _ _).bind_map fun _ => (h.items true).bind_map fun _ =>
        (expect_moves _ _).bind_map fun _ => .pure (by simp [Maps, FunctionDecl.relocate])

theorem methods_succ (h : StatementsMove r bound) :
    (Reader.methods (bound + 1)).Moves r (List.map (FunctionDecl.relocate r)) := by
  refine peek?_moves.bind_map fun t => (check_moves _).bind_map fun closes => .ite ?_ (.pure rfl) ?_
  · simp
  · exact (h.routine .method).bind_map fun _ => h.methods.bind_map fun _ => .pure rfl

theorem succ (h : StatementsMove r bound) : StatementsMove r (bound + 1) where
  item := h.item_succ
  statement := h.statement_succ
  items := h.items_succ
  routine := h.routine_succ
  methods := h.methods_succ

theorem all : (bound : Nat) → StatementsMove r bound
  | 0 => zero
  | bound + 1 => (all bound).succ

end StatementsMove

end Reader

/-- A program whose numbers and lines have moved, with its faults. -/
structure Program.Moved (r : Relocation) (p q : Program) : Prop where
  body : q.body = p.body.map (Stmt.relocate r)
  errors : q.errors = p.errors.map (SyntaxError.relocate r)
  id : ∀ k, r.id (p.nextId + k) = q.nextId + k

theorem tokensBeforeEnd_relocate (r : Relocation) (tokens : List Token) :
    tokensBeforeEnd (tokens.map (Token.relocate r)) =
      (tokensBeforeEnd tokens).map (Token.relocate r) := by
  rw [tokensBeforeEnd, List.takeWhile_map]
  rfl

/-- A program that is read from relocated tokens, with other numbers to draw. -/
theorem Program.ofTokens_relocate {r : Relocation} {n n' : Nat} (hid : ∀ k, r.id (n + k) = n' + k)
    (tokens : List Token) : Program.Moved r (Program.ofTokens n tokens)
      (Program.ofTokens n' (tokens.map (Token.relocate r))) := by
  have hmoved : Cursor.Moved r ⟨tokensBeforeEnd tokens, [], n⟩
      ⟨(tokensBeforeEnd tokens).map (Token.relocate r), [], n'⟩ := ⟨rfl, rfl, hid⟩
  have hout := (Reader.StatementsMove.all (3 * (tokensBeforeEnd tokens).length + 3)).items false
    _ _ hmoved
  simp only [Program.ofTokens, tokensBeforeEnd_relocate, List.length_map]
  generalize Reader.items _ _ ⟨tokensBeforeEnd tokens, [], n⟩ = o,
    Reader.items _ _ ⟨List.map _ _, [], n'⟩ = o' at hout
  cases hout with
  | ok ha hs => exact ⟨ha, hs.errors, hs.id⟩
  | error he hs =>
    refine ⟨rfl, ?_, hs.id⟩
    dsimp only
    rw [hs.errors, he, List.map_append, List.map_singleton]
  | free he => exact he.elim

end Treewalk
