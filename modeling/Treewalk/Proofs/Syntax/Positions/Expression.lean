import Treewalk.Proofs.Syntax.Positions.Agreement

/-!
# Expressions by positions

The parsers of expressions agree with the readers of expressions. A loop over operators, arguments,
calls or properties goes round once for each token at most, since each round that is followed by another
one takes a token; and expressions nest at most three levels deep for each token.

## Main results

* `Reader.chainFrom_succ_eq`, `Reader.argumentsAfter_succ_eq`, `Reader.suffixes_succ_eq`: what readers
  do step by step.
* `agrees_expression`: expressions.
-/

namespace Treewalk

/-! ### Steps of readers -/

namespace Reader

variable {operand argument : Reader Expr} {level : Level} {bound : Nat}

/-- Reads an operator of a level and its right operand, if there is one. -/
def chainStep (level : Level) (operand : Reader Expr) (left : Expr) : Reader (Expr ⊕ Expr) := do
  match ← acceptBy? level.combine? with
  | some combine => return .inl (combine left (← operand))
  | none => return .inr left

theorem chainFrom_succ_eq (left : Expr) : chainFrom level operand (bound + 1) left =
    chainStep level operand left >>= Sum.elim (chainFrom level operand bound) pure := by
  rw [chainFrom, chainStep, bind_assoc]
  refine congrArg _ (funext fun found => ?_)
  cases found <;> simp

/-- Reads an argument after others, and a comma if one follows. -/
def argumentsStep (argument : Reader Expr) (before : List Expr) :
    Reader (List Expr ⊕ List Expr) := do
  noteBeyond before.length .tooManyArguments
  let e ← argument
  if ← accept (.mark .comma) then return .inl (before ++ [e]) else return .inr (before ++ [e])

/-- Reads arguments after others. -/
def argumentsAfter (argument : Reader Expr) (bound : Nat) (before : List Expr) :
    Reader (List Expr) := do
  return before ++ (← argumentsFrom argument bound before.length)

theorem argumentsAfter_succ_eq (before : List Expr) : argumentsAfter argument (bound + 1) before =
    argumentsStep argument before >>= Sum.elim (argumentsAfter argument bound) pure := by
  simp only [argumentsAfter, argumentsFrom, argumentsStep, bind_assoc]
  refine congrArg _ (funext fun _ => congrArg _ (funext fun e => congrArg _ (funext fun b => ?_)))
  cases b <;> simp [argumentsAfter]

/-- Reads a call or a property that follows an expression, if there is one. -/
def suffixesStep (argument : Reader Expr) (e : Expr) : Reader (Expr ⊕ Expr) := do
  if ← accept (.mark .leftParen) then return .inl (← callOf argument e)
  else if ← accept (.mark .dot) then
    let name ← expect .identifier .propertyName
    return .inl (.get e name.toName)
  else return .inr e

theorem suffixes_succ_eq (e : Expr) : suffixes argument (bound + 1) e =
    suffixesStep argument e >>= Sum.elim (suffixes argument bound) pure := by
  rw [suffixes, suffixesStep, bind_assoc]
  refine congrArg _ (funext fun opened => ?_)
  cases opened with
  | true => simp
  | false =>
    simp only [Bool.false_eq_true, if_false, bind_assoc]
    refine congrArg _ (funext fun dotted => ?_)
    cases dotted <;> simp

end Reader

/-! ### Loops in expressions -/

section Operands

variable {x : Parser Expr} {y : Reader Expr} {n limit : Nat}

/-- A loop that agrees with a recursion whose steps are counted by the tokens left. -/
theorem agreesAt_repeated_bounded {σ β : Type} {loop : ParserLoop} {round : σ → Parser (σ ⊕ β)}
    {step : σ → Reader (σ ⊕ β)} {r : Nat → σ → Reader β}
    (hzero : ∀ s (c : Cursor), c.rest = [] → r 0 s c = (step s >>= Sum.elim (r 0) pure) c)
    (hsucc : ∀ bound s, r (bound + 1) s = step s >>= Sum.elim (r bound) pure)
    (hround : ∀ s (p : Position), p.Sound → p.cursor.rest.length < n →
      AgreesAt (fun a p' => a.isLeft → p.current < p'.current) (round s) (step s) p)
    (hn : n ≤ limit) (s : σ) :
    Agrees n (Parser.repeated loop round limit s) (Reader.bounded fun bound => r bound s) := by
  have hsteps (bound : Nat) (s : σ) (c : Cursor) (hbound : c.rest.length ≤ bound) :
      r bound s c = (step s >>= Sum.elim (r (bound - 1)) pure) c := by
    cases bound with
    | zero => exact hzero s c (List.eq_nil_of_length_eq_zero (Nat.le_zero.mp hbound))
    | succ bound => exact congrFun (hsucc bound s) c
  intro p hp hlength
  have hloop : AgreesAt (fun _ _ => True) (Parser.repeated loop round limit s)
      (r p.cursor.rest.length s) p :=
    AgreesAt.repeated (r := fun bound => r (bound - 1)) strictMono_id hsteps
      (fun _ s p hp hn _ => hround s p hp hn) hp hlength (Nat.lt_of_lt_of_le hlength hn)
      (Nat.lt_succ_self _)
  refine hloop.of_eq rfl ?_ (.refl hp)
  rfl

theorem agreesAt_chainRound (h : Agrees n x y) (level : Level) (left : Expr) {p : Position}
    (hp : p.Sound) (hn : p.cursor.rest.length < n) :
    AgreesAt (fun a p' => a.isLeft → p.current < p'.current) (Parser.chainRound level x left)
      (Reader.chainStep level y left) p := by
  refine .acceptBy? hp (fun t rest combine hrest => ?_) (.pure hp (by simp))
  refine ((h.of_le (Nat.sub_le n 1)).moved hp hrest hn).bind fun right p' hleads _ => ?_
  exact .pure (hleads.sound (hp.moved hrest)) fun _ => hleads.le

theorem agrees_chain (h : Agrees n x y) (level : Level) (hn : n ≤ limit) :
    Agrees n (Parser.chain limit level x) (Reader.chain level y) := by
  refine h.bind fun left => agreesAt_repeated_bounded (fun left c hc => ?_)
    (fun _ => Reader.chainFrom_succ_eq) (fun left p hp hn => agreesAt_chainRound h level left hp hn)
    hn left
  rw [← Reader.chainFrom_succ_eq, Reader.chainFrom_nil level y 1 left hc]
  rfl

theorem agrees_equality (h : Agrees n x y) (hn : n ≤ limit) :
    Agrees n (Parser.equality limit x) (Reader.equality y) :=
  agrees_chain (agrees_chain (agrees_chain (agrees_chain h _ hn) _ hn) _ hn) _ hn

/-- A comma comes before each further argument. -/
theorem agreesAt_argumentsRound (h : Agrees n x y) (before : List Expr) {p : Position}
    (hp : p.Sound) (hn : p.cursor.rest.length < n) :
    AgreesAt (fun a p' => a.isLeft → p.current < p'.current) (Parser.argumentsRound x before)
      (Reader.argumentsStep y before) p := by
  refine (AgreesAt.noteBeyond hp before.length).bind fun _ p₁ hleads₁ _ => ?_
  have hn₁ := Nat.lt_of_le_of_lt hleads₁.length_le hn
  refine (h p₁ (hleads₁.sound hp) hn₁).bind fun e p₂ hleads₂ _ => ?_
  have hp₂ := hleads₂.sound (hleads₁.sound hp)
  refine .accept hp₂ (fun t rest hrest => ?_) (.pure hp₂ (by simp))
  exact .pure (hp₂.moved hrest) fun _ => Nat.lt_succ_of_le (hleads₁.trans hleads₂).le

theorem agrees_arguments (h : Agrees n x y) (hn : n ≤ limit) :
    Agrees n (Parser.arguments limit x) (Reader.arguments y) := by
  refine .check fun b => ?_
  cases b with
  | true => exact .pure []
  | false =>
    intro p hp hlength
    have hloop : AgreesAt (fun _ _ => True)
        (Parser.repeated .arguments (Parser.argumentsRound x) limit [])
        (Reader.argumentsAfter y (p.cursor.rest.length + 1) []) p :=
      AgreesAt.repeated strictMono_id
        (fun bound before c _ => congrFun (Reader.argumentsAfter_succ_eq before) c)
        (fun _ before p hp hn _ => agreesAt_argumentsRound h before hp hn) hp hlength
        (Nat.lt_of_lt_of_le hlength hn) (Nat.lt_succ_self _)
    refine hloop.of_eq rfl ?_ (.refl hp)
    simp [Reader.argumentsAfter]
    rfl

theorem agrees_finishCall (h : Agrees n x y) (hn : n ≤ limit) (callee : Expr) :
    Agrees n (Parser.finishCall limit x callee) (Reader.callOf y callee) :=
  (agrees_arguments h hn).bind fun _ => .consume fun _ => .pure _

/-- An opening parenthesis or a dot comes before what follows. -/
theorem agreesAt_suffixesRound (h : Agrees (n - 1) x y) (hn : n ≤ limit) (e : Expr) {p : Position}
    (hp : p.Sound) (hlength : p.cursor.rest.length < n) :
    AgreesAt (fun a p' => a.isLeft → p.current < p'.current) (Parser.suffixesRound limit x e)
      (Reader.suffixesStep y e) p := by
  refine .accept hp (fun t rest hrest => ?_) (.accept hp (fun t rest hrest => ?_)
    (.pure hp (by simp)))
  · have hcall := (agrees_finishCall h (Nat.le_trans (Nat.sub_le n 1) hn) e).moved hp hrest hlength
    exact hcall.bind fun e' p' hleads _ => .pure (hleads.sound (hp.moved hrest)) fun _ => hleads.le
  · have hp₁ := hp.moved hrest
    refine .consume hp₁ fun name rest' hrest' => .pure (hp₁.moved hrest') fun _ => ?_
    exact Nat.lt_succ_of_lt (Nat.lt_succ_self _)

theorem agrees_groupingOf (h : Agrees n x y) :
    Agrees n (Parser.groupingOf x) (Reader.groupingOf y) :=
  h.bind fun _ => .consume fun _ => .pure _

theorem agrees_superOf (line : Nat) : Agrees n (Parser.superOf line) (Reader.superOf line) :=
  .consume fun _ => .consume fun _ => Agrees.freshId.bind fun _ => .pure _

/-- A number is drawn, and the next token is taken. -/
theorem Parser.freshId_advance_apply {α : Type} {p : Position} {t : Token} {rest : List Token}
    (hp : p.Sound) (hrest : p.cursor.rest = t :: rest) (f : Nat → α) :
    (do
      let id ← Parser.freshId
      let _ ← Parser.advance
      return f id : Parser α) p = (Parser.freshId >>= fun id => pure (f id)) p.moved := by
  let p₁ : Position := { p with nextId := p.nextId + 1 }
  have hp₁ : p₁.Sound := ⟨hp.le, hp.isEnd⟩
  have hadvance : Parser.advance p₁ = .ok t p₁.moved := Parser.advance_apply hp₁ hrest
  change (Parser.advance >>= fun _ => pure (f p.nextId)) p₁ = _
  rw [Parser.bind_of_ok hadvance]
  rfl

/-- An end of the text is no constant and has no kind that is asked for. -/
theorem Token.literal?_of_isEnd {t : Token} (h : t.kind.isEnd) : t.literal? = none := by
  rw [literal?]
  obtain ⟨kind, lexeme, line⟩ := t
  cases kind <;> first | rfl | cases h

theorem Token.is_of_isEnd {t : Token} {kind : TokenKind} (h : t.kind.isEnd)
    (hkind : kind.isEnd = false) : t.is kind = false := by
  obtain ⟨kind', lexeme, line⟩ := t
  cases kind' with
  | endOfText => cases kind <;> first | rfl | cases hkind
  | _ => cases h

/-- At the end of the text there is no operand. -/
theorem agreesAt_primary_nil {p : Position} (hp : p.Sound) (hrest : p.cursor.rest = []) :
    AgreesAt (fun _ _ => True) (Parser.primary x) (Reader.primary y) p := by
  obtain ⟨t, hpeek, hend, -⟩ := Parser.exists_peek hp
  rw [hrest] at hend
  have hcursor : p.cursor = ⟨[], p.cursor.errors, p.cursor.nextId⟩ := by rw [← hrest]
  have hfails : Reader.primary y p.cursor = Reader.fail .expression p.cursor := by
    rw [hcursor]
    rfl
  have hnot (kind : TokenKind) (hkind : kind.isEnd = false) : t.is kind = false :=
    Token.is_of_isEnd hend hkind
  refine AgreesAt.of_eq (Parser.bind_of_ok hpeek) rfl (.refl hp) ?_
  simp only [Token.literal?_of_isEnd hend, hnot .identifier rfl, hnot (.keyword .thisWord) rfl,
    hnot (.keyword .superWord) rfl, hnot (.mark .leftParen) rfl]
  exact (AgreesAt.fail hp).of_eq rfl hfails (.refl hp)

/-- An opening parenthesis comes before the inner expression. -/
theorem agrees_primary (h : Agrees (n - 1) x y) :
    Agrees n (Parser.primary x) (Reader.primary y) := by
  intro p hp hn
  cases hrest : p.cursor.rest with
  | nil => exact agreesAt_primary_nil hp hrest
  | cons u rest =>
    obtain ⟨t, hpeek, -, ht⟩ := Parser.exists_peek hp
    obtain rfl := ht u rest hrest
    refine AgreesAt.of_eq (Parser.bind_of_ok hpeek) rfl (.refl hp) ?_
    cases hliteral : t.literal? with
    | some l =>
      exact .taken hp hrest (Parser.bind_of_ok (Parser.advance_apply hp hrest))
        (fun _ _ => Reader.acceptBy?_bind_of_some hliteral) (.pure (hp.moved hrest) trivial)
    | none =>
      have hnone : ∀ u ∈ (t :: rest).head?, u.literal? = none := by simpa using hliteral
      have hnot {kind : TokenKind} (h : ¬ t.is kind) : ∀ u ∈ (t :: rest).head?, ¬ u.is kind := by
        simpa using h
      by_cases hname : t.is .identifier
      · rw [if_pos hname]
        exact .taken hp hrest (Parser.freshId_advance_apply hp hrest _) (fun _ _ =>
          (Reader.acceptBy?_bind_of_none hnone).trans (Reader.accept?_bind_of_is hname))
          ((Agrees.freshId.bind fun _ => .pure _).moved hp hrest hn)
      rw [if_neg hname]
      by_cases hthis : t.is (.keyword .thisWord)
      · rw [if_pos hthis]
        exact .taken hp hrest (Parser.freshId_advance_apply hp hrest _) (fun _ _ =>
          (Reader.acceptBy?_bind_of_none hnone).trans ((Reader.accept?_bind_of_not (hnot hname)).trans
            (Reader.accept?_bind_of_is hthis)))
          ((Agrees.freshId.bind fun _ => .pure _).moved hp hrest hn)
      rw [if_neg hthis]
      by_cases hsuper : t.is (.keyword .superWord)
      · rw [if_pos hsuper]
        exact .taken hp hrest (Parser.bind_of_ok (Parser.advance_apply hp hrest)) (fun _ _ =>
          (Reader.acceptBy?_bind_of_none hnone).trans ((Reader.accept?_bind_of_not (hnot hname)).trans
            ((Reader.accept?_bind_of_not (hnot hthis)).trans (Reader.accept?_bind_of_is hsuper))))
          ((agrees_superOf t.line).moved hp hrest hn)
      rw [if_neg hsuper]
      have hread (errors : List SyntaxError) (id : Nat) :
          Reader.primary y ⟨t :: rest, errors, id⟩ = (Reader.accept? (.mark .leftParen) >>= fun found =>
            if found.isSome then Reader.groupingOf y else Reader.fail .expression)
              ⟨t :: rest, errors, id⟩ := by
        refine (Reader.acceptBy?_bind_of_none hnone).trans
          ((Reader.accept?_bind_of_not (hnot hname)).trans
            ((Reader.accept?_bind_of_not (hnot hthis)).trans
              ((Reader.accept?_bind_of_not (hnot hsuper)).trans ?_)))
        exact congrFun (Reader.accept_bind ..) _
      by_cases hopens : t.is (.mark .leftParen)
      · rw [if_pos hopens]
        exact .taken hp hrest (Parser.bind_of_ok (Parser.advance_apply hp hrest)) (fun _ _ =>
          (hread ..).trans (Reader.accept?_bind_of_is hopens)) ((agrees_groupingOf h).moved hp hrest hn)
      rw [if_neg hopens]
      have hcursor : p.cursor = ⟨t :: rest, p.cursor.errors, p.cursor.nextId⟩ := by rw [← hrest]
      refine (AgreesAt.fail hp).of_eq rfl ?_ (.refl hp)
      rw [hcursor]
      exact (hread ..).trans (Reader.accept?_bind_of_not (hnot hopens))

theorem agrees_call (h : Agrees (n - 1) x y) (hn : n ≤ limit) :
    Agrees n (Parser.call limit x) (Reader.call y) := by
  refine (agrees_primary h).bind fun e => agreesAt_repeated_bounded (fun e c hc => ?_)
    (fun _ => Reader.suffixes_succ_eq)
    (fun e p hp hlength => agreesAt_suffixesRound h hn e hp hlength) hn e
  rw [← Reader.suffixes_succ_eq, Reader.suffixes_nil y 1 e hc]
  rfl

end Operands

/-! ### Levels -/

variable {n limit : Nat}

theorem agrees_assignTo (target : Expr) {equals : Token} (hequals : equals.is (.mark .equal))
    (value : Expr) :
    Agrees n (Parser.assignTo target equals value) (Reader.assignTo target equals value) := by
  have hfault : equals.faultAt .invalidTarget = ⟨equals, .invalidTarget⟩ := by
    rw [Token.faultAt, if_neg]
    intro hend
    rw [Token.is_of_isEnd hend rfl] at hequals
    cases hequals
  unfold Parser.assignTo Reader.assignTo
  rw [hfault]
  cases target with
  | «variable» id name => exact Agrees.freshId.bind fun id => .pure _
  | get object name => exact .pure _
  | _ => exact (Agrees.note _).bind fun _ => .pure _

/-- The levels of expressions call each other at most three times for each token. -/
theorem agrees_levels (limit depth : Nat) : ∀ n bound, n ≤ limit →
    (3 * n ≤ depth → 3 * n ≤ bound →
      Agrees n (Parser.assignment limit depth) (Reader.assignment bound)) ∧
    (3 * n ≤ depth + 1 → 3 * n ≤ bound + 1 →
      Agrees n (Parser.ternary limit depth) (Reader.ternary bound)) ∧
    (3 * n ≤ depth + 2 → 3 * n ≤ bound + 2 →
      Agrees n (Parser.unary limit depth) (Reader.unary bound)) := by
  induction depth with
  | zero =>
    refine fun n bound _ => ⟨fun hn _ => ?_, fun hn _ => ?_, fun hn _ => ?_⟩ <;>
    · obtain rfl : n = 0 := by omega
      exact .zero _ _
  | succ depth ih =>
    intro n bound hlimit
    rcases Nat.eq_zero_or_pos n with rfl | hpos
    · exact ⟨fun _ _ => .zero _ _, fun _ _ => .zero _ _, fun _ _ => .zero _ _⟩
    have hless : n - 1 ≤ limit := Nat.le_trans (Nat.sub_le n 1) hlimit
    refine ⟨fun hd hb => ?_, fun hd hb => ?_, fun hd hb => ?_⟩ <;>
    obtain ⟨bound, rfl⟩ : ∃ k, bound = k + 1 := ⟨bound - 1, by omega⟩
    · have hternary := (ih n bound hlimit).2.1 (by omega) (by omega)
      have hvalue := (ih (n - 1) bound hless).1 (by omega) (by omega)
      exact (agrees_chain (agrees_chain hternary _ hlimit) _ hlimit).bind fun target =>
        .acceptPrevious (fun equals hequals => hvalue.bind fun value =>
          agrees_assignTo target hequals value) (.pure target)
    · have hcondition := agrees_equality ((ih n bound hlimit).2.2 (by omega) (by omega)) hlimit
      have hwhenTrue :=
        agrees_equality ((ih (n - 1) bound hless).2.2 (by omega) (by omega)) hless
      have hwhenFalse := (ih (n - 1 - 1) bound (by omega)).2.1 (by omega) (by omega)
      exact hcondition.bind fun condition => .accept (hwhenTrue.bind fun whenTrue =>
        .consume fun _ => hwhenFalse.bind fun whenFalse => .pure _) (.pure condition)
    · have hoperand := (ih (n - 1) bound hless).2.2 (by omega) (by omega)
      have hinner := (ih (n - 1) bound hless).1 (by omega) (by omega)
      exact .acceptBy? (fun apply => hoperand.bind fun e => .pure _) (agrees_call hinner hlimit)

/-- The parser of expressions agrees with the reader, which takes its bound from the tokens left. -/
theorem agrees_expression (hlimit : 3 * n ≤ limit) :
    Agrees n (Parser.expression limit) Reader.expression := by
  intro p hp hn
  have hlevels := (agrees_levels limit limit (p.cursor.rest.length + 1)
    (3 * p.cursor.rest.length + 3) (by omega)).1 (by omega) (Nat.le_refl _)
  refine (hlevels p hp (Nat.lt_succ_self _)).of_eq rfl ?_ (.refl hp)
  rfl

end Treewalk
