import Treewalk.Proofs.Syntax.Joining
import Treewalk.Proofs.Syntax.Positions.Expression

/-!
# Programs by positions

The parsers of statements agree with the readers of statements, and so a program is parsed from its
tokens just as it is read from the tokens before the first end of the text.

## Main results

* `agrees_statements`: declarations and statements.
* `Parser.parse_in_bounds`: parsing comes to an end and stays within the tokens.
-/

namespace Treewalk

/-! ### Parts of statements -/

section Parts

variable {n limit : Nat}

theorem agrees_expressionUnless (hlimit : 3 * n ≤ limit) (kind : TokenKind) :
    Agrees n (Parser.expressionUnless limit kind) (Reader.expressionUnless kind) := by
  refine .check fun b => ?_
  cases b with
  | true => exact .pure none
  | false => exact (agrees_expression hlimit).bind fun e => .pure (some e)

/-- Reads a parameter after others, and a comma if one follows. -/
def Reader.parametersStep (before : List Name) : Reader (List Name ⊕ List Name) := do
  noteBeyond before.length .tooManyParameters
  let name ← expect .identifier .parameterName
  if ← accept (.mark .comma) then return .inl (before ++ [name.toName])
  else return .inr (before ++ [name.toName])

/-- Reads parameters after others. -/
def Reader.parametersAfter (bound : Nat) (before : List Name) : Reader (List Name) := do
  return before ++ (← parametersFrom bound before.length)

theorem Reader.parametersAfter_succ_eq (bound : Nat) (before : List Name) :
    parametersAfter (bound + 1) before =
      parametersStep before >>= Sum.elim (parametersAfter bound) pure := by
  simp only [parametersAfter, parametersFrom, parametersStep, bind_assoc]
  refine congrArg _ (funext fun _ => congrArg _ (funext fun e => congrArg _ (funext fun b => ?_)))
  cases b <;> simp [parametersAfter]

/-- A name comes first, and a comma before each further parameter. -/
theorem agreesAt_parametersRound (before : List Name) {p : Position} (hp : p.Sound) :
    AgreesAt (fun a p' => a.isLeft → p.current < p'.current) (Parser.parametersRound before)
      (Reader.parametersStep before) p := by
  refine (AgreesAt.noteBeyond hp before.length).bind fun _ p₁ hleads₁ _ => ?_
  have hp₁ := hleads₁.sound hp
  refine .consume hp₁ fun name rest hrest => ?_
  have hp₂ := hp₁.moved hrest
  refine .accept hp₂ (fun t rest hrest' => ?_) (.pure hp₂ (by simp))
  exact .pure (hp₂.moved hrest') fun _ =>
    Nat.lt_succ_of_le (hleads₁.trans (hp₁.leads_moved hrest)).le

theorem agrees_parameters (hlimit : n ≤ limit) :
    Agrees n (Parser.parameters limit) Reader.parameters := by
  refine .check fun b => ?_
  cases b with
  | true => exact .pure []
  | false =>
    intro p hp hlength
    have hloop : AgreesAt (fun _ _ => True)
        (Parser.repeated .parameters Parser.parametersRound limit [])
        (Reader.parametersAfter (p.cursor.rest.length + 1) []) p :=
      AgreesAt.repeated strictMono_id
        (fun bound before c _ => congrFun (Reader.parametersAfter_succ_eq bound before) c)
        (fun _ before p hp _ _ => agreesAt_parametersRound before hp) hp hlength
        (Nat.lt_of_lt_of_le hlength hlimit) (Nat.lt_succ_self _)
    refine hloop.of_eq rfl ?_ (.refl hp)
    simp [Reader.parametersAfter]
    rfl

theorem agrees_initializer? (hlimit : 3 * n ≤ limit) :
    Agrees n (Parser.initializer? limit) Reader.initializer? :=
  .accept ((agrees_expression (by omega)).bind fun e => .pure (some e)) (.pure none)

theorem agrees_superclass? : Agrees n Parser.superclass? Reader.superclass? :=
  .accept (.consume fun _ => Agrees.freshId.bind fun _ => .pure _) (.pure none)

theorem agrees_variableDecl (hlimit : 3 * n ≤ limit) :
    Agrees n (Parser.variableDecl limit) Reader.variableDecl :=
  .consume fun _ => (agrees_initializer? (by omega)).bind fun _ => .consume fun _ => .pure _

theorem agrees_expressionStmt (hlimit : 3 * n ≤ limit) :
    Agrees n (Parser.expressionStmt limit) Reader.expressionStmt :=
  (agrees_expression hlimit).bind fun _ => .consume fun _ => .pure _

theorem agrees_loopInitializer (hlimit : 3 * n ≤ limit) :
    Agrees n (Parser.loopInitializer limit) Reader.loopInitializer :=
  .accept (.pure none)
    (.accept ((agrees_variableDecl (by omega)).bind fun s => .pure (some s))
      ((agrees_expressionStmt hlimit).bind fun s => .pure (some s)))

end Parts

/-! ### Items -/

theorem Parser.untilEnd_apply {α : Type} (inBlock : Bool) (a : α) (x : Parser α) {p : Position}
    (hp : p.Sound) : untilEnd inBlock a x p =
      if Reader.endsItems inBlock p.cursor.rest then .ok a p else x p := by
  have hcheck : (if inBlock then check (.mark .rightBrace) else pure false : Parser Bool) p =
      .ok (inBlock && p.cursor.rest.head?.any (·.is (.mark .rightBrace))) p := by
    cases inBlock with
    | true => exact check_apply hp _
    | false => rfl
  rw [untilEnd, bind_of_ok hcheck, Reader.endsItems]
  cases hbrace : inBlock && p.cursor.rest.head?.any (·.is (.mark .rightBrace)) with
  | true =>
    rw [Bool.or_true]
    rfl
  | false =>
    change (isAtEnd >>= fun b => if b then pure a else x) p = _
    rw [bind_of_ok (isAtEnd_apply hp), Bool.or_false]
    cases p.cursor.rest <;> rfl

/-- Where items do not end, there is a token. -/
theorem AgreesAt.untilEnd {α : Type} {Q : α → Position → Prop} {x : Parser α} {y : Reader α} {a : α}
    {inBlock : Bool} {p : Position} (hp : p.Sound) (hq : Q a p)
    (h : p.cursor.rest ≠ [] → AgreesAt Q x y p) :
    AgreesAt Q (Parser.untilEnd inBlock a x) (Reader.untilEnd inBlock a y) p := by
  have hparser := Parser.untilEnd_apply inBlock a x hp
  cases hends : Reader.endsItems inBlock p.cursor.rest with
  | true =>
    rw [if_pos hends] at hparser
    exact .answer hparser (Reader.untilEnd_of_ends hends) (.refl hp) hq
  | false =>
    rw [hends] at hparser
    refine (h fun hnil => ?_).of_eq hparser (Reader.untilEnd_of_not_ends hends) (.refl hp)
    rw [hnil] at hends
    cases hends

namespace Reader

/-- Reads a declaration or a statement after others, unless they end. -/
def itemsStep (inBlock : Bool) (bound : Nat) (before : List Stmt) : Reader (List Stmt ⊕ List Stmt) :=
  untilEnd inBlock (.inr before) do
    return .inl (before ++ (← item bound).toList)

/-- Reads declarations and statements after others. -/
def itemsAfter (inBlock : Bool) (bound : Nat) (before : List Stmt) : Reader (List Stmt) := do
  return before ++ (← items bound inBlock)

/-- Reads a method after others, unless they end. -/
def methodsStep (bound : Nat) (before : List FunctionDecl) :
    Reader (List FunctionDecl ⊕ List FunctionDecl) :=
  untilEnd true (.inr before) do
    return .inl (before ++ [← routine bound .method])

/-- Reads methods after others. -/
def methodsAfter (bound : Nat) (before : List FunctionDecl) : Reader (List FunctionDecl) := do
  return before ++ (← methods bound)

/-- What comes after a step up to an end. -/
theorem untilEnd_bind_apply {α β : Type} (inBlock : Bool) (a : α) (x : Reader α) (f : α → Reader β)
    (c : Cursor) : (untilEnd inBlock a x >>= f) c =
      if endsItems inBlock c.rest then f a c else (x >>= f) c := by
  split
  · rename_i hends
    rw [bind_apply, untilEnd_of_ends hends]
  · rename_i hends
    rw [bind_apply, untilEnd_of_not_ends (Bool.eq_false_iff.mpr hends), bind_apply]

theorem itemsAfter_succ_eq (inBlock : Bool) (bound : Nat) (before : List Stmt) :
    itemsAfter inBlock (bound + 1) before =
      itemsStep inBlock bound before >>= Sum.elim (itemsAfter inBlock bound) pure := by
  funext c
  rw [itemsAfter, items_succ, itemsStep, untilEnd_bind_apply, untilEnd_bind_apply]
  simp [itemsAfter]

theorem methodsAfter_succ_eq (bound : Nat) (before : List FunctionDecl) :
    methodsAfter (bound + 1) before =
      methodsStep bound before >>= Sum.elim (methodsAfter bound) pure := by
  funext c
  rw [methodsAfter, methods_succ, methodsStep, untilEnd_bind_apply, untilEnd_bind_apply]
  simp [methodsAfter]

end Reader

section Items

variable {n depth limit : Nat}

/-- A parser agrees with a reader where fewer than a number of tokens are left, but some. -/
def AgreesBeforeEnd {α : Type} (n : Nat) (x : Parser α) (y : Reader α) : Prop :=
  ∀ p : Position, p.Sound → p.cursor.rest ≠ [] → p.cursor.rest.length < n →
    AgreesAt (fun _ _ => True) x y p

/-- Declarations and statements agree if each of them does; each takes a token. -/
theorem agreesAt_items {item : Parser (Option Stmt)} {loop : ParserLoop} {inBlock : Bool}
    (h : ∀ n' bound, n' ≤ n → 3 * n' ≤ bound + 1 → AgreesBeforeEnd n' item (Reader.item bound))
    {bound : Nat} (hlimit : n ≤ limit) (hbound : 3 * n ≤ bound) {p : Position} (hp : p.Sound)
    (hn : p.cursor.rest.length < n) :
    AgreesAt (fun _ _ => True) (Parser.repeated loop (Parser.itemsRound inBlock item) limit [])
      (Reader.items bound inBlock) p := by
  have hround (bound : Nat) (before : List Stmt) (p : Position) (hp : p.Sound)
      (hn : p.cursor.rest.length < n) (hneed : 3 * p.cursor.rest.length + 2 ≤ bound) :
      AgreesAt (fun a p' => a.isLeft → p.current < p'.current)
        (Parser.itemsRound inBlock item before) (Reader.itemsStep inBlock bound before) p := by
    refine .untilEnd hp (by simp) fun hrest => ?_
    have hitem : AgreesAt (fun _ p' => p.current < p'.current) item (Reader.item bound) p := by
      refine (h (p.cursor.rest.length + 1) bound hn (by omega) p hp hrest (Nat.lt_succ_self _)).mono
        fun s p' hread hleads _ => ?_
      obtain ⟨k, rfl⟩ : ∃ k, bound = k + 1 := ⟨bound - 1, by omega⟩
      exact (hleads.length_lt_iff hp).mp (Reader.StatementsKeep.item_length_lt hrest hread)
    exact hitem.bind fun s p' hleads hlt => .pure (hleads.sound hp) fun _ => hlt
  have hneeds : StrictMono fun l => 3 * l + 2 := fun _ _ hlt => by
    dsimp only
    omega
  have hloop : AgreesAt (fun _ _ => True)
      (Parser.repeated loop (Parser.itemsRound inBlock item) limit [])
      (Reader.itemsAfter inBlock bound []) p :=
    AgreesAt.repeated hneeds
      (fun bound before c _ => congrFun (Reader.itemsAfter_succ_eq inBlock bound before) c) hround hp
      hn (Nat.lt_of_lt_of_le hn hlimit) (by omega)
  refine hloop.of_eq rfl ?_ (.refl hp)
  simp [Reader.itemsAfter]

/-- Methods agree if each of them does; each takes a token. -/
theorem agrees_methods {method : Parser FunctionDecl}
    (h : ∀ n' bound, n' ≤ n → 3 * n' ≤ bound + 2 → Agrees n' method (Reader.routine bound .method))
    {bound : Nat} (hlimit : n ≤ limit) (hbound : 3 * n ≤ bound + 1) :
    Agrees n (Parser.repeated .classBody (Parser.methodsRound method) limit [])
      (Reader.methods bound) := by
  have hround (bound : Nat) (before : List FunctionDecl) (p : Position) (hp : p.Sound)
      (hn : p.cursor.rest.length < n) (hneed : 3 * p.cursor.rest.length + 1 ≤ bound) :
      AgreesAt (fun a p' => a.isLeft → p.current < p'.current)
        (Parser.methodsRound method before) (Reader.methodsStep bound before) p := by
    refine .untilEnd hp (by simp) fun _ => ?_
    have hmethod : AgreesAt (fun _ p' => p.current < p'.current) method
        (Reader.routine bound .method) p := by
      refine (h (p.cursor.rest.length + 1) bound hn (by omega) p hp (Nat.lt_succ_self _)).mono
        fun decl p' hread hleads _ => ?_
      exact (hleads.length_lt_iff hp).mp
        ((Reader.StatementsKeep.routine_takes bound .method).length_lt hread)
    exact hmethod.bind fun decl p' hleads hlt => .pure (hleads.sound hp) fun _ => hlt
  have hneeds : StrictMono fun l => 3 * l + 1 := fun _ _ hlt => by
    dsimp only
    omega
  intro p hp hn
  have hloop : AgreesAt (fun _ _ => True)
      (Parser.repeated .classBody (Parser.methodsRound method) limit [])
      (Reader.methodsAfter bound []) p :=
    AgreesAt.repeated hneeds
      (fun bound before c _ => congrFun (Reader.methodsAfter_succ_eq bound before) c) hround hp
      hn (Nat.lt_of_lt_of_le hn hlimit) (by omega)
  refine hloop.of_eq rfl ?_ (.refl hp)
  simp [Reader.methodsAfter]

/-- A block and what comes after it. -/
theorem agrees_block_bind {item : Parser (Option Stmt)}
    (h : ∀ n' bound, n' ≤ n → 3 * n' ≤ bound + 1 → AgreesBeforeEnd n' item (Reader.item bound))
    {bound : Nat} (hlimit : n ≤ limit) (hbound : 3 * n ≤ bound) {α : Type}
    {f : List Stmt → Parser α} {g : List Stmt → Reader α}
    (hf : ∀ body, Agrees (n - 1) (f body) (g body)) :
    Agrees n (Parser.block limit item >>= f) (do
      let body ← Reader.items bound true
      let _ ← Reader.expect (.mark .rightBrace) .blockClosing
      g body) := by
  have hitems : Agrees n (Parser.repeated .block (Parser.itemsRound true item) limit [])
      (Reader.items bound true) := fun p hp hn => agreesAt_items h hlimit hbound hp hn
  rw [Parser.block]
  simp only [bind_assoc, pure_bind]
  exact hitems.bind fun body => .consume fun _ => hf body

/-- Declarations agree if statements do, and functions and methods after a token. -/
theorem agreesBeforeEnd_declaration {bound : Nat} (hlimit : 3 * n ≤ limit)
    (hbound : 3 * n ≤ bound + 2)
    (hstatement : Agrees n (Parser.statement limit depth) (Reader.statement bound))
    (hroutine : ∀ n' bound, n' ≤ n - 1 → 3 * n' ≤ bound + 2 → ∀ kind,
      Agrees n' (Parser.routine limit depth kind) (Reader.routine bound kind)) :
    AgreesBeforeEnd n (Parser.declaration limit (depth + 1)) (Reader.item (bound + 1)) := by
  intro p hp hrest hn
  obtain ⟨t, hpeek, -⟩ := Parser.exists_peek hp
  refine AgreesAt.of_eq (Parser.bind_of_ok hpeek) rfl (.refl hp)
    (AgreesAt.orSynchronize (y := Reader.declaration bound) ?_ hp hrest (by omega))
  refine Agrees.accept ?_ (.accept ?_ (.accept ?_ hstatement)) p hp hn
  · exact .consume fun name => agrees_superclass?.bind fun superclass => .consume fun _ =>
      (agrees_methods (fun n' bound hle hb => hroutine n' bound (by omega) hb .method) (by omega)
        (by omega)).bind fun methods => .consume fun _ => .pure _
  · exact (hroutine (n - 1) bound (Nat.le_refl _) (by omega) .function).bind fun decl => .pure _
  · exact agrees_variableDecl (by omega)

/-- Statements agree if statements and declarations do after a token. -/
theorem agrees_statement {bound : Nat} (hlimit : 3 * n ≤ limit) (hbound : 3 * n ≤ bound + 3)
    (hbody : Agrees (n - 1) (Parser.statement limit depth) (Reader.statement bound))
    (hitem : ∀ n' bound, n' ≤ n - 1 → 3 * n' ≤ bound + 1 →
      AgreesBeforeEnd n' (Parser.declaration limit depth) (Reader.item bound)) :
    Agrees n (Parser.statement limit (depth + 1)) (Reader.statement (bound + 1)) := by
  rw [Parser.statement, Reader.statement]
  refine .accept ?_ (.accept ?_ (.accept ?_ (.acceptPrevious (fun keyword _ => ?_)
    (.accept ?_ ?_))))
  · exact .consume fun _ => (agrees_loopInitializer (by omega)).bind fun initializer =>
      (agrees_expressionUnless (by omega) _).bind fun condition => .consume fun _ =>
      (agrees_expressionUnless (by omega) _).bind fun increment => .consume fun _ =>
      (hbody.of_le (by omega)).bind fun body => .pure _
  · exact .consume fun _ => (agrees_expression (by omega)).bind fun condition =>
      .consume fun _ => (hbody.of_le (by omega)).bind fun thenBranch =>
      .accept ((hbody.of_le (by omega)).bind fun elseBranch => .pure _) (.pure _)
  · exact .consume fun _ => (agrees_expression (by omega)).bind fun condition =>
      .consume fun _ => (hbody.of_le (by omega)).bind fun body => .pure _
  · exact (agrees_expressionUnless (by omega) _).bind fun value => .consume fun _ => .pure _
  · exact agrees_block_bind hitem (by omega) (by omega) fun body => .pure _
  · exact agrees_expressionStmt hlimit

/-- Functions and methods agree if the declarations in their bodies do. -/
theorem agrees_routine {bound : Nat} (hlimit : 3 * n ≤ limit) (hbound : 3 * n ≤ bound + 3)
    (hitem : ∀ n' bound, n' ≤ n - 1 → 3 * n' ≤ bound + 1 →
      AgreesBeforeEnd n' (Parser.declaration limit depth) (Reader.item bound))
    (kind : Routine) :
    Agrees n (Parser.routine limit (depth + 1) kind) (Reader.routine (bound + 1) kind) := by
  rw [Parser.routine, Reader.routine]
  exact .consume fun name => .consume fun _ => (agrees_parameters (by omega)).bind fun params =>
    .consume fun _ => .consume fun _ =>
    agrees_block_bind (fun n' bound hle => hitem n' bound (by omega)) (by omega) (by omega)
      fun body => .pure _

/-- Declarations and statements call each other at most three times for each token. -/
theorem agrees_statements (limit depth : Nat) : ∀ n bound, 3 * n ≤ limit →
    (3 * n ≤ depth + 1 → 3 * n ≤ bound + 1 →
      AgreesBeforeEnd n (Parser.declaration limit depth) (Reader.item bound)) ∧
    (3 * n ≤ depth + 2 → 3 * n ≤ bound + 2 →
      Agrees n (Parser.statement limit depth) (Reader.statement bound)) ∧
    (3 * n ≤ depth + 2 → 3 * n ≤ bound + 2 →
      ∀ kind, Agrees n (Parser.routine limit depth kind) (Reader.routine bound kind)) := by
  induction depth with
  | zero =>
    refine fun n bound _ => ⟨fun hn _ => ?_, fun hn _ => ?_, fun hn _ kind => ?_⟩ <;>
    obtain rfl : n = 0 := by omega
    · exact fun _ _ _ hn => absurd hn (Nat.not_lt_zero _)
    · exact .zero _ _
    · exact .zero _ _
  | succ depth ih =>
    intro n bound hlimit
    rcases Nat.eq_zero_or_pos n with rfl | hpos
    · exact ⟨fun _ _ _ _ _ hn => absurd hn (Nat.not_lt_zero _), fun _ _ => .zero _ _,
        fun _ _ _ => .zero _ _⟩
    refine ⟨fun hd hb => ?_, fun hd hb => ?_, fun hd hb => ?_⟩ <;>
    obtain ⟨bound, rfl⟩ : ∃ k, bound = k + 1 := ⟨bound - 1, by omega⟩
    · exact agreesBeforeEnd_declaration hlimit (by omega) ((ih n bound hlimit).2.1 (by omega) (by omega))
        fun n' bound hle hb => (ih n' bound (by omega)).2.2 (by omega) hb
    · exact agrees_statement hlimit (by omega) ((ih (n - 1) bound (by omega)).2.1 (by omega) (by omega))
        fun n' bound hle hb => (ih n' bound (by omega)).1 (by omega) hb
    · exact agrees_routine hlimit (by omega) fun n' bound hle hb =>
        (ih n' bound (by omega)).1 (by omega) hb

end Items

/-! ### Programs -/

/-- The tokens before the first end of the text are as many as its index says. -/
theorem length_tokensBeforeEnd (tokens : List Token) :
    (tokensBeforeEnd tokens).length = tokens.findIdx (·.kind.isEnd) := by
  rw [tokensBeforeEnd]
  induction tokens with
  | nil => rfl
  | cons t rest ih => cases h : t.kind.isEnd <;> simp [List.findIdx_cons, h, ih]

/-- At the beginning of a text that has an end. -/
theorem Position.sound_start {tokens : List Token} (h : ∃ t ∈ tokens, t.kind.isEnd) (nextId : Nat) :
    (Position.start tokens nextId).Sound := by
  refine ⟨Nat.zero_le _, ?_⟩
  have hlt : tokens.findIdx (·.kind.isEnd) < tokens.length := List.findIdx_lt_length_of_exists h
  rw [Position.last, length_tokensBeforeEnd]
  exact ⟨_, List.getElem?_eq_getElem hlt, List.findIdx_getElem (w := hlt)⟩

/-- Parsing comes to an end and stays within the tokens, if the last one is an end of the text: it
never looks at a token outside of them, nor at one before the first one, whatever they are and however
often statements fail. Up to the first end of the text the index only moves on, and never past it; and
in each round of a loop that another one follows, it does. What is parsed is what is read. -/
theorem Parser.parse_in_bounds {tokens : List Token} {final : Token}
    (hlast : tokens.getLast? = some final) (hfinal : final.kind.isEnd) (nextId : Nat) {limit : Nat}
    (hlimit : 3 * tokens.length ≤ limit) :
    ∃ body p, parse limit (.start tokens nextId) = .ok body p ∧
      Program.ofTokens nextId tokens = ⟨body, p.errors, p.nextId⟩ ∧
      tokens.findIdx (·.kind.isEnd) < tokens.length ∧
      Walk (tokens.findIdx (·.kind.isEnd)) 0 p.motions p.current ∧
      ∀ loop before after, .round loop before after ∈ p.motions → before < after := by
  have hexists : ∃ t ∈ tokens, t.kind.isEnd := ⟨final, List.mem_of_getLast? hlast, hfinal⟩
  have hlt : tokens.findIdx (·.kind.isEnd) < tokens.length :=
    List.findIdx_lt_length_of_exists hexists
  have hp := Position.sound_start hexists nextId
  obtain ⟨d, hread, herrors, hnext⟩ := Program.items_ofTokens nextId tokens
  have hlength := length_tokensBeforeEnd tokens
  have hagrees : AgreesAt (fun _ _ => True) (parse limit)
      (Reader.items (3 * (tokensBeforeEnd tokens).length + 3) false) (.start tokens nextId) :=
    agreesAt_items (n := (tokensBeforeEnd tokens).length + 1)
      (fun n' bound hn hb => (agrees_statements limit limit n' bound (by omega)).1 (by omega) hb)
      (by omega) (by omega) hp (Nat.lt_succ_self _)
  cases hagrees with
  | failure hx hy hleads => cases hread.symm.trans hy
  | @answer body p hx hy hleads _ =>
    cases hread.symm.trans hy
    obtain ⟨motions, hmotions, hwalk⟩ := hleads.walk
    obtain rfl : p.motions = motions := hmotions
    have hwalk : Walk (tokens.findIdx (·.kind.isEnd)) 0 p.motions p.current := by
      rw [← hlength]
      exact hwalk
    have herrors : p.errors = (Program.ofTokens nextId tokens).errors := herrors
    have hnext : p.nextId = (Program.ofTokens nextId tokens).nextId := hnext
    refine ⟨_, p, hx, ?_, hlt, hwalk, fun loop before after hmem => (hwalk.lt_of_round_mem hmem).1⟩
    rw [herrors, hnext]

/-- Two statements fail in `f(; x`, which an end of the text separates from `};` and another end. -/
theorem Parser.parse_in_bounds_twoEnds :
    let tokens : List Token := [.name "f", .mark .leftParen, .mark .semicolon, .name "x",
      .endOfText, .mark .rightBrace, .mark .semicolon, .endOfText].map Sign.token
    tokens.getLast? = some Sign.endOfText.token ∧
    ∃ body p, parse 24 (.start tokens 0) = .ok body p ∧
      p.errors.map SyntaxError.fault = [.expression, .expressionEnd] ∧ Walk 4 0 p.motions p.current := by
  intro tokens
  refine ⟨rfl, ?_⟩
  obtain ⟨body, p, hparse, hprogram, -, hwalk, -⟩ :=
    @Parser.parse_in_bounds tokens Sign.endOfText.token rfl rfl 0 24 (by decide)
  refine ⟨body, p, hparse, ?_, hwalk⟩
  have herrors := congrArg (fun program => program.errors.map SyntaxError.fault) hprogram
  exact herrors.symm.trans (by decide +kernel)

end Treewalk
