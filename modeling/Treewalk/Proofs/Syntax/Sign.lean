import Mathlib
import Treewalk.Syntax.Program

/-!
# Signs

What a reader of tokens sees of a token: its kind, the value of a literal, and the word of a name.
Lexemes of other tokens and lines do not matter to what a text means; the trees keep lines only to
report them.

A tree without its lines and node numbers is *bare*. Two readings of one text differ in nothing
else.

## Main definitions

* `Sign`, `Token.sign`: what a token says.
* `Expr.bare`, `Stmt.bare`: trees without lines and node numbers.
-/

namespace Treewalk

/-- What a token says, wherever it stands. -/
inductive Sign
  | mark (m : Mark)
  | keyword (k : Keyword)
  | name (text : String)
  | string (text : String)
  | number (value : Float)
  | endOfText

/-- What a token says. -/
def Token.sign (t : Token) : Sign :=
  match t.kind with
  | .mark m => .mark m
  | .keyword k => .keyword k
  | .identifier => .name t.lexeme
  | .string text => .string text
  | .number value => .number value
  | .endOfText => .endOfText

/-- A token that says something, at the beginning of a text. -/
def Sign.token : Sign → Token
  | mark m => ⟨.mark m, m.text, 1⟩
  | keyword k => ⟨.keyword k, k.text, 1⟩
  | name text => ⟨.identifier, text, 1⟩
  | string text => ⟨.string text, text, 1⟩
  | number value => ⟨.number value, "", 1⟩
  | endOfText => ⟨.endOfText, "", 1⟩

@[simp] theorem Sign.sign_token (s : Sign) : s.token.sign = s := by
  cases s <;> rfl

theorem Sign.map_sign_token (ss : List Sign) : (ss.map Sign.token).map Token.sign = ss := by
  simp [Function.comp_def]

/-- What a name looks like. -/
def Name.sign (n : Name) : Sign :=
  .name n.text

namespace Token

variable {t : Token}

theorem is_mark {m : Mark} : t.is (.mark m) ↔ t.sign = .mark m := by
  obtain ⟨kind, lexeme, line⟩ := t
  cases kind <;> simp [is, sign, TokenKind.sameCategory]

theorem is_keyword {k : Keyword} : t.is (.keyword k) ↔ t.sign = .keyword k := by
  obtain ⟨kind, lexeme, line⟩ := t
  cases kind <;> simp [is, sign, TokenKind.sameCategory]

theorem is_identifier : t.is .identifier ↔ t.sign = t.toName.sign := by
  obtain ⟨kind, lexeme, line⟩ := t
  cases kind <;> simp [is, sign, TokenKind.sameCategory, Name.sign, toName]

theorem isEnd_iff : t.kind.isEnd ↔ t.sign = .endOfText := by
  obtain ⟨kind, lexeme, line⟩ := t
  cases kind <;> simp [sign, TokenKind.isEnd, TokenKind.sameCategory]

theorem lexeme_of_sign {text : String} (h : t.sign = .name text) : t.lexeme = text := by
  obtain ⟨kind, lexeme, line⟩ := t
  cases kind <;> simp_all [sign]

end Token

/-! ### What constants and operators look like -/

/-- What a constant looks like. -/
def Literal.sign : Literal → Sign
  | nil => .keyword .nilWord
  | bool true => .keyword .trueWord
  | bool false => .keyword .falseWord
  | number value => .number value
  | string text => .string text

/-- What an operator looks like. -/
def UnaryOp.sign (op : UnaryOp) : Sign :=
  .mark op.mark

/-- What an operator looks like. -/
def BinaryOp.sign (op : BinaryOp) : Sign :=
  .mark op.mark

/-- What an operator looks like. -/
def LogicalOp.sign (op : LogicalOp) : Sign :=
  .keyword op.keyword

theorem Token.literal?_eq_some {t : Token} {l : Literal} :
    t.literal? = some l ↔ t.sign = l.sign := by
  obtain ⟨kind, lexeme, line⟩ := t
  constructor
  · intro h
    unfold literal? at h
    split at h
    all_goals cases h
    all_goals next hkind => rw [sign, hkind]; rfl
  · intro h
    cases l with
    | bool b => cases b <;> cases kind <;> cases h <;> rfl
    | _ =>
      cases kind <;> cases h
      rfl

theorem Token.unaryOp?_eq_some {t : Token} {op : UnaryOp} :
    t.unaryOp? = some op ↔ t.sign = op.sign := by
  obtain ⟨kind, lexeme, line⟩ := t
  cases kind with
  | mark m => cases m <;> cases op <;> simp [unaryOp?, sign, UnaryOp.sign, UnaryOp.mark]
  | _ => cases op <;> simp [unaryOp?, sign, UnaryOp.sign]

/-! ### Trees without their places -/

/-- A name without its line. -/
def Name.bare (n : Name) : Name :=
  ⟨n.text, 0⟩

mutual

/-- An expression without lines and node numbers. -/
def Expr.bare : Expr → Expr
  | .literal l => .literal l
  | .grouping inner => .grouping inner.bare
  | .unary op _ operand => .unary op 0 operand.bare
  | .binary op _ left right => .binary op 0 left.bare right.bare
  | .logical op _ left right => .logical op 0 left.bare right.bare
  | .ternary condition whenTrue whenFalse =>
    .ternary condition.bare whenTrue.bare whenFalse.bare
  | .variable _ name => .variable 0 name.bare
  | .assign _ name value => .assign 0 name.bare value.bare
  | .call callee _ arguments => .call callee.bare 0 (Expr.bareAll arguments)
  | .get object name => .get object.bare name.bare
  | .set object name value => .set object.bare name.bare value.bare
  | .this _ _ => .this 0 0
  | .super _ _ method => .super 0 0 method.bare

/-- Expressions without lines and node numbers. -/
def Expr.bareAll : List Expr → List Expr
  | [] => []
  | e :: es => e.bare :: Expr.bareAll es

end

/-- A superclass without its line and number. -/
def Superclass.bare (s : Superclass) : Superclass :=
  ⟨0, s.name.bare⟩

mutual

/-- A statement without lines and node numbers. -/
def Stmt.bare : Stmt → Stmt
  | .expression e => .expression e.bare
  | .variable name initializer => .variable name.bare (initializer.map Expr.bare)
  | .block body => .block (Stmt.bareAll body)
  | .ifThen condition thenBranch => .ifThen condition.bare thenBranch.bare
  | .ifElse condition thenBranch elseBranch =>
    .ifElse condition.bare thenBranch.bare elseBranch.bare
  | .while condition body => .while condition.bare body.bare
  | .function decl => .function decl.bare
  | .return _ value => .return 0 (value.map Expr.bare)
  | .class name superclass methods =>
    .class name.bare (superclass.map Superclass.bare) (Stmt.bareMethods methods)

/-- Statements without lines and node numbers. -/
def Stmt.bareAll : List Stmt → List Stmt
  | [] => []
  | s :: ss => s.bare :: Stmt.bareAll ss

/-- A function declaration without lines and node numbers. -/
def FunctionDecl.bare : FunctionDecl → FunctionDecl
  | ⟨name, params, body⟩ => ⟨name.bare, params.map Name.bare, Stmt.bareAll body⟩

/-- Methods without lines and node numbers. -/
def Stmt.bareMethods : List FunctionDecl → List FunctionDecl
  | [] => []
  | m :: ms => m.bare :: Stmt.bareMethods ms

end

theorem Name.bare_inj {n n' : Name} : n.bare = n'.bare ↔ n.text = n'.text := by
  simp [Name.bare]

/-- A token that says a name is that name. -/
theorem Token.bare_toName {t : Token} {name : Name} (h : t.sign = name.sign) :
    t.toName.bare = name.bare :=
  Name.bare_inj.mpr (Token.lexeme_of_sign h)

theorem Token.is_identifier_of_sign {t : Token} {name : Name} (h : t.sign = name.sign) :
    t.is .identifier := by
  rw [is_identifier, h, Name.sign, Name.sign, toName, lexeme_of_sign h]

@[simp] theorem Expr.bareAll_eq_map (es : List Expr) : Expr.bareAll es = es.map Expr.bare := by
  induction es with
  | nil => rfl
  | cons e es ih => rw [Expr.bareAll, ih, List.map_cons]

@[simp] theorem Stmt.bareAll_eq_map (ss : List Stmt) : Stmt.bareAll ss = ss.map Stmt.bare := by
  induction ss with
  | nil => rfl
  | cons s ss ih => rw [Stmt.bareAll, ih, List.map_cons]

@[simp] theorem Stmt.bareMethods_eq_map (ms : List FunctionDecl) :
    Stmt.bareMethods ms = ms.map FunctionDecl.bare := by
  induction ms with
  | nil => rfl
  | cons m ms ih => rw [Stmt.bareMethods, ih, List.map_cons]

end Treewalk
