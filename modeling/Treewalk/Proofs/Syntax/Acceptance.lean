import Treewalk.Proofs.Syntax.Completeness.Program
import Treewalk.Proofs.Syntax.Grammar
import Treewalk.Proofs.Syntax.RoundTrip

/-!
# What is accepted

A text is read without a fault exactly if it can be derived from the grammar. The grammar is
ambiguous where an `else` could belong to several conditions, so from a derivation a reading is made
in which it belongs to the last one.

## Main definitions

* `Rule.Texts`: what the texts of a rule read as.

## Main results

* `Expr.Reads.derives`, `Stmt.Reads.derives`: what reads can be derived.
* `Rule.closed`: what can be derived reads.
* `Program.ofTokens_accepts_iff`: the texts without a fault are those of the grammar.
-/

namespace Treewalk

open Ebnf

/-! ### What reads can be derived -/

/-- The rule of a level. -/
def Level.rule : Level → Rule
  | or => .logicOr
  | and => .logicAnd
  | equality => .equality
  | comparison => .comparison
  | sum => .term
  | product => .factor

/-- The rule of a tier. -/
def Tier.rule : Tier → Rule
  | assignment => .assignment
  | level l => l.rule
  | ternary => .ternary
  | unary => .unary
  | call => .call
  | primary => .primary

/-- The operators of a level. -/
def Level.operators : Level → Ebnf
  | or => word .orWord
  | and => word .andWord
  | equality => mark .bangEqual ||| mark .equalEqual
  | comparison => mark .greater ||| mark .greaterEqual ||| mark .less ||| mark .lessEqual
  | sum => mark .minus ||| mark .plus
  | product => mark .slash ||| mark .star

theorem Level.body_rule (l : Level) :
    l.rule.body = Ebnf.rule l.operand.rule ++ many (l.operators ++ Ebnf.rule l.operand.rule) := by
  cases l <;> rfl

theorem Derives.of_eq {g : Ebnf} {ts us : List Sign} (h : Derives g ts) (he : ts = us) :
    Derives g us :=
  he ▸ h

theorem Derives.expression {ts : List Sign} (h : Derives (.rule .assignment) ts) :
    Derives (.rule .expression) ts :=
  .rule h

theorem Derives.mark (m : Mark) : Derives (Ebnf.mark m) [.mark m] :=
  .terminal rfl

theorem Derives.word (k : Keyword) : Derives (Ebnf.word k) [.keyword k] :=
  .terminal rfl

theorem Derives.name (name : Name) : Derives identifier [name.sign] :=
  .terminal trivial

theorem Derives.none (g : Ebnf) : Derives (opt g) [] :=
  .repeated [] (by simp) (by simp)

theorem Derives.some {g : Ebnf} {ts : List Sign} (h : Derives g ts) : Derives (opt g) ts := by
  have h' : Derives (opt g) [ts].flatten := .repeated [ts] (by simpa using h) (by simp)
  simpa using h'

/-- Parts that can be derived, one after the other. -/
theorem Derives.many {g : Ebnf} {parts : List (List Sign)} (h : ∀ p ∈ parts, Derives g p) :
    Derives (Ebnf.many g) parts.flatten :=
  .repeated parts h nofun

theorem Derives.many_nil (g : Ebnf) : Derives (Ebnf.many g) [] :=
  .repeated [] (by simp) nofun

/-- Parts that can be derived, with commas between them. -/
theorem Derives.commaList {r : Rule} {parts : List (List Sign)} (hne : parts ≠ [])
    (hl : parts.length ≤ maxArguments) (h : ∀ p ∈ parts, Derives (.rule r) p) :
    Derives (Ebnf.commaList (.rule r)) (separated parts) :=
  .of_means (means_commaList.mpr ⟨parts, rfl, hne, hl, h⟩)

theorem BinaryOp.derives_sign (op : BinaryOp) : Derives op.level.operators [op.sign] := by
  cases op with
  | notEqual | subtract | divide => exact .first (.mark _)
  | equal | add | multiply | lessEqual => exact .second (.mark _)
  | greater => exact .first (.first (.first (.mark _)))
  | greaterEqual => exact .first (.first (.second (.mark _)))
  | less => exact .first (.second (.mark _))

theorem LogicalOp.derives_sign (op : LogicalOp) : Derives op.level.operators [op.sign] := by
  cases op <;> exact .word _

/-- An operator of a level and its right operand after a left operand. -/
theorem Derives.level_snoc {l : Level} {ts us : List Sign} {s : Sign} (h : Derives (.rule l.rule) ts)
    (hs : Derives l.operators [s]) (hr : Derives (.rule l.operand.rule) us) :
    Derives (.rule l.rule) (ts ++ s :: us) := by
  have hbody := h.body_of_rule
  refine .rule ?_
  rw [l.body_rule] at hbody ⊢
  exact hbody.snoc (hs.seq hr)

theorem Literal.derives_sign (l : Literal) : Derives (.rule .primary) [l.sign] := by
  refine .rule <| .first <| .first ?_
  cases l with
  | number value =>
    exact .first <| .first <| .first <| .first <| .first <| .first <| .terminal trivial
  | string text =>
    exact .first <| .first <| .first <| .first <| .first <| .second <| .terminal trivial
  | bool b =>
    cases b with
    | true => exact .first <| .first <| .first <| .first <| .second <| .word _
    | false => exact .first <| .first <| .first <| .second <| .word _
  | nil => exact .first <| .first <| .second <| .word _

/-- What reads as an expression of a tier can be derived from the rule of the tier; and before the
name of a property, a call can be derived. -/
theorem Expr.Reads.derives {tier : Tier} {ts : List Sign} {e : Expr} (h : Expr.Reads tier ts e) :
    Derives (.rule tier.rule) ts ∧ ∀ object name, e = .get object name →
      ∃ us, ts = us ++ [.mark .dot, name.sign] ∧ Derives (.rule .call) us := by
  induction h with
  | literal l => exact ⟨l.derives_sign, nofun⟩
  | «variable» id name =>
    exact ⟨.rule <| .first <| .first <| .second <| .name name, nofun⟩
  | this id line =>
    exact ⟨.rule <| .first <| .first <| .first <| .second <| .word _, nofun⟩
  | super id line method =>
    exact ⟨.rule <| .second <| ((Derives.word _).seq (.mark _)).seq (.name method), nofun⟩
  | grouping _ ih =>
    exact ⟨.rule <| .first <| .second <| ((Derives.mark _).seq (.expression ih.1)).seq (.mark _),
      nofun⟩
  | @ofPrimary ts e _ ih =>
    refine ⟨.rule ?_, ih.2⟩
    rw [← List.append_nil ts]
    exact ih.1.seq (.many_nil _)
  | @call ts callee line arguments _ _ hn ihc iha =>
    refine ⟨?_, nofun⟩
    have harguments : Derives (opt (Ebnf.rule .arguments)) (separated (arguments.map (·.1))) := by
      by_cases hnil : arguments = []
      · rw [hnil]
        exact .none _
      · refine .some <| .rule <| .commaList (by simpa using hnil) (by simpa using hn) fun p hp => ?_
        obtain ⟨a, ha, rfl⟩ := List.mem_map.mp hp
        exact .expression (iha a ha).1
    have hbody := Derives.snoc ihc.1.body_of_rule
      (.first (((Derives.mark .leftParen).seq harguments).seq (.mark .rightParen)))
    rw [List.append_assoc]
    exact .rule hbody
  | @get ts object name _ ih =>
    refine ⟨.rule ?_, ?_⟩
    · exact Derives.snoc ih.1.body_of_rule (.second ((Derives.mark .dot).seq (.name name)))
    · rintro _ _ ⟨⟩
      exact ⟨ts, rfl, ih.1⟩
  | ofCall _ ih => exact ⟨.rule (.second ih.1), ih.2⟩
  | unary op line _ ih =>
    have hop : Derives (Ebnf.mark .bang ||| Ebnf.mark .minus) [op.sign] := by
      cases op
      · exact .second (.mark _)
      · exact .first (.mark _)
    exact ⟨.rule (.first (hop.seq ih.1)), nofun⟩
  | @ofOperand ts e l _ ih =>
    have hbody : Derives l.rule.body (ts ++ []) := by
      rw [l.body_rule]
      exact ih.1.seq (.many_nil _)
    exact ⟨.rule (hbody.of_eq (List.append_nil ts)), ih.2⟩
  | binary op line hl _ _ ih ih' =>
    subst hl
    exact ⟨ih.1.level_snoc op.derives_sign ih'.1, nofun⟩
  | logical op line hl _ _ ih ih' =>
    subst hl
    exact ⟨ih.1.level_snoc op.derives_sign ih'.1, nofun⟩
  | @ofEquality ts e _ ih =>
    refine ⟨.rule ?_, ih.2⟩
    rw [← List.append_nil ts]
    exact ih.1.seq (.none _)
  | ternary _ _ _ ihc iht ihf =>
    refine ⟨.rule ?_, nofun⟩
    have hrest := (((Derives.mark .question).seq iht.1).seq (.mark .colon)).seq ihf.1
    exact (ihc.1.seq (.some hrest)).of_eq (by simp)
  | ofOr _ ih => exact ⟨.rule (.second ih.1), ih.2⟩
  | @assign ts us target name value id ht _ _ ihv =>
    refine ⟨.rule (.first ?_), nofun⟩
    rw [← ht.write_eq]
    exact (((Derives.none _).seq (.name name)).seq (.mark .equal)).seq ihv.1
  | @set ts us object name value _ _ iht ihv =>
    refine ⟨.rule (.first ?_), nofun⟩
    obtain ⟨vs, rfl, hcall⟩ := iht.2 object name rfl
    have h := (((Derives.some (hcall.seq (.mark .dot))).seq (.name name)).seq (.mark .equal)).seq
      ihv.1
    exact h.of_eq (by simp)

theorem Expr.Reads.derives_expression {ts : List Sign} {e : Expr}
    (h : Expr.Reads .assignment ts e) : Derives (.rule .expression) ts :=
  .expression h.derives.1

theorem Expr.ReadsOptional.derives {ts : List Sign} {e : Option Expr}
    (h : Expr.ReadsOptional ts e) : Derives (opt (.rule .expression)) ts := by
  cases h with
  | none => exact .none _
  | some h => exact .some h.derives_expression

theorem Expr.ReadsInitializer.derives {ts : List Sign} {e : Option Expr}
    (h : Expr.ReadsInitializer ts e) :
    Derives (opt (Ebnf.mark .equal ++ .rule .expression)) ts := by
  cases h with
  | none => exact .none _
  | some h => exact .some ((Derives.mark .equal).seq h.derives_expression)

/-- The rule of a phrase. -/
def Phrase.rule : Phrase → Rule
  | item => .declaration
  | statement _ => .statement

theorem Derives.varDecl {name : Name} {ts : List Sign} {e : Option Expr}
    (h : Expr.ReadsInitializer ts e) :
    Derives (.rule .varDecl) (.keyword .varWord :: name.sign :: ts ++ [.mark .semicolon]) :=
  .rule ((((Derives.word .varWord).seq (.name name)).seq h.derives).seq (.mark .semicolon))

theorem Derives.exprStmt {ts : List Sign} {e : Expr} (h : Expr.Reads .assignment ts e) :
    Derives (.rule .exprStmt) (ts ++ [.mark .semicolon]) :=
  .rule (h.derives_expression.seq (.mark .semicolon))

theorem Stmt.ReadsClause.derives {ts : List Sign} {s : Option Stmt} (h : Stmt.ReadsClause ts s) :
    Derives (.rule .varDecl ||| .rule .exprStmt ||| Ebnf.mark .semicolon) ts := by
  cases h with
  | none => exact .second (.mark _)
  | «variable» name h => exact .first (.first (.varDecl h))
  | expression h => exact .first (.second (.exprStmt h))

/-- Items that can each be derived, in braces. -/
theorem Derives.block {body : List (List Sign × Stmt)}
    (h : ∀ p ∈ body, Derives (.rule .declaration) p.1) :
    Derives (.rule .block) (.mark .leftBrace :: (body.map (·.1)).flatten ++ [.mark .rightBrace]) := by
  have hmany : Derives (Ebnf.many (.rule .declaration)) (body.map (·.1)).flatten :=
    .many fun ts hts => by
      obtain ⟨p, hp, rfl⟩ := List.mem_map.mp hts
      exact h p hp
  exact .rule (((Derives.mark .leftBrace).seq hmany).seq (.mark .rightBrace))

/-- A function or method whose items can each be derived. -/
theorem Derives.function {f : RoutineText} (hn : f.params.length ≤ maxArguments)
    (h : ∀ p ∈ f.body, Derives (.rule .declaration) p.1) : Derives (.rule .function) f.signs := by
  have hparams : Derives (opt (.rule .parameters)) (separated (f.params.map fun p => [p.sign])) := by
    by_cases hnil : f.params = []
    · rw [hnil]
      exact .none _
    · refine .some <| .rule <| .of_means <| means_commaList.mpr
        ⟨_, rfl, by simpa using hnil, by simpa using hn, fun p hp => ?_⟩
      obtain ⟨name, -, rfl⟩ := List.mem_map.mp hp
      exact means_identifier.mpr ⟨name, rfl⟩
  have hbody := ((((Derives.name f.name).seq (.mark .leftParen)).seq hparams).seq
    (.mark .rightParen)).seq (Derives.block h)
  exact .rule (hbody.of_eq (by simp [RoutineText.signs, routineSigns]))

/-- What reads as a statement can be derived. -/
theorem Stmt.Reads.derives {phrase : Phrase} {ts : List Sign} {s : Stmt}
    (h : Stmt.Reads phrase ts s) : Derives (.rule phrase.rule) ts := by
  induction h with
  | ofStatement _ ih => exact .rule (.second ih)
  | «class» name superclass methods hn _ ih =>
    have hsuper : Derives (opt (Ebnf.mark .less ++ identifier)) (Superclass.signs superclass) := by
      cases superclass with
      | none => exact .none _
      | some s => exact .some ((Derives.mark .less).seq (.name s.name))
    have hmethods : Derives (Ebnf.many (.rule .function)) (methods.map (·.signs)).flatten :=
      .many fun ts hts => by
        obtain ⟨m, hm, rfl⟩ := List.mem_map.mp hts
        exact .function (hn m hm) (ih m hm)
    have hbody := (((((Derives.word .classWord).seq (.name name)).seq hsuper).seq
      (.mark .leftBrace)).seq hmethods).seq (.mark .rightBrace)
    exact .rule <| .first <| .first <| .first <| .rule <| hbody.of_eq (by simp [classSigns])
  | function f hn _ ih =>
    exact .rule <| .first <| .first <| .second <| .rule <|
      (Derives.word .funWord).seq (Derives.function hn ih)
  | «variable» name h => exact .rule <| .first <| .second <| .varDecl h
  | expression h =>
    exact .rule <| .first <| .first <| .first <| .first <| .first <| .exprStmt h
  | loop hi hc hs _ ih =>
    have hbody := (((((((Derives.word .forWord).seq (.mark .leftParen)).seq hi.derives).seq
      hc.derives).seq (.mark .semicolon)).seq hs.derives).seq (.mark .rightParen)).seq ih
    exact .rule <| .first <| .first <| .first <| .first <| .second <| .rule <|
      hbody.of_eq (by simp)
  | ifThen hc _ ih =>
    have hbody := (((((Derives.word .ifWord).seq (.mark .leftParen)).seq hc.derives_expression).seq
      (.mark .rightParen)).seq ih).seq (.none (Ebnf.word .elseWord ++ .rule .statement))
    exact .rule <| .first <| .first <| .first <| .second <| .rule <| hbody.of_eq (by simp)
  | ifElse hc _ _ iht ihe =>
    have hbody := (((((Derives.word .ifWord).seq (.mark .leftParen)).seq hc.derives_expression).seq
      (.mark .rightParen)).seq iht).seq (.some ((Derives.word .elseWord).seq ihe))
    exact .rule <| .first <| .first <| .first <| .second <| .rule <| hbody.of_eq (by simp)
  | «while» hc _ ih =>
    have hbody := ((((Derives.word .whileWord).seq (.mark .leftParen)).seq
      hc.derives_expression).seq (.mark .rightParen)).seq ih
    exact .rule <| .first <| .second <| .rule <| hbody.of_eq (by simp)
  | «return» line h =>
    have hbody := ((Derives.word .returnWord).seq h.derives).seq (.mark .semicolon)
    exact .rule <| .first <| .first <| .second <| .rule <| hbody.of_eq (by simp)
  | block body _ ih => exact .rule <| .second <| .block ih

/-- What reads as the statements of a program can be derived, up to the end of the text. -/
theorem ReadsItems.derives {ts : List Sign} {ss : List Stmt} (h : ReadsItems ts ss) :
    Derives (.rule .program) (ts ++ [.endOfText]) := by
  obtain ⟨body, rfl, -, hb⟩ := h
  have hmany : Derives (Ebnf.many (.rule .declaration)) (body.map (·.1)).flatten :=
    .many fun ts hts => by
      obtain ⟨p, hp, rfl⟩ := List.mem_map.mp hts
      exact (hb p hp).derives
  exact .rule (hmany.seq (.terminal trivial))

/-! ### What can be derived reads -/

/-- What the texts of a rule read as. -/
def Rule.Texts : Rule → List Sign → Prop
  | program, ts => ∃ us ss, ts = us ++ [.endOfText] ∧ ReadsItems us ss
  | declaration, ts | classDecl, ts | funDecl, ts => ∃ s, Stmt.Reads .item ts s
  | function, ts => ∃ d, ReadsRoutine ts d
  | varDecl, ts => ∃ name us e, Expr.ReadsInitializer us e ∧
    ts = .keyword .varWord :: Name.sign name :: us ++ [.mark .semicolon]
  | exprStmt, ts => ∃ us e, Expr.Reads .assignment us e ∧ ts = us ++ [.mark .semicolon]
  | statement, ts | forStmt, ts | ifStmt, ts | returnStmt, ts | whileStmt, ts =>
    ∃ dangles s, Stmt.Reads (.statement dangles) ts s
  | block, ts => ∃ us ss, ts = .mark .leftBrace :: us ++ [.mark .rightBrace] ∧ ReadsItems us ss
  | parameters, ts => ∃ params : List Name, params.length ≤ maxArguments ∧
    ts = separated (params.map fun p => [p.sign])
  | arguments, ts => ∃ arguments : List (List Sign × Expr), arguments.length ≤ maxArguments ∧
    ts = separated (arguments.map (·.1)) ∧ ∀ a ∈ arguments, Expr.Reads .assignment a.1 a.2
  | expression, ts | assignment, ts => ∃ e, Expr.Reads .assignment ts e
  | logicOr, ts => ∃ e, Expr.Reads (.level .or) ts e
  | logicAnd, ts => ∃ e, Expr.Reads (.level .and) ts e
  | ternary, ts => ∃ e, Expr.Reads .ternary ts e
  | equality, ts => ∃ e, Expr.Reads (.level .equality) ts e
  | comparison, ts => ∃ e, Expr.Reads (.level .comparison) ts e
  | term, ts => ∃ e, Expr.Reads (.level .sum) ts e
  | factor, ts => ∃ e, Expr.Reads (.level .product) ts e
  | unary, ts => ∃ e, Expr.Reads .unary ts e
  | call, ts => ∃ e, Expr.Reads .call ts e
  | primary, ts => ∃ e, Expr.Reads .primary ts e

/-- Texts that each read as something, with what they read as. -/
theorem exists_readings {α : Type} {Reads : List Sign → α → Prop} {parts : List (List Sign)}
    (h : ∀ p ∈ parts, ∃ a, Reads p a) :
    ∃ readings : List (List Sign × α), parts = readings.map (·.1) ∧
      ∀ r ∈ readings, Reads r.1 r.2 := by
  induction parts with
  | nil => exact ⟨[], rfl, by simp⟩
  | cons p parts ih =>
    obtain ⟨a, ha⟩ := h p List.mem_cons_self
    obtain ⟨readings, rfl, hr⟩ := ih fun q hq => h q (List.mem_cons_of_mem _ hq)
    exact ⟨(p, a) :: readings, rfl, List.forall_mem_cons.mpr ⟨ha, hr⟩⟩

/-- An operator of a level. -/
theorem Level.means_operators {l : Level} {ts : List Sign}
    (h : l.operators.Means Rule.Texts ts) :
    (∃ op : BinaryOp, op.level = l ∧ ts = [op.sign]) ∨
      ∃ op : LogicalOp, op.level = l ∧ ts = [op.sign] := by
  cases l with
  | or => exact .inr ⟨.or, rfl, means_word.mp h⟩
  | and => exact .inr ⟨.and, rfl, means_word.mp h⟩
  | equality =>
    rcases h with h | h
    · exact .inl ⟨.notEqual, rfl, means_mark.mp h⟩
    · exact .inl ⟨.equal, rfl, means_mark.mp h⟩
  | comparison =>
    rcases h with ((h | h) | h) | h
    · exact .inl ⟨.greater, rfl, means_mark.mp h⟩
    · exact .inl ⟨.greaterEqual, rfl, means_mark.mp h⟩
    · exact .inl ⟨.less, rfl, means_mark.mp h⟩
    · exact .inl ⟨.lessEqual, rfl, means_mark.mp h⟩
  | sum =>
    rcases h with h | h
    · exact .inl ⟨.subtract, rfl, means_mark.mp h⟩
    · exact .inl ⟨.add, rfl, means_mark.mp h⟩
  | product =>
    rcases h with h | h
    · exact .inl ⟨.divide, rfl, means_mark.mp h⟩
    · exact .inl ⟨.multiply, rfl, means_mark.mp h⟩

theorem Level.texts_rule {l : Level} {ts : List Sign} :
    l.rule.Texts ts ↔ ∃ e, Expr.Reads (.level l) ts e := by
  cases l <;> rfl

theorem Level.texts_operand {l : Level} {ts : List Sign} :
    l.operand.rule.Texts ts ↔ ∃ e, Expr.Reads l.operand ts e := by
  cases l <;> rfl

/-- Operands with operators of a level between them group to the left. -/
theorem Level.closed (l : Level) {ts : List Sign} (h : l.rule.body.Means Rule.Texts ts) :
    l.rule.Texts ts := by
  rw [l.body_rule] at h
  obtain ⟨us, _, rfl, hus, hparts⟩ := h
  obtain ⟨parts, rfl, hp⟩ := means_many.mp hparts
  clear hparts
  rw [l.texts_rule]
  obtain ⟨e, he⟩ := l.texts_operand.mp hus
  replace he : Expr.Reads (.level l) us e := .ofOperand l he
  clear hus
  induction parts generalizing us e with
  | nil => exact ⟨e, by simpa using he⟩
  | cons p parts ih =>
    obtain ⟨vs, ws, rfl, hvs, hws⟩ := hp p List.mem_cons_self
    obtain ⟨right, hright⟩ := l.texts_operand.mp hws
    have hjoined : ∃ e', Expr.Reads (.level l) (us ++ (vs ++ ws)) e' := by
      rcases Level.means_operators hvs with ⟨op, hop, rfl⟩ | ⟨op, hop, rfl⟩
      · exact ⟨_, .binary op 0 hop he hright⟩
      · exact ⟨_, .logical op 0 hop he hright⟩
    obtain ⟨e', he'⟩ := hjoined
    obtain ⟨e'', he''⟩ := ih (us ++ (vs ++ ws)) (fun q hq => hp q (List.mem_cons_of_mem _ hq))
      e' he'
    exact ⟨e'', by simpa using he''⟩

namespace Rule

variable {ts : List Sign}

/-- Arguments and names of properties after what is called. -/
theorem closed_call (h : call.body.Means Texts ts) : call.Texts ts := by
  obtain ⟨us, _, rfl, ⟨e, he⟩, hparts⟩ := h
  obtain ⟨parts, rfl, hp⟩ := means_many.mp hparts
  clear hparts
  replace he : Expr.Reads .call us e := he.ofPrimary
  induction parts generalizing us e with
  | nil => exact ⟨e, by simpa using he⟩
  | cons p parts ih =>
    have hjoined : ∃ e', Expr.Reads .call (us ++ p) e' := by
      rcases hp p List.mem_cons_self with ⟨_, _, rfl, ⟨_, vs, rfl, hl, hvs⟩, hr⟩ |
        ⟨_, _, rfl, hd, hn⟩
      · obtain rfl := means_mark.mp hl
        obtain rfl := means_mark.mp hr
        rcases means_opt.mp hvs with rfl | ⟨arguments, hlen, rfl, ha⟩
        · exact ⟨_, by simpa using he.call 0 [] (by simp) (by simp)⟩
        · exact ⟨_, by simpa using he.call 0 arguments ha hlen⟩
      · obtain rfl := means_mark.mp hd
        obtain ⟨name, rfl⟩ := means_identifier.mp hn
        exact ⟨_, he.get name⟩
    obtain ⟨e', he'⟩ := hjoined
    obtain ⟨e'', he''⟩ := ih (us ++ p) e' (fun q hq => hp q (List.mem_cons_of_mem _ hq)) he'
    exact ⟨e'', by simpa using he''⟩

theorem closed_primary (h : primary.body.Means Texts ts) : primary.Texts ts := by
  rcases h with (((((((h | h) | h) | h) | h) | h) | h) | h) | h
  · obtain ⟨s, rfl, hs⟩ := h
    cases s with
    | number value => exact ⟨_, .literal (.number value)⟩
    | _ => exact hs.elim
  · obtain ⟨s, rfl, hs⟩ := h
    cases s with
    | string text => exact ⟨_, .literal (.string text)⟩
    | _ => exact hs.elim
  · obtain rfl := means_word.mp h
    exact ⟨_, .literal (.bool true)⟩
  · obtain rfl := means_word.mp h
    exact ⟨_, .literal (.bool false)⟩
  · obtain rfl := means_word.mp h
    exact ⟨_, .literal .nil⟩
  · obtain rfl := means_word.mp h
    exact ⟨_, .this 0 0⟩
  · obtain ⟨name, rfl⟩ := means_identifier.mp h
    exact ⟨_, .variable 0 name⟩
  · obtain ⟨_, _, rfl, ⟨_, us, rfl, hl, e, he⟩, hr⟩ := h
    obtain rfl := means_mark.mp hl
    obtain rfl := means_mark.mp hr
    exact ⟨_, he.grouping⟩
  · obtain ⟨_, _, rfl, ⟨_, _, rfl, hs, hd⟩, hn⟩ := h
    obtain rfl := means_word.mp hs
    obtain rfl := means_mark.mp hd
    obtain ⟨name, rfl⟩ := means_identifier.mp hn
    exact ⟨_, .super 0 0 name⟩

theorem closed_unary (h : unary.body.Means Texts ts) : unary.Texts ts := by
  rcases h with ⟨_, us, rfl, hop, e, he⟩ | ⟨e, he⟩
  · rcases hop with hop | hop
    · obtain rfl := means_mark.mp hop
      exact ⟨_, he.unary .not 0⟩
    · obtain rfl := means_mark.mp hop
      exact ⟨_, he.unary .negate 0⟩
  · exact ⟨e, he.ofCall⟩

theorem closed_ternary (h : ternary.body.Means Texts ts) : ternary.Texts ts := by
  obtain ⟨us, vs, rfl, ⟨c, hc⟩, hrest⟩ := h
  rcases means_opt.mp hrest with rfl | ⟨_, ws, rfl, ⟨_, _, rfl, ⟨_, xs, rfl, hq, t, ht⟩, hcolon⟩, f,
    hf⟩
  · exact ⟨c, by simpa using hc.ofEquality⟩
  · obtain rfl := means_mark.mp hq
    obtain rfl := means_mark.mp hcolon
    exact ⟨_, by simpa using hc.ternary ht hf⟩

theorem closed_assignment (h : assignment.body.Means Texts ts) : assignment.Texts ts := by
  rcases h with ⟨_, vs, rfl, ⟨_, _, rfl, ⟨us, _, rfl, hcall, hn⟩, hequal⟩, value, hv⟩ | ⟨e, he⟩
  · obtain ⟨name, rfl⟩ := means_identifier.mp hn
    obtain rfl := means_mark.mp hequal
    rcases means_opt.mp hcall with rfl | ⟨us, _, rfl, ⟨object, ho⟩, hd⟩
    · exact ⟨_, .assign 0 (Expr.Reads.variable 0 name).ofPrimary.or_of_call hv⟩
    · obtain rfl := means_mark.mp hd
      exact ⟨_, by simpa using (ho.get name).or_of_call.set hv⟩
  · exact ⟨e, he.ofOr⟩

theorem closed_arguments (h : arguments.body.Means Texts ts) : arguments.Texts ts := by
  obtain ⟨parts, rfl, -, hlen, hp⟩ := means_commaList.mp h
  obtain ⟨arguments, rfl, ha⟩ := exists_readings hp
  exact ⟨arguments, by simpa using hlen, rfl, ha⟩

theorem closed_parameters (h : parameters.body.Means Texts ts) : parameters.Texts ts := by
  obtain ⟨parts, rfl, -, hlen, hp⟩ := means_commaList.mp h
  obtain ⟨readings, rfl, hr⟩ := exists_readings fun p hp' => means_identifier.mp (hp p hp')
  refine ⟨readings.map (·.2), by simpa using hlen, ?_⟩
  rw [List.map_map]
  exact congrArg separated (List.map_congr_left hr)

end Rule

/-- An `else` with its statement after a statement that dangles belongs to the last condition of
that statement. -/
theorem Stmt.Reads.attach {phrase : Phrase} {ts us : List Sign} {s s' : Stmt} {dangles : Bool}
    (h : Stmt.Reads phrase ts s) (hp : phrase = .statement true)
    (h' : Stmt.Reads (.statement dangles) us s') :
    ∃ d s'', Stmt.Reads (.statement d) (ts ++ .keyword .elseWord :: us) s'' := by
  induction h with
  | ofStatement | «class» | function | «variable» => cases hp
  | expression | «return» | block => cases hp
  | loop hi hc hs _ ih =>
    obtain ⟨d, s'', hs''⟩ := ih hp
    exact ⟨d, _, by simpa using Stmt.Reads.loop hi hc hs hs''⟩
  | @ifThen _ _ _ _ d hc ht ih =>
    cases d with
    | false => exact ⟨dangles, _, by simpa using Stmt.Reads.ifElse hc ht h'⟩
    | true =>
      obtain ⟨d, s'', hs''⟩ := ih rfl
      exact ⟨true, _, by simpa using Stmt.Reads.ifThen hc hs''⟩
  | ifElse hc ht _ _ ihe =>
    obtain ⟨d, s'', hs''⟩ := ihe hp
    exact ⟨d, _, by simpa using Stmt.Reads.ifElse hc ht hs''⟩
  | «while» hc _ ih =>
    obtain ⟨d, s'', hs''⟩ := ih hp
    exact ⟨d, _, by simpa using Stmt.Reads.while hc hs''⟩

namespace Rule

variable {ts : List Sign}

theorem optional_of_means (h : (opt (rule .expression)).Means Texts ts) :
    ∃ e, Expr.ReadsOptional ts e := by
  rcases means_opt.mp h with rfl | ⟨e, he⟩
  · exact ⟨_, .none⟩
  · exact ⟨_, .some he⟩

theorem items_of_means (h : (many (rule .declaration)).Means Texts ts) :
    ∃ ss, ReadsItems ts ss := by
  obtain ⟨parts, rfl, hp⟩ := means_many.mp h
  obtain ⟨body, rfl, hb⟩ := exists_readings hp
  exact ⟨_, body, rfl, rfl, hb⟩

theorem closed_program (h : program.body.Means Texts ts) : program.Texts ts := by
  obtain ⟨us, _, rfl, hus, s, rfl, hs⟩ := h
  obtain ⟨ss, hss⟩ := items_of_means hus
  cases s with
  | endOfText => exact ⟨us, ss, rfl, hss⟩
  | _ => exact hs.elim

theorem closed_declaration (h : declaration.body.Means Texts ts) : declaration.Texts ts := by
  rcases h with ((h | h) | ⟨name, us, e, he, rfl⟩) | ⟨dangles, s, hs⟩
  · exact h
  · exact h
  · exact ⟨_, .variable name he⟩
  · exact ⟨s, hs.ofStatement⟩

theorem closed_classDecl (h : classDecl.body.Means Texts ts) : classDecl.Texts ts := by
  obtain ⟨_, _, rfl, ⟨_, _, rfl, ⟨_, _, rfl, ⟨_, us, rfl, ⟨_, _, rfl, hc, hn⟩, hs⟩, ho⟩, hm⟩, hr⟩ := h
  obtain rfl := means_word.mp hc
  obtain ⟨name, rfl⟩ := means_identifier.mp hn
  obtain rfl := means_mark.mp ho
  obtain rfl := means_mark.mp hr
  obtain ⟨superclass, rfl⟩ : ∃ superclass, us = Superclass.signs superclass := by
    rcases means_opt.mp hs with rfl | ⟨_, _, rfl, hl, hn⟩
    · exact ⟨none, rfl⟩
    · obtain rfl := means_mark.mp hl
      obtain ⟨name, rfl⟩ := means_identifier.mp hn
      exact ⟨some ⟨0, name⟩, rfl⟩
  obtain ⟨parts, rfl, hp⟩ := means_many.mp hm
  obtain ⟨methods, rfl, hn, hb⟩ : ∃ methods : List RoutineText,
      parts = methods.map (·.signs) ∧ (∀ m ∈ methods, m.params.length ≤ maxArguments) ∧
        ∀ m ∈ methods, ∀ p ∈ m.body, Stmt.Reads .item p.1 p.2 := by
    clear hm
    induction parts with
    | nil => exact ⟨[], rfl, by simp, by simp⟩
    | cons p parts ih =>
      obtain ⟨_, f, rfl, rfl, hn, hb⟩ := hp p List.mem_cons_self
      obtain ⟨methods, rfl, hns, hbs⟩ := ih fun q hq => hp q (List.mem_cons_of_mem _ hq)
      exact ⟨f :: methods, rfl, List.forall_mem_cons.mpr ⟨hn, hns⟩,
        List.forall_mem_cons.mpr ⟨hb, hbs⟩⟩
  exact ⟨_, by simpa [classSigns] using Stmt.Reads.class name superclass methods hn hb⟩

theorem closed_funDecl (h : funDecl.body.Means Texts ts) : funDecl.Texts ts := by
  obtain ⟨_, _, rfl, hf, d, f, rfl, rfl, hn, hb⟩ := h
  obtain rfl := means_word.mp hf
  exact ⟨_, .function f hn hb⟩

theorem closed_function (h : function.body.Means Texts ts) : function.Texts ts := by
  obtain ⟨_, _, rfl, ⟨_, _, rfl, ⟨_, us, rfl, ⟨_, _, rfl, hn, ho⟩, hp⟩, hc⟩, vs, ss, rfl, body, rfl,
    rfl, hb⟩ := h
  obtain ⟨name, rfl⟩ := means_identifier.mp hn
  obtain rfl := means_mark.mp ho
  obtain rfl := means_mark.mp hc
  obtain ⟨params, hlen, rfl⟩ : ∃ params : List Name, params.length ≤ maxArguments ∧
      us = separated (params.map fun p => [p.sign]) := by
    rcases means_opt.mp hp with rfl | h
    · exact ⟨[], by simp, rfl⟩
    · exact h
  exact ⟨_, ⟨name, params, body⟩, by simp [RoutineText.signs, routineSigns], rfl, hlen, hb⟩

theorem closed_varDecl (h : varDecl.body.Means Texts ts) : varDecl.Texts ts := by
  obtain ⟨_, _, rfl, ⟨_, us, rfl, ⟨_, _, rfl, hv, hn⟩, hi⟩, hs⟩ := h
  obtain rfl := means_word.mp hv
  obtain ⟨name, rfl⟩ := means_identifier.mp hn
  obtain rfl := means_mark.mp hs
  rcases means_opt.mp hi with rfl | ⟨_, vs, rfl, he, e, hread⟩
  · exact ⟨name, _, _, .none, by simp⟩
  · obtain rfl := means_mark.mp he
    exact ⟨name, _, _, .some hread, by simp⟩

theorem closed_exprStmt (h : exprStmt.body.Means Texts ts) : exprStmt.Texts ts := by
  obtain ⟨us, _, rfl, ⟨e, he⟩, hs⟩ := h
  obtain rfl := means_mark.mp hs
  exact ⟨us, e, he, rfl⟩

theorem closed_statement (h : statement.body.Means Texts ts) : statement.Texts ts := by
  rcases h with (((((⟨us, e, he, rfl⟩ | h) | h) | h) | h) | ⟨us, ss, rfl, body, rfl, -, hb⟩)
  · exact ⟨_, _, .expression he⟩
  · exact h
  · exact h
  · exact h
  · exact h
  · exact ⟨_, _, .block body hb⟩

theorem clause_of_means
    (h : (rule .varDecl ||| rule .exprStmt ||| mark .semicolon).Means Texts ts) :
    ∃ s, Stmt.ReadsClause ts s := by
  rcases h with (⟨name, us, e, he, rfl⟩ | ⟨us, e, he, rfl⟩) | h
  · exact ⟨_, .variable name he⟩
  · exact ⟨_, .expression he⟩
  · obtain rfl := means_mark.mp h
    exact ⟨_, .none⟩

theorem closed_forStmt (h : forStmt.body.Means Texts ts) : forStmt.Texts ts := by
  obtain ⟨_, _, rfl, ⟨_, _, rfl, ⟨_, _, rfl, ⟨_, _, rfl, ⟨_, _, rfl, ⟨_, _, rfl, ⟨_, _, rfl, hf,
    ho⟩, hi⟩, hc⟩, hs⟩, he⟩, hr⟩, dangles, body, hbody⟩ := h
  obtain rfl := means_word.mp hf
  obtain rfl := means_mark.mp ho
  obtain rfl := means_mark.mp hs
  obtain rfl := means_mark.mp hr
  obtain ⟨initializer, hi⟩ := clause_of_means hi
  obtain ⟨condition, hc⟩ := optional_of_means hc
  obtain ⟨increment, he⟩ := optional_of_means he
  exact ⟨dangles, _, by simpa using Stmt.Reads.loop hi hc he hbody⟩

theorem closed_ifStmt (h : ifStmt.body.Means Texts ts) : ifStmt.Texts ts := by
  obtain ⟨_, _, rfl, ⟨_, vs, rfl, ⟨_, _, rfl, ⟨_, us, rfl, ⟨_, _, rfl, hi, ho⟩, c, hc⟩, hr⟩, d, t,
    ht⟩, he⟩ := h
  obtain rfl := means_word.mp hi
  obtain rfl := means_mark.mp ho
  obtain rfl := means_mark.mp hr
  rcases means_opt.mp he with rfl | ⟨_, ws, rfl, he, d', e, helse⟩
  · exact ⟨true, _, by simpa using Stmt.Reads.ifThen hc ht⟩
  · obtain rfl := means_word.mp he
    cases d with
    | false => exact ⟨d', _, by simpa using Stmt.Reads.ifElse hc ht helse⟩
    | true =>
      obtain ⟨d'', s, hs⟩ := ht.attach rfl helse
      exact ⟨true, _, by simpa using Stmt.Reads.ifThen hc hs⟩

theorem closed_returnStmt (h : returnStmt.body.Means Texts ts) : returnStmt.Texts ts := by
  obtain ⟨_, _, rfl, ⟨_, us, rfl, hr, he⟩, hs⟩ := h
  obtain rfl := means_word.mp hr
  obtain rfl := means_mark.mp hs
  obtain ⟨e, he⟩ := optional_of_means he
  exact ⟨_, _, by simpa using Stmt.Reads.return 0 he⟩

theorem closed_whileStmt (h : whileStmt.body.Means Texts ts) : whileStmt.Texts ts := by
  obtain ⟨_, vs, rfl, ⟨_, _, rfl, ⟨_, us, rfl, ⟨_, _, rfl, hw, ho⟩, c, hc⟩, hr⟩, d, b, hb⟩ := h
  obtain rfl := means_word.mp hw
  obtain rfl := means_mark.mp ho
  obtain rfl := means_mark.mp hr
  exact ⟨d, _, by simpa using Stmt.Reads.while hc hb⟩

theorem closed_block (h : block.body.Means Texts ts) : block.Texts ts := by
  obtain ⟨_, _, rfl, ⟨_, us, rfl, ho, hm⟩, hr⟩ := h
  obtain rfl := means_mark.mp ho
  obtain rfl := means_mark.mp hr
  obtain ⟨ss, hss⟩ := items_of_means hm
  exact ⟨us, ss, rfl, hss⟩

/-- What the right side of a rule means reads as a text of the rule. -/
theorem closed (r : Rule) (ts : List Sign) (h : r.body.Means Texts ts) : r.Texts ts := by
  cases r with
  | program => exact closed_program h
  | declaration => exact closed_declaration h
  | classDecl => exact closed_classDecl h
  | funDecl => exact closed_funDecl h
  | function => exact closed_function h
  | varDecl => exact closed_varDecl h
  | statement => exact closed_statement h
  | exprStmt => exact closed_exprStmt h
  | forStmt => exact closed_forStmt h
  | ifStmt => exact closed_ifStmt h
  | returnStmt => exact closed_returnStmt h
  | whileStmt => exact closed_whileStmt h
  | block => exact closed_block h
  | parameters => exact closed_parameters h
  | expression => exact h
  | assignment => exact closed_assignment h
  | logicOr => exact Level.closed .or h
  | logicAnd => exact Level.closed .and h
  | ternary => exact closed_ternary h
  | equality => exact Level.closed .equality h
  | comparison => exact Level.closed .comparison h
  | term => exact Level.closed .sum h
  | factor => exact Level.closed .product h
  | unary => exact closed_unary h
  | call => exact closed_call h
  | arguments => exact closed_arguments h
  | primary => exact closed_primary h

end Rule

/-! ### Acceptance -/

/-- A text with its only end at its end is read without a fault exactly if it can be derived from
the grammar. -/
theorem Program.ofTokens_accepts_iff {tokens : List Token} {last : Token}
    (ht : ∀ t ∈ tokens, t.kind.isEnd = false) (hlast : last.kind.isEnd = true) (nextId : Nat) :
    (Program.ofTokens nextId (tokens ++ [last])).errors = [] ↔
      Derives (.rule .program) ((tokens ++ [last]).map Token.sign) := by
  have hsigns : (tokens ++ [last]).map Token.sign = tokens.map Token.sign ++ [.endOfText] := by
    rw [List.map_append, List.map_singleton, Token.isEnd_iff.mp hlast]
  have hend : .endOfText ∉ tokens.map Token.sign := fun hmem => by
    obtain ⟨t, hmem, hs⟩ := List.mem_map.mp hmem
    have he := Token.isEnd_iff.mpr hs
    rw [ht t hmem] at he
    cases he
  have hbefore := map_sign_tokensBeforeEnd hsigns hend
  constructor
  · intro h
    have hread := Program.ofTokens_sound h
    rw [hbefore] at hread
    rw [hsigns]
    exact hread.derives
  · intro h
    obtain ⟨us, ss, hus, hread⟩ := h.means Rule.closed
    rw [hsigns] at hus
    obtain rfl := List.append_inj_left' hus rfl
    exact (Program.ofTokens_complete (hbefore ▸ hread) nextId).1

/-- A choice without braces, in which the `else` could belong to either condition, is of the
grammar. -/
theorem derives_danglingElse : Derives (.rule .program) (danglingElse ++ [.endOfText]) := by
  have herrors : (Program.ofTokens 0
      (danglingElse.map Sign.token ++ [Sign.endOfText.token])).errors = [] :=
    List.isEmpty_iff.mp (by decide +kernel)
  have hderives := (Program.ofTokens_accepts_iff (by decide) rfl 0).mp herrors
  rwa [List.map_append, Sign.map_sign_token] at hderives

end Treewalk
