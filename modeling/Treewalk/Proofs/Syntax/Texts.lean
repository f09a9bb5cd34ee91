import Treewalk.Proofs.Syntax.Completeness.Program
import Treewalk.Proofs.Syntax.Acceptance

/-!
# The documented grammar as languages

The grammar without what is only noted: any expression of the level of `or` may stand on the left
side of an assignment, and there is no limit to arguments and parameters. The texts of its rules are
languages, and the ways in which right sides are put together are the operations of languages.

With what the texts of a rule can *begin* decides which rule a reader follows.

## Main definitions

* `Rule.relaxed`: the right sides of the rules.
* `DerivesFrom`, `Rule.texts`: the texts that can be derived.
* `Begins`: languages whose texts begin with certain signs.

## Main results

* `Derives.mem_texts`: what the grammar of the language derives is a text of the grammar without what
  is only noted.
* `begins_assignment`, `begins_declaration`: what expressions and statements begin with.
-/

namespace Treewalk

open scoped Computability

/-! ### Texts -/

open Ebnf in
/-- The right side of a rule, without what is only noted. -/
def Rule.relaxed : Rule → Ebnf
  | assignment => rule logicOr ++ mark .equal ++ rule assignment ||| rule logicOr
  | arguments => rule expression ++ many (mark .comma ++ rule expression)
  | parameters => identifier ++ many (mark .comma ++ identifier)
  | r => r.body

/-- The texts that can be derived from a right side by some rules. -/
inductive DerivesFrom (rules : Rule → Ebnf) : Ebnf → List Sign → Prop
  | terminal {s t} (h : Sign.Fits s t) : DerivesFrom rules (.terminal t) [s]
  | rule {r ts} (h : DerivesFrom rules (rules r) ts) : DerivesFrom rules (.rule r) ts
  | seq {g g' ts ts'} (h : DerivesFrom rules g ts) (h' : DerivesFrom rules g' ts') :
    DerivesFrom rules (.seq g g') (ts ++ ts')
  | first {g g' ts} (h : DerivesFrom rules g ts) : DerivesFrom rules (.alt g g') ts
  | second {g g' ts} (h : DerivesFrom rules g' ts) : DerivesFrom rules (.alt g g') ts
  | repeated {limit g} (parts : List (List Sign)) (h : ∀ p ∈ parts, DerivesFrom rules g p)
      (hl : ∀ n ∈ limit, parts.length ≤ n) : DerivesFrom rules (.repeated limit g) parts.flatten

/-- What can be derived is what can be derived by the rules of the grammar. -/
theorem derives_iff_derivesFrom {g : Ebnf} {ts : List Sign} :
    Derives g ts ↔ DerivesFrom Rule.body g ts := by
  constructor
  · intro h
    induction h with
    | terminal h => exact .terminal h
    | rule _ ih => exact .rule ih
    | seq _ _ ih ih' => exact .seq ih ih'
    | first _ ih => exact .first ih
    | second _ ih => exact .second ih
    | repeated parts _ hl ih => exact .repeated parts ih hl
  · intro h
    induction h with
    | terminal h => exact .terminal h
    | rule _ ih => exact .rule ih
    | seq _ _ ih ih' => exact .seq ih ih'
    | first _ ih => exact .first ih
    | second _ ih => exact .second ih
    | repeated parts _ hl ih => exact .repeated parts ih hl

/-- Rules whose right sides derive at least as much derive at least as much. -/
theorem DerivesFrom.mono {rules rules' : Rule → Ebnf} {g : Ebnf} {ts : List Sign}
    (hle : ∀ r ts, DerivesFrom rules' (rules r) ts → DerivesFrom rules' (rules' r) ts)
    (h : DerivesFrom rules g ts) : DerivesFrom rules' g ts := by
  induction h with
  | terminal h => exact .terminal h
  | rule _ ih => exact .rule (hle _ _ ih)
  | seq _ _ ih ih' => exact .seq ih ih'
  | first _ ih => exact .first ih
  | second _ ih => exact .second ih
  | repeated parts _ hl ih => exact .repeated parts ih hl

/-- The texts of a right side. -/
def Ebnf.texts (g : Ebnf) : Language Sign :=
  {ts | DerivesFrom Rule.relaxed g ts}

/-- The texts of a rule. -/
def Rule.texts (r : Rule) : Language Sign :=
  (Ebnf.rule r).texts

/-- The texts of one sign that is of some kind. -/
def single (p : Sign → Prop) : Language Sign :=
  {ts | ∃ s, ts = [s] ∧ p s}

theorem cons_mem_single_mul {p : Sign → Prop} {L : Language Sign} {s : Sign} {w : List Sign} :
    s :: w ∈ single p * L ↔ p s ∧ w ∈ L := by
  constructor
  · rintro ⟨_, ⟨s', rfl, hs⟩, w', hw, heq⟩
    cases heq
    exact ⟨hs, hw⟩
  · rintro ⟨hs, hw⟩
    exact ⟨[s], ⟨s, rfl, hs⟩, w, hw, rfl⟩

theorem single_add (p q : Sign → Prop) : single p + single q = single fun s => p s ∨ q s := by
  ext ts
  constructor
  · rintro (⟨s, rfl, hs⟩ | ⟨s, rfl, hs⟩)
    · exact ⟨s, rfl, .inl hs⟩
    · exact ⟨s, rfl, .inr hs⟩
  · rintro ⟨s, rfl, hs | hs⟩
    · exact .inl ⟨s, rfl, hs⟩
    · exact .inr ⟨s, rfl, hs⟩

namespace Ebnf

variable {g g' : Ebnf} {ts : List Sign}

theorem texts_terminal (τ : Terminal) : (terminal τ).texts = single (·.Fits τ) := by
  ext ts
  constructor
  · rintro (hs | _)
    exact ⟨_, rfl, hs⟩
  · rintro ⟨s, rfl, hs⟩
    exact .terminal hs

theorem texts_rule (r : Rule) : (rule r).texts = r.texts :=
  rfl

theorem texts_seq : (g ++ g').texts = g.texts * g'.texts := by
  ext ts
  constructor
  · rintro (_ | _ | ⟨h, h'⟩)
    exact ⟨_, h, _, h', rfl⟩
  · rintro ⟨us, h, vs, h', rfl⟩
    exact .seq h h'

theorem texts_alt : (g ||| g').texts = g.texts + g'.texts := by
  ext ts
  constructor
  · rintro (_ | _ | _ | h | h)
    · exact .inl h
    · exact .inr h
  · rintro (h | h)
    · exact .first h
    · exact .second h

theorem texts_many : (many g).texts = g.texts∗ := by
  ext ts
  constructor
  · rintro (_ | _ | _ | _ | _ | ⟨parts, hparts, -⟩)
    exact ⟨parts, rfl, hparts⟩
  · rintro ⟨parts, rfl, hparts⟩
    exact .repeated parts hparts nofun

theorem texts_opt : (opt g).texts = g.texts + 1 := by
  ext ts
  constructor
  · rintro (_ | _ | _ | _ | _ | ⟨_ | ⟨p, _ | ⟨q, parts⟩⟩, hparts, hl⟩)
    · exact .inr rfl
    · rw [List.flatten_singleton]
      exact .inl (hparts p List.mem_cons_self)
    · exact absurd (hl 1 rfl) (by simp)
  · rintro (h | h)
    · have hone : DerivesFrom Rule.relaxed (opt g) [ts].flatten :=
        .repeated [ts] (List.forall_mem_singleton.mpr h) (by simp)
      rwa [List.flatten_singleton] at hone
    · obtain rfl : ts = [] := h
      exact .repeated [] nofun (by simp)

end Ebnf

/-- The texts of a rule are those of its right side. -/
theorem Rule.texts_eq (r : Rule) : r.texts = r.relaxed.texts := by
  ext ts
  constructor
  · rintro (_ | h)
    exact h
  · exact .rule

/-- Most rules have the right side that they have in the grammar. -/
theorem Rule.texts_body {r : Rule} (h : r.relaxed = r.body) : r.texts = r.body.texts := by
  rw [r.texts_eq, h]

theorem Sign.fits_mark {s : Sign} {m : Mark} : s.Fits (.mark m) ↔ s = .mark m := by
  cases s <;> simp [Fits]

theorem Sign.fits_keyword {s : Sign} {k : Keyword} : s.Fits (.keyword k) ↔ s = .keyword k := by
  cases s <;> simp [Fits]

/-! ### What texts begin with -/

/-- Every text of a language begins with a sign of some kind. -/
def Begins (L : Language Sign) (p : Sign → Prop) : Prop :=
  ∀ ts ∈ L, ∃ s us, ts = s :: us ∧ p s

namespace Begins

variable {L M : Language Sign} {p q : Sign → Prop}

theorem cons (h : Begins L p) {s : Sign} {w : List Sign} (hs : s :: w ∈ L) : p s := by
  obtain ⟨s', w', heq, hp⟩ := h _ hs
  cases heq
  exact hp

theorem mono (h : Begins L p) (hpq : ∀ s, p s → q s) : Begins L q := by
  intro ts hts
  obtain ⟨s, us, rfl, hs⟩ := h ts hts
  exact ⟨s, us, rfl, hpq s hs⟩

/-- A mark with which no text begins. -/
theorem not_mark (h : Begins L p) {m : Mark} (hm : ¬ p (.mark m)) :
    Begins L fun s => ¬ s.Fits (.mark m) :=
  h.mono fun _ hs hfits => hm (Sign.fits_mark.mp hfits ▸ hs)

theorem not_word (h : Begins L p) {k : Keyword} (hk : ¬ p (.keyword k)) :
    Begins L fun s => ¬ s.Fits (.keyword k) :=
  h.mono fun _ hs hfits => hk (Sign.fits_keyword.mp hfits ▸ hs)

theorem single (h : ∀ s, p s → q s) : Begins (single p) q := by
  rintro _ ⟨s, rfl, hs⟩
  exact ⟨s, [], rfl, h s hs⟩

theorem terminal {τ : Terminal} (h : ∀ s, s.Fits τ → q s) : Begins (Ebnf.terminal τ).texts q := by
  rw [Ebnf.texts_terminal]
  exact .single h

theorem mark {m : Mark} (h : q (.mark m)) : Begins (Ebnf.mark m).texts q :=
  .terminal fun _ hs => Sign.fits_mark.mp hs ▸ h

theorem word {k : Keyword} (h : q (.keyword k)) : Begins (Ebnf.word k).texts q :=
  .terminal fun _ hs => Sign.fits_keyword.mp hs ▸ h

theorem add (h : Begins L p) (h' : Begins M p) : Begins (L + M) p := by
  rintro ts (hts | hts)
  · exact h ts hts
  · exact h' ts hts

theorem mul (h : Begins L p) : Begins (L * M) p := by
  rintro _ ⟨_, hv, w, -, rfl⟩
  obtain ⟨s, us, rfl, hs⟩ := h _ hv
  exact ⟨s, us ++ w, rfl, hs⟩

theorem star_mul (h : Begins L p) (h' : Begins M p) : Begins (L∗ * M) p := by
  rw [← Language.one_add_self_mul_kstar_eq_kstar, add_mul, one_mul]
  exact h'.add h.mul.mul

end Begins

/-! ### The texts of expressions -/

section Expressions

open Ebnf

/-- The operators of a level are the signs that join at it. -/
theorem Level.texts_operators (l : Level) :
    l.operators.texts = single fun s => s.joins? = some (.level l) := by
  have joined (p : Sign → Prop) (h : ∀ s, p s → s.joins? = some (.level l))
      (h' : ∀ s, s.joins? = some (.level l) → p s) :
      single p = single fun s => s.joins? = some (.level l) :=
    congrArg single (funext fun s => propext ⟨h s, h' s⟩)
  cases l
  all_goals
    simp only [Level.operators, texts_alt, texts_terminal, single_add, Sign.fits_mark,
      Sign.fits_keyword, or_assoc]
    refine joined _ (fun s hs => ?_) fun s hs => ?_
    · rcases hs with rfl | rfl | rfl | rfl <;> rfl
    · unfold Sign.joins? at hs
      split at hs <;> cases hs <;> simp

theorem Level.texts_eq (l : Level) : l.rule.texts =
    l.operand.rule.texts * (l.operators.texts * l.operand.rule.texts)∗ := by
  have hbody : l.rule.relaxed = l.rule.body := by cases l <;> rfl
  rw [Rule.texts_body hbody, l.body_rule]
  simp only [texts_seq, texts_many, Ebnf.texts_rule]

theorem texts_expression : Rule.expression.texts = Rule.assignment.texts :=
  Rule.texts_eq .expression

theorem texts_assignment : Rule.assignment.texts =
    Rule.logicOr.texts * ((mark .equal).texts * Rule.assignment.texts + 1) := by
  refine (Rule.texts_eq .assignment).trans ?_
  simp only [Rule.relaxed, texts_seq, texts_alt, Ebnf.texts_rule, mul_add, mul_assoc, mul_one]

theorem texts_ternary : Rule.ternary.texts =
    Rule.equality.texts * ((mark .question).texts * (Rule.equality.texts *
      ((mark .colon).texts * Rule.ternary.texts)) + 1) := by
  refine (Rule.texts_body (r := .ternary) rfl).trans ?_
  simp only [Rule.body, texts_seq, texts_opt, Ebnf.texts_rule, mul_assoc]

theorem texts_unary : Rule.unary.texts =
    single (fun s => s = .mark .bang ∨ s = .mark .minus) * Rule.unary.texts +
      Rule.call.texts := by
  refine (Rule.texts_body (r := .unary) rfl).trans ?_
  simp only [Rule.body, texts_seq, texts_alt, Ebnf.texts_rule, texts_terminal, single_add,
    Sign.fits_mark]

theorem texts_call : Rule.call.texts = Rule.primary.texts *
    ((mark .leftParen).texts * ((Rule.arguments.texts + 1) * (mark .rightParen).texts) +
      (mark .dot).texts * identifier.texts)∗ := by
  refine (Rule.texts_body (r := .call) rfl).trans ?_
  simp only [Rule.body, texts_seq, texts_alt, texts_many, texts_opt, Ebnf.texts_rule, mul_assoc]

theorem texts_arguments : Rule.arguments.texts = Rule.assignment.texts *
    ((mark .comma).texts * Rule.assignment.texts)∗ := by
  refine (Rule.texts_eq .arguments).trans ?_
  simp only [Rule.relaxed, texts_seq, texts_many, Ebnf.texts_rule, texts_expression]

theorem texts_primary : Rule.primary.texts = single (·.isConstant) + (identifier.texts +
    ((word .thisWord).texts + ((word .superWord).texts * ((mark .dot).texts * identifier.texts) +
      (mark .leftParen).texts * (Rule.assignment.texts * (mark .rightParen).texts)))) := by
  have hconstants : single (·.isConstant) = (terminal .number).texts + (terminal .string).texts +
      (word .trueWord).texts + (word .falseWord).texts + (word .nilWord).texts := by
    simp only [texts_terminal, single_add]
    refine congrArg single (funext fun s => propext ?_)
    rcases s with (_ | k | _ | _ | _ | _) <;> (try cases k) <;> simp [Sign.Fits, Sign.isConstant]
  rw [hconstants]
  refine (Rule.texts_body (r := .primary) rfl).trans ?_
  simp only [Rule.body, texts_seq, texts_alt, Ebnf.texts_rule, texts_expression, mul_assoc]
  ac_rfl

/-- A primary expression begins with what opens one. -/
theorem begins_primary : Begins Rule.primary.texts (·.opensPrimary) := by
  rw [texts_primary]
  refine .add (.single fun s hs => ?_) (.add (.terminal fun s hs => ?_) (.add (.word rfl)
    (.add (.mul (.word rfl)) (.mul (.mark rfl)))))
  · unfold Sign.isConstant at hs
    split at hs <;> first | rfl | cases hs
  · cases s <;> first | rfl | exact hs.elim

theorem begins_call : Begins Rule.call.texts (·.opensPrimary) := by
  rw [texts_call]
  exact begins_primary.mul

theorem begins_unary : Begins Rule.unary.texts (·.opensExpression) := by
  rw [texts_unary]
  refine .add (Begins.single ?_).mul (begins_call.mono fun _ => Sign.opensExpression_of_opensPrimary)
  rintro s (rfl | rfl) <;> rfl

theorem Level.begins {l : Level} (h : Begins l.operand.rule.texts (·.opensExpression)) :
    Begins l.rule.texts (·.opensExpression) := by
  rw [l.texts_eq]
  exact h.mul

theorem begins_equality : Begins Rule.equality.texts (·.opensExpression) :=
  Level.begins (l := .equality) <| Level.begins (l := .comparison) <| Level.begins (l := .sum) <|
    Level.begins (l := .product) begins_unary

theorem begins_ternary : Begins Rule.ternary.texts (·.opensExpression) := by
  rw [texts_ternary]
  exact begins_equality.mul

/-- An expression begins with what opens one. -/
theorem begins_assignment : Begins Rule.assignment.texts (·.opensExpression) := by
  rw [texts_assignment]
  exact (Level.begins (l := .or) <| Level.begins (l := .and) begins_ternary).mul

/-- What is a text before an optional part is one by itself. -/
theorem mem_mul_of_nil_mem {L M : Language Sign} {ts : List Sign} (h : ts ∈ L) (hM : [] ∈ M) :
    ts ∈ L * M := by
  rw [← List.append_nil ts]
  exact Language.append_mem_mul h hM

theorem Level.operand_le (l : Level) : l.operand.rule.texts ≤ l.rule.texts := by
  intro ts hts
  rw [l.texts_eq]
  exact mem_mul_of_nil_mem hts (Language.nil_mem_kstar _)

theorem unary_le_ternary : Rule.unary.texts ≤ Rule.ternary.texts := by
  have hequality : Rule.unary.texts ≤ Rule.equality.texts :=
    (Level.operand_le .product).trans <| (Level.operand_le .sum).trans <|
      (Level.operand_le .comparison).trans (Level.operand_le .equality)
  intro ts hts
  rw [texts_ternary]
  exact mem_mul_of_nil_mem (hequality hts) (.inr rfl)

theorem ternary_le_logicOr : Rule.ternary.texts ≤ Rule.logicOr.texts :=
  (Level.operand_le .and).trans (Level.operand_le .or)

theorem nil_mem_unary : [.keyword .nilWord] ∈ Rule.unary.texts := by
  rw [texts_unary, texts_call, texts_primary]
  exact .inr (mem_mul_of_nil_mem (.inl ⟨_, rfl, rfl⟩) (Language.nil_mem_kstar _))

theorem nil_mem_ternary : [.keyword .nilWord] ∈ Rule.ternary.texts :=
  unary_le_ternary nil_mem_unary

theorem nil_mem_assignment : [.keyword .nilWord] ∈ Rule.assignment.texts := by
  rw [texts_assignment]
  exact mem_mul_of_nil_mem (ternary_le_logicOr nil_mem_ternary) (.inr rfl)

/-- A name, and a name behind the dot of a call, are calls themselves. -/
theorem target_le_call :
    (Rule.call.texts * (mark .dot).texts + 1) * identifier.texts ≤ Rule.call.texts := by
  rw [add_mul, one_mul, mul_assoc]
  refine add_le ?_ fun ts hts => ?_
  · rw [texts_call, mul_assoc]
    refine mul_le_mul_right ?_ _
    exact (mul_le_mul_right le_add_self _).trans kstar_mul_le_kstar
  · rw [texts_call, texts_primary]
    exact mem_mul_of_nil_mem (.inr (.inl hts)) (Language.nil_mem_kstar _)

/-- What may stand on the left side of an assignment is an expression of the level of `or`. -/
theorem target_le_logicOr :
    (Rule.call.texts * (mark .dot).texts + 1) * identifier.texts ≤ Rule.logicOr.texts := by
  refine target_le_call.trans (.trans ?_ (unary_le_ternary.trans ternary_le_logicOr))
  rw [texts_unary]
  exact le_add_self

/-- Without a limit a part may be repeated at least as often. -/
theorem texts_commaList_le (g : Ebnf) :
    (commaList g).texts ≤ (g ++ many (mark .comma ++ g)).texts := by
  rw [commaList, texts_seq, texts_seq]
  refine mul_le_mul_right (fun ts hts => ?_) _
  rcases hts with _ | _ | _ | _ | _ | ⟨parts, hparts, -⟩
  exact .repeated parts hparts nofun

/-- What is only noted rules out more texts. -/
theorem Rule.body_le_relaxed (r : Rule) : r.body.texts ≤ r.relaxed.texts := by
  cases r
  case assignment =>
    simp only [Rule.body, Rule.relaxed, texts_alt, texts_seq, texts_opt]
    exact add_le_add_left (mul_le_mul_left (mul_le_mul_left target_le_logicOr _) _) _
  case arguments => exact texts_commaList_le _
  case parameters => exact texts_commaList_le _
  all_goals exact le_rfl

/-- What the grammar of the language derives is a text without what is only noted. -/
theorem Derives.mem_texts {g : Ebnf} {ts : List Sign} (h : Derives g ts) :
    ts ∈ g.texts :=
  (derives_iff_derivesFrom.mp h).mono fun r _ hts => r.body_le_relaxed hts

end Expressions

/-! ### The texts of statements -/

section Statements

open Ebnf

theorem texts_program :
    Rule.program.texts = Rule.declaration.texts∗ * (terminal .endOfText).texts := by
  refine (Rule.texts_body (r := .program) rfl).trans ?_
  simp only [Rule.body, texts_seq, texts_many, texts_rule]

theorem texts_exprStmt :
    Rule.exprStmt.texts = Rule.assignment.texts * (mark .semicolon).texts := by
  refine (Rule.texts_body (r := .exprStmt) rfl).trans ?_
  simp only [Rule.body, texts_seq, texts_rule, texts_expression]

theorem texts_varDecl : Rule.varDecl.texts = (word .varWord).texts * (identifier.texts *
    (((mark .equal).texts * Rule.assignment.texts + 1) * (mark .semicolon).texts)) := by
  refine (Rule.texts_body (r := .varDecl) rfl).trans ?_
  simp only [Rule.body, texts_seq, texts_opt, texts_rule, texts_expression, mul_assoc]

theorem texts_block : Rule.block.texts =
    (mark .leftBrace).texts * (Rule.declaration.texts∗ * (mark .rightBrace).texts) := by
  refine (Rule.texts_body (r := .block) rfl).trans ?_
  simp only [Rule.body, texts_seq, texts_many, texts_rule, mul_assoc]

theorem texts_forStmt : Rule.forStmt.texts = (word .forWord).texts * ((mark .leftParen).texts *
    (((mark .semicolon).texts + (Rule.varDecl.texts + Rule.exprStmt.texts)) *
      ((Rule.assignment.texts + 1) * ((mark .semicolon).texts * ((Rule.assignment.texts + 1) *
        ((mark .rightParen).texts * Rule.statement.texts)))))) := by
  refine (Rule.texts_body (r := .forStmt) rfl).trans ?_
  simp only [Rule.body, texts_seq, texts_alt, texts_opt, texts_rule, texts_expression, mul_assoc]
  rw [add_comm (mark .semicolon).texts]

theorem texts_ifStmt : Rule.ifStmt.texts = (word .ifWord).texts * ((mark .leftParen).texts *
    (Rule.assignment.texts * ((mark .rightParen).texts * (Rule.statement.texts *
      ((word .elseWord).texts * Rule.statement.texts + 1))))) := by
  refine (Rule.texts_body (r := .ifStmt) rfl).trans ?_
  simp only [Rule.body, texts_seq, texts_opt, texts_rule, texts_expression, mul_assoc]

theorem texts_whileStmt : Rule.whileStmt.texts = (word .whileWord).texts *
    ((mark .leftParen).texts * (Rule.assignment.texts * ((mark .rightParen).texts *
      Rule.statement.texts))) := by
  refine (Rule.texts_body (r := .whileStmt) rfl).trans ?_
  simp only [Rule.body, texts_seq, texts_rule, texts_expression, mul_assoc]

theorem texts_returnStmt : Rule.returnStmt.texts = (word .returnWord).texts *
    ((Rule.assignment.texts + 1) * (mark .semicolon).texts) := by
  refine (Rule.texts_body (r := .returnStmt) rfl).trans ?_
  simp only [Rule.body, texts_seq, texts_opt, texts_rule, texts_expression, mul_assoc]

theorem texts_statement : Rule.statement.texts = Rule.forStmt.texts + (Rule.ifStmt.texts +
    (Rule.whileStmt.texts + (Rule.returnStmt.texts + (Rule.block.texts +
      Rule.exprStmt.texts)))) := by
  refine (Rule.texts_body (r := .statement) rfl).trans ?_
  simp only [Rule.body, texts_alt, texts_rule]
  ac_rfl

theorem texts_parameters :
    Rule.parameters.texts = identifier.texts * ((mark .comma).texts * identifier.texts)∗ := by
  refine (Rule.texts_eq .parameters).trans ?_
  simp only [Rule.relaxed, texts_seq, texts_many]

theorem texts_function : Rule.function.texts = identifier.texts * ((mark .leftParen).texts *
    ((Rule.parameters.texts + 1) * ((mark .rightParen).texts * Rule.block.texts))) := by
  refine (Rule.texts_body (r := .function) rfl).trans ?_
  simp only [Rule.body, texts_seq, texts_opt, texts_rule, mul_assoc]

theorem texts_funDecl : Rule.funDecl.texts = (word .funWord).texts * Rule.function.texts := by
  refine (Rule.texts_body (r := .funDecl) rfl).trans ?_
  simp only [Rule.body, texts_seq, texts_rule]

theorem texts_classDecl : Rule.classDecl.texts = (word .classWord).texts * (identifier.texts *
    (((mark .less).texts * identifier.texts + 1) * ((mark .leftBrace).texts *
      (Rule.function.texts∗ * (mark .rightBrace).texts)))) := by
  refine (Rule.texts_body (r := .classDecl) rfl).trans ?_
  simp only [Rule.body, texts_seq, texts_many, texts_opt, texts_rule, mul_assoc]

theorem texts_declaration : Rule.declaration.texts = Rule.classDecl.texts +
    (Rule.funDecl.texts + (Rule.varDecl.texts + Rule.statement.texts)) := by
  refine (Rule.texts_body (r := .declaration) rfl).trans ?_
  simp only [Rule.body, texts_alt, texts_rule, add_assoc]

theorem begins_exprStmt : Begins Rule.exprStmt.texts (·.opensExpression) := by
  rw [texts_exprStmt]
  exact begins_assignment.mul

/-- A statement begins with what opens one. -/
theorem begins_statement : Begins Rule.statement.texts ((Phrase.statement false).opens ·) := by
  rw [texts_statement, texts_forStmt, texts_ifStmt, texts_whileStmt, texts_returnStmt, texts_block]
  exact .add (.mul (.word rfl)) (.add (.mul (.word rfl)) (.add (.mul (.word rfl))
    (.add (.mul (.word rfl)) (.add (.mul (.mark rfl))
      (begins_exprStmt.mono fun _ => Phrase.opens_of_opensExpression)))))

/-- A declaration or statement begins with what opens one. -/
theorem begins_declaration : Begins Rule.declaration.texts (Phrase.item.opens ·) := by
  rw [texts_declaration, texts_classDecl, texts_funDecl, texts_varDecl]
  exact .add (.mul (.word rfl)) (.add (.mul (.word rfl)) (.add (.mul (.word rfl))
    (begins_statement.mono fun _ => Phrase.opens_item)))

theorem begins_function : Begins Rule.function.texts (·.Fits .identifier) := by
  rw [texts_function]
  exact .mul (.terminal fun _ => id)

/-- There are statements, declarations and functions. -/
theorem exists_mem_statement : ∃ ts, ts ∈ Rule.statement.texts := by
  refine ⟨[.keyword .nilWord, .mark .semicolon], ?_⟩
  rw [texts_statement, texts_exprStmt, texts_terminal]
  exact .inr (.inr (.inr (.inr (.inr
    (Language.append_mem_mul nil_mem_assignment ⟨_, rfl, rfl⟩)))))

theorem exists_mem_declaration : ∃ ts, ts ∈ Rule.declaration.texts := by
  obtain ⟨ts, hts⟩ := exists_mem_statement
  refine ⟨ts, ?_⟩
  rw [texts_declaration]
  exact .inr (.inr (.inr hts))

theorem exists_mem_function : ∃ ts, ts ∈ Rule.function.texts := by
  refine ⟨[.name "f", .mark .leftParen, .mark .rightParen, .mark .leftBrace, .mark .rightBrace], ?_⟩
  simp only [texts_function, texts_block, texts_terminal]
  refine cons_mem_single_mul.mpr ⟨trivial, cons_mem_single_mul.mpr ⟨rfl, ?_⟩⟩
  rw [add_mul, one_mul]
  refine .inr (cons_mem_single_mul.mpr ⟨rfl, cons_mem_single_mul.mpr ⟨rfl, ?_⟩⟩)
  exact Language.append_mem_mul (Language.nil_mem_kstar _) ⟨_, rfl, rfl⟩

end Statements

end Treewalk
