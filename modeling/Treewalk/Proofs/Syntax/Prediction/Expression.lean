import Treewalk.Proofs.Syntax.Expecting

/-!
# Expressions as expected

The reader of a tier of expressions expects the texts of the rule of this tier, followed by texts
that do not go on with such an expression. So does a loop over operators with their right operands,
and one over calls and properties: each of them ends where the next token does not join.

## Main definitions

* `Tier.StopsBefore`, `Tier.Precedes`: what may follow an expression of a tier.

## Main results

* `Reader.chain_expects`: a level of infix operators.
* `Reader.expression_expects`: expressions.
-/

namespace Treewalk

open scoped Computability
open Ebnf

/-! ### What follows -/

/-- A sign does not go on with an expression of a tier. -/
def Tier.StopsBefore (tier : Tier) (s : Sign) : Prop :=
  ∀ joined ∈ s.joins?, tier.rank < joined.rank

/-- The texts of a language may follow an expression of a tier: none of them goes on with it. -/
structure Tier.Precedes (tier : Tier) (K : Language Sign) : Prop where
  nonempty : ∃ w, w ∈ K
  begins : Begins K tier.StopsBefore

section Precedes

variable {tier tier' joined : Tier} {s : Sign} {K L : Language Sign}

theorem Tier.StopsBefore.of_none (h : s.joins? = none) : tier.StopsBefore s := by
  intro joined hj
  rw [h] at hj
  cases hj

theorem Tier.StopsBefore.of_some (h : s.joins? = some joined) (hr : tier.rank < joined.rank) :
    tier.StopsBefore s := by
  intro _ hj
  rw [h] at hj
  cases hj
  exact hr

namespace Tier.Precedes

theorem tighter (h : tier.Precedes K) (hr : tier'.rank ≤ tier.rank) : tier'.Precedes K :=
  ⟨h.nonempty, h.begins.mono fun _ hs joined hj => Nat.lt_of_le_of_lt hr (hs joined hj)⟩

theorem add (h : tier.Precedes K) (hL : Begins L tier.StopsBefore) : tier.Precedes (L + K) := by
  obtain ⟨w, hw⟩ := h.nonempty
  exact ⟨⟨w, .inr hw⟩, hL.add h.begins⟩

/-- What begins with a mark that joins at no tier may follow any expression. -/
theorem of_mark {m : Mark} (hm : (Sign.mark m).joins? = none)
    (hK : Begins K (·.Fits (.mark m))) (hne : ∃ w, w ∈ K) : tier.Precedes K :=
  ⟨hne, hK.mono fun _ hs => .of_none (by rw [Sign.fits_mark.mp hs, hm])⟩

theorem mark_mul {m : Mark} (hm : (Sign.mark m).joins? = none) (hne : ∃ w, w ∈ K) :
    tier.Precedes ((mark m).texts * K) :=
  .of_mark hm (.mul (.terminal fun _ => id)) (Terminal.exists_mem_mul _ hne)

end Tier.Precedes

end Precedes

/-! ### Repetitions -/

section Star

variable {D K : Language Sign}

theorem star_mul_eq (D K : Language Sign) : D∗ * K = D * (D∗ * K) + K := by
  conv_lhs => rw [← Language.one_add_self_mul_kstar_eq_kstar, add_mul, one_mul, mul_assoc, add_comm]

/-- Texts with separators between them: a text, and then a separator and more of them, or what
follows. -/
theorem separated_mul (S E K : Language Sign) :
    E * (S * E)∗ * K = E * (S * (E * (S * E)∗ * K) + K) := by
  conv_lhs => rw [mul_assoc, star_mul_eq]
  simp only [mul_assoc]

theorem exists_mem_star_mul (D : Language Sign) (h : ∃ w, w ∈ K) : ∃ w, w ∈ D∗ * K := by
  obtain ⟨w, hw⟩ := h
  exact ⟨w, Language.append_mem_mul (Language.nil_mem_kstar D) hw⟩

/-- Where no repetition begins, there is none. -/
theorem cons_mem_of_star_mul {p : Sign → Prop} (hD : Begins D p) {s : Sign} (hs : ¬ p s)
    {w : List Sign} (h : s :: w ∈ D∗ * K) : s :: w ∈ K := by
  rw [star_mul_eq] at h
  rcases h with h | h
  · exact absurd (hD.mul.cons h) hs
  · exact h

theorem mem_star_mul_of_mem {w : List Sign} (h : w ∈ K) : w ∈ D∗ * K :=
  Language.append_mem_mul (Language.nil_mem_kstar D) h

end Star

namespace Reader

variable {n bound : Nat} {K : Language Sign}

/-- Where no repetition begins, nothing is read. -/
theorem Meets.pure_star_mul {α : Type} {D : Language Sign} {p : Sign → Prop} {c : Cursor} (a : α)
    (hD : Begins D p) (hp : ¬ p (nextSign c.rest)) : Meets (D∗ * K) K c ((Pure.pure a : Reader α) c) :=
  (Meets.pure a).of_next (fun _ => mem_star_mul_of_mem) fun _ => cons_mem_of_star_mul hD hp

/-- Where what follows the repetitions does not begin, a repetition is read. -/
theorem Meets.star_mul {α : Type} {D : Language Sign} {c : Cursor}
    {o : EStateM.Result SyntaxError Cursor α} (h : Meets (D * (D∗ * K)) K c o)
    (hK : ∀ w, nextSign c.rest :: w ∉ K) : Meets (D∗ * K) K c o := by
  rw [star_mul_eq]
  exact h.add_left hK

/-- At the end no repetition begins. -/
theorem Expects.pure_star_mul {α : Type} {D : Language Sign} {p : Sign → Prop} (a : α)
    (hD : Begins D p) (hp : ¬ p .endOfText) (hne : ∃ w, w ∈ K) (hn : n ≤ 1) :
    Expects (Pure.pure a) n (D∗ * K) K := by
  refine ⟨(Ensures.pure a).goes, exists_mem_star_mul D hne, fun c hc => ?_⟩
  have hnil : c.rest = [] := List.eq_nil_of_length_eq_zero (by omega)
  exact .pure_star_mul a hD (by rwa [hnil])

/-! ### Expressions -/

section Operands

/-- A token joins at a level if and only if it is an operator of the level. -/
theorem isSome_combine?_iff {l : Level} {t : Token} :
    (l.combine? t).isSome ↔ t.sign.joins? = some (.level l) := by
  constructor
  · intro h
    obtain ⟨combine, hcombine⟩ := Option.isSome_iff_exists.mp h
    exact Level.joins?_of_combine? hcombine
  · intro h
    obtain ⟨kind, lexeme, line⟩ := t
    cases kind with
    | mark m => cases m <;> cases h <;> rfl
    | keyword k => cases k <;> cases h <;> rfl
    | identifier | string _ | number _ | endOfText => cases h

variable {operand : Reader Expr} {l : Level}

/-- What follows the left operand of a level: operators with their right operands, and then what
follows the level. -/
theorem precedes_operators (hK : (Tier.level l).Precedes K) :
    l.operand.Precedes ((l.operators.texts * l.operand.rule.texts)∗ * K) := by
  have hoperators : Begins l.operators.texts fun s => s.joins? = some (.level l) := by
    rw [l.texts_operators]
    exact .single fun _ => id
  rw [star_mul_eq]
  refine (hK.tighter (Nat.le_of_lt l.rank_operand_lt)).add (hoperators.mul.mul.mono fun s hs => ?_)
  exact .of_some hs l.rank_operand_lt

theorem chainFrom_expects
    (h : ∀ {K}, l.operand.Precedes K → Expects operand n (l.operand.rule.texts * K) K)
    (hK : (Tier.level l).Precedes K) (hn : n ≤ bound + 1) (left : Expr) :
    Expects (chainFrom l operand bound left) n
      ((l.operators.texts * l.operand.rule.texts)∗ * K) K := by
  induction bound generalizing n left with
  | zero =>
    rw [l.texts_operators]
    exact .pure_star_mul left (Begins.single fun _ => id).mul nofun hK.nonempty hn
  | succ bound ih =>
    have hstar : (l.operators.texts * l.operand.rule.texts)∗ * K =
        single (fun s => s.joins? = some (.level l)) *
          (l.operand.rule.texts * ((l.operators.texts * l.operand.rule.texts)∗ * K)) + K := by
      rw [← l.texts_operators]
      conv_lhs => rw [star_mul_eq, mul_assoc]
    rw [hstar]
    refine .acceptBy? (fun _ => isSome_combine?_iff) nofun (fun combine => ?_)
      (.pure left hK.nonempty) (hK.begins.mono fun s hs hj => absurd (hs _ hj) (Nat.lt_irrefl _))
    exact ((h (precedes_operators hK)).of_le (Nat.sub_le n 1)).bind fun right =>
      ih (fun hK => (h hK).of_le (Nat.sub_le n 1)) (by omega) (combine left right)

/-- A level expects its operands with operators between them. -/
theorem chain_expects
    (h : ∀ {K}, l.operand.Precedes K → Expects operand n (l.operand.rule.texts * K) K)
    (hK : (Tier.level l).Precedes K) :
    Expects (chain l operand) n (l.rule.texts * K) K := by
  rw [l.texts_eq, mul_assoc]
  exact (h (precedes_operators hK)).bind fun left => .bounded fun hk hn =>
    chainFrom_expects (fun hK => (h hK).of_le hn) hK hk left

theorem equality_expects
    (h : ∀ {K}, Tier.unary.Precedes K → Expects operand n (Rule.unary.texts * K) K)
    (hK : (Tier.level .equality).Precedes K) :
    Expects (equality operand) n (Rule.equality.texts * K) K :=
  chain_expects (l := .equality) (chain_expects (l := .comparison) (chain_expects (l := .sum)
    (chain_expects (l := .product) h))) hK

section Call

variable {argument : Reader Expr}

/-- Arguments, with commas between them, are followed by a parenthesis. -/
theorem argumentsFrom_expects
    (h : ∀ {K}, Tier.assignment.Precedes K → Expects argument n (Rule.assignment.texts * K) K)
    (hK : Begins K (·.Fits (.mark .rightParen))) (hne : ∃ w, w ∈ K) (hn : n ≤ bound)
    (count : Nat) :
    Expects (argumentsFrom argument bound count) n (Rule.arguments.texts * K) K := by
  induction bound generalizing n count with
  | zero =>
    obtain rfl := Nat.le_zero.mp hn
    obtain ⟨w, hw⟩ := hne
    have harguments : [.keyword .nilWord] ∈ Rule.arguments.texts := by
      rw [texts_arguments]
      exact mem_mul_of_nil_mem nil_mem_assignment (Language.nil_mem_kstar _)
    exact .of_goes (Ensures.fail _) ⟨_, Language.append_mem_mul harguments hw⟩
  | succ bound ih =>
    have hrest : Rule.arguments.texts * K =
        Rule.assignment.texts * ((mark .comma).texts * (Rule.arguments.texts * K) + K) := by
      rw [texts_arguments]
      exact separated_mul _ _ _
    rw [hrest]
    have hless {K : Language Sign} (hK : Tier.assignment.Precedes K) :=
      (h hK).of_le (Nat.sub_le n 1)
    have haccept (first : Expr) : Expects (accept (.mark .comma) >>= fun more =>
        if more then argumentsFrom argument bound (count + 1) >>= fun others =>
          pure (first :: others) else pure [first]) n
        ((mark .comma).texts * (Rule.arguments.texts * K) + K) K := by
      exact .accept rfl ((ih hless (by omega) (count + 1)).bind fun others =>
        .pure (first :: others) hne) (.pure [first] hne) (hK.not_mark nofun)
    refine .noteBeyond rfl ((h ?_).bind haccept)
    exact (Tier.Precedes.of_mark rfl hK hne).add (.mul (.mark (.of_none rfl)))

/-- Arguments, if there are any, are followed by a parenthesis. -/
theorem arguments_expects
    (h : ∀ {K}, Tier.assignment.Precedes K → Expects argument n (Rule.assignment.texts * K) K)
    (hK : Begins K (·.Fits (.mark .rightParen))) (hne : ∃ w, w ∈ K) :
    Expects (arguments argument) n ((Rule.arguments.texts + 1) * K) K := by
  have hbegins : Begins (Rule.arguments.texts * K) fun s => ¬ s.Fits (.mark .rightParen) := by
    rw [texts_arguments]
    exact begins_assignment.mul.mul.not_mark nofun
  rw [add_mul, one_mul, add_comm]
  exact .check rfl (.pure [] hne) (.bounded fun hk hn => argumentsFrom_expects
    (fun hK => (h hK).of_le hn) hK hne hk 0) hK hbegins

theorem callOf_expects
    (h : ∀ {K}, Tier.assignment.Precedes K → Expects argument n (Rule.assignment.texts * K) K)
    (hne : ∃ w, w ∈ K) (callee : Expr) : Expects (callOf argument callee) n
      ((Rule.arguments.texts + 1) * ((mark .rightParen).texts * K)) K := by
  exact (arguments_expects h (.mul (.terminal fun _ => id)) (Terminal.exists_mem_mul _ hne)).bind
    fun es => .expect rfl rfl fun closing => .pure (Expr.call callee closing.line es) hne

/-- What follows an expression that is called or has properties. -/
abbrev suffixTexts : Language Sign :=
  (mark .leftParen).texts * ((Rule.arguments.texts + 1) * (mark .rightParen).texts) +
    (mark .dot).texts * identifier.texts

theorem suffixTexts_star_mul (K : Language Sign) : suffixTexts∗ * K =
    (mark .leftParen).texts * ((Rule.arguments.texts + 1) *
      ((mark .rightParen).texts * (suffixTexts∗ * K))) +
    ((mark .dot).texts * (identifier.texts * (suffixTexts∗ * K)) + K) := by
  conv_lhs => rw [star_mul_eq, add_mul, add_assoc]
  simp only [mul_assoc]

/-- An opening parenthesis comes before the arguments. -/
theorem suffixes_expects
    (h : ∀ {K}, Tier.assignment.Precedes K → Expects argument (n - 1) (Rule.assignment.texts * K) K)
    (hK : Tier.call.Precedes K) (hn : n ≤ bound + 1) (e : Expr) :
    Expects (suffixes argument bound e) n (suffixTexts∗ * K) K := by
  induction bound generalizing n e with
  | zero =>
    have hbegins : Begins suffixTexts (· ≠ .endOfText) :=
      .add (.mul (.mark nofun)) (.mul (.mark nofun))
    exact .pure_star_mul e hbegins (fun h => h rfl) hK.nonempty hn
  | succ bound ih =>
    rw [suffixTexts_star_mul]
    have hless {K : Language Sign} (hK : Tier.assignment.Precedes K) :=
      (h hK).of_le (Nat.sub_le _ 1)
    have hnot {m : Mark} (hm : (Sign.mark m).joins? = some .call) :
        Begins K fun s => ¬ s.Fits (.mark m) := by
      exact hK.begins.not_mark fun hs => absurd (hs _ hm) (Nat.lt_irrefl _)
    refine .accept rfl ?_ (.accept rfl ?_ (.pure e hK.nonempty) (hnot rfl)) ?_
    · exact (callOf_expects h (exists_mem_star_mul _ hK.nonempty) e).bind fun e' =>
        ih hless (by omega) e'
    · exact .expect rfl rfl fun name => (ih hless (by omega) _).of_le (Nat.sub_le _ 1)
    · refine .add (.mul (.mark nofun)) (hnot rfl)

theorem superOf_expects (line : Nat) (hne : ∃ w, w ∈ K) :
    Expects (superOf line) n ((mark .dot).texts * (identifier.texts * K)) K :=
  .expect rfl rfl fun _ => .expect rfl rfl fun name => .freshId fun id =>
    .pure (Expr.super id line name.toName) hne

theorem groupingOf_expects
    (h : ∀ {K}, Tier.assignment.Precedes K → Expects argument n (Rule.assignment.texts * K) K)
    (hne : ∃ w, w ∈ K) : Expects (groupingOf argument) n
      (Rule.assignment.texts * ((mark .rightParen).texts * K)) K := 
  (h (.mark_mul rfl hne)).bind fun e => .expect rfl rfl fun _ => .pure (Expr.grouping e) hne

theorem isSome_literal?_iff {t : Token} : t.literal?.isSome ↔ t.sign.isConstant := by
  constructor
  · intro h
    obtain ⟨l, hl⟩ := Option.isSome_iff_exists.mp h
    rw [Token.literal?_eq_some.mp hl]
    exact l.isConstant_sign
  · intro h
    obtain ⟨kind, lexeme, line⟩ := t
    cases kind with
    | keyword k => cases k <;> first | rfl | cases h
    | _ => first | rfl | cases h

/-- A primary expression, before anything. -/
theorem primary_expects
    (h : ∀ {K}, Tier.assignment.Precedes K → Expects argument (n - 1) (Rule.assignment.texts * K) K)
    (hne : ∃ w, w ∈ K) : Expects (primary argument) n (Rule.primary.texts * K) K := by
  simp only [texts_primary, add_mul, mul_assoc]
  refine .acceptBy? (fun _ => isSome_literal?_iff) nofun (fun l => .pure (Expr.literal l) hne)
    (.accept? rfl (fun name => .freshId fun id => .pure (Expr.variable id name.toName) hne)
      (.accept? rfl (fun t => .freshId fun id => .pure (Expr.this id t.line) hne)
        (.accept? rfl (fun t => superOf_expects t.line hne)
          (.acceptOrFail rfl rfl rfl (groupingOf_expects h hne)) ?_) ?_) ?_) ?_
  · exact .mul (.mark nofun)
  · exact .add (.mul (.word nofun)) (.mul (.mark nofun))
  · exact .add (.mul (.word nofun)) (.add (.mul (.word nofun)) (.mul (.mark nofun)))
  · refine .add (.mul (.terminal fun s hs hc => ?_))
      (.add (.mul (.word nofun)) (.add (.mul (.word nofun)) (.mul (.mark nofun))))
    cases s <;> first | exact hs | cases hc

/-- A primary expression with calls and properties. -/
theorem call_expects
    (h : ∀ {K}, Tier.assignment.Precedes K → Expects argument (n - 1) (Rule.assignment.texts * K) K)
    (hK : Tier.call.Precedes K) : Expects (call argument) n (Rule.call.texts * K) K := by
  rw [texts_call, mul_assoc]
  exact (primary_expects h (exists_mem_star_mul _ hK.nonempty)).bind fun e => .bounded fun hk hn =>
    suffixes_expects (fun hK => (h hK).of_le (Nat.sub_le_sub_right hn 1)) hK hk e

end Call

end Operands

/-- What is assigned to has been read already. -/
theorem assignTo_expects (target : Expr) (equals : Token) (value : Expr) (hne : ∃ w, w ∈ K) :
    Expects (assignTo target equals value) n K K := by
  unfold assignTo
  split
  · exact .freshId fun id => .pure _ hne
  · exact .pure _ hne
  · exact (Expects.note rfl hne).bind fun _ => .pure target hne

theorem isSome_unaryOp?_iff {t : Token} {f : UnaryOp → Expr → Expr} :
    (t.unaryOp?.map f).isSome ↔ t.sign = .mark .bang ∨ t.sign = .mark .minus := by
  rw [Option.isSome_map]
  constructor
  · intro h
    obtain ⟨op, hop⟩ := Option.isSome_iff_exists.mp h
    rw [Token.unaryOp?_eq_some.mp hop]
    cases op
    · exact .inr rfl
    · exact .inl rfl
  · rintro (h | h)
    · exact Option.isSome_iff_exists.mpr ⟨.not, Token.unaryOp?_eq_some.mpr h⟩
    · exact Option.isSome_iff_exists.mpr ⟨.negate, Token.unaryOp?_eq_some.mpr h⟩

theorem unary_succ_expects
    (hassignment : ∀ {K}, Tier.assignment.Precedes K →
      Expects (assignment bound) (n - 1) (Rule.assignment.texts * K) K)
    (hunary : ∀ {K}, Tier.unary.Precedes K →
      Expects (unary bound) (n - 1) (Rule.unary.texts * K) K)
    (hK : Tier.unary.Precedes K) : Expects (unary (bound + 1)) n (Rule.unary.texts * K) K := by
  have hcall : Begins (Rule.call.texts * K)
      fun s => ¬ (s = .mark .bang ∨ s = .mark .minus) := by
    refine begins_call.mul.mono ?_
    rintro _ hs (rfl | rfl) <;> cases hs
  have hrest : Rule.unary.texts * K = single (fun s => s = .mark .bang ∨ s = .mark .minus) *
      (Rule.unary.texts * K) + Rule.call.texts * K := by
    conv_lhs => rw [texts_unary, add_mul, mul_assoc]
  rw [hrest]
  exact .acceptBy? (fun _ => isSome_unaryOp?_iff) nofun
    (fun apply => (hunary hK).bind fun e => .pure (apply e) hK.nonempty)
    (call_expects hassignment (hK.tighter (by decide))) hcall

theorem ternary_succ_expects
    (hternary : ∀ {K}, Tier.ternary.Precedes K →
      Expects (ternary bound) (n - 1) (Rule.ternary.texts * K) K)
    (hunary : ∀ {K}, Tier.unary.Precedes K → Expects (unary bound) n (Rule.unary.texts * K) K)
    (hK : Tier.ternary.Precedes K) :
    Expects (ternary (bound + 1)) n (Rule.ternary.texts * K) K := by
  have hrest : Rule.ternary.texts * K = Rule.equality.texts * ((mark .question).texts *
      (Rule.equality.texts * ((mark .colon).texts * (Rule.ternary.texts * K))) + K) := by
    conv_lhs => rw [texts_ternary]
    simp only [mul_assoc, add_mul, one_mul]
  have hless {K : Language Sign} (hK : Tier.unary.Precedes K) := (hunary hK).of_le (Nat.sub_le n 1)
  have hcolon : Tier.Precedes (.level .equality)
      ((mark .colon).texts * (Rule.ternary.texts * K)) := .mark_mul rfl (hternary hK).nonempty
  rw [hrest]
  refine (equality_expects hunary ?_).bind fun condition => .accept rfl
    ((equality_expects hless hcolon).bind fun whenTrue => .expect rfl rfl fun _ =>
      ((hternary hK).of_le (Nat.sub_le _ 1)).bind fun whenFalse =>
        .pure (Expr.ternary condition whenTrue whenFalse) hK.nonempty)
    (.pure condition hK.nonempty) (hK.begins.not_mark fun hs => absurd (hs _ rfl) (by decide))
  exact (hK.tighter (by decide)).add (.mul (.mark (.of_some rfl (by decide))))

theorem assignment_succ_expects
    (hassignment : ∀ {K}, Tier.assignment.Precedes K →
      Expects (assignment bound) (n - 1) (Rule.assignment.texts * K) K)
    (hternary : ∀ {K}, Tier.ternary.Precedes K →
      Expects (ternary bound) n (Rule.ternary.texts * K) K)
    (hK : Tier.assignment.Precedes K) :
    Expects (assignment (bound + 1)) n (Rule.assignment.texts * K) K := by
  have hrest : Rule.assignment.texts * K =
      Rule.logicOr.texts * ((mark .equal).texts * (Rule.assignment.texts * K) + K) := by
    conv_lhs => rw [texts_assignment]
    simp only [mul_assoc, add_mul, one_mul]
  rw [hrest]
  refine (chain_expects (l := .or) (chain_expects (l := .and) hternary) ?_).bind fun target =>
    .accept? rfl (fun equals => (hassignment hK).bind fun value =>
        assignTo_expects target equals value hK.nonempty)
      (.pure target hK.nonempty) (hK.begins.not_mark fun hs => absurd (hs _ rfl) (by decide))
  exact (hK.tighter (by decide)).add (.mul (.mark (.of_some rfl (by decide))))

/-- The levels that call each other. Their bounds suffice for the tokens that they find. -/
theorem levels_expect (bound : Nat) :
    (∀ {n K}, 3 * n ≤ bound → Tier.assignment.Precedes K →
        Expects (assignment bound) n (Rule.assignment.texts * K) K) ∧
      (∀ {n K}, 3 * n ≤ bound + 1 → Tier.ternary.Precedes K →
        Expects (ternary bound) n (Rule.ternary.texts * K) K) ∧
      ∀ {n K}, 3 * n ≤ bound + 2 → Tier.unary.Precedes K →
        Expects (unary bound) n (Rule.unary.texts * K) K := by
  induction bound with
  | zero =>
    have hne {L K : Language Sign} (hL : [.keyword .nilWord] ∈ L) (hK : ∃ w, w ∈ K) :
        ∃ w, w ∈ L * K := by
      obtain ⟨w, hw⟩ := hK
      exact ⟨_, Language.append_mem_mul hL hw⟩
    refine ⟨fun {n K} hn hK => ?_, fun {n K} hn hK => ?_, fun {n K} hn hK => ?_⟩
    all_goals obtain rfl : n = 0 := by omega
    · exact .of_goes (Ensures.fail _) (hne nil_mem_assignment hK.nonempty)
    · exact .of_goes (Ensures.fail _) (hne nil_mem_ternary hK.nonempty)
    · exact .of_goes (Ensures.fail _) (hne nil_mem_unary hK.nonempty)
  | succ bound ih =>
    obtain ⟨iha, iht, ihu⟩ := ih
    refine ⟨fun {n K} hn hK => ?_, fun {n K} hn hK => ?_, fun {n K} hn hK => ?_⟩
    · exact assignment_succ_expects (iha (by omega)) (iht (by omega)) hK
    · exact ternary_succ_expects (iht (by omega)) (ihu (by omega)) hK
    · exact unary_succ_expects (iha (by omega)) (ihu (by omega)) hK

/-- An expression is expected before what does not go on with it. -/
theorem expression_expects (hK : Tier.assignment.Precedes K) :
    Expects expression n (Rule.assignment.texts * K) K :=
  .bounded fun hk _ => (levels_expect _).1 (by omega) hK

end Reader

end Treewalk
