import Treewalk.Proofs.Syntax.Reaching
import Treewalk.Proofs.Syntax.Soundness.Expression

/-!
# What reads as an expression is answered

Tokens that read as a tree are taken by the reader of such trees, provided that its depth suffices
and that the next token does not join what stands before it more tightly. The reader notes no fault,
and the tree that it answers differs only in lines and node numbers.

The depth that suffices is three for each token and a little more for looser tiers: assignments,
choices and prefix operators each cost one, and a nested expression has taken a token before.

## Main definitions

* `Tier.reader`, `Tier.depth`: the reader of a tier, and the depth that it needs.
* `Tier.StopsAt`: tokens of which an expression takes none.

## Main results

* `Expr.Reads.takes`: the reader of expressions takes what reads as an expression.
-/

namespace Treewalk

open Reader

/-! ### Tiers and the tokens after an expression -/

/-- How loose a tier is. -/
def Tier.rank : Tier → Nat
  | primary => 0
  | call => 1
  | unary => 2
  | level .product => 3
  | level .sum => 4
  | level .comparison => 5
  | level .equality => 6
  | ternary => 7
  | level .and => 8
  | level .or => 9
  | assignment => 10

/-- The tier at which a sign goes on with what stands before it. -/
def Sign.joins? : Sign → Option Tier
  | .mark .leftParen | .mark .dot => some .call
  | .mark .star | .mark .slash => some (.level .product)
  | .mark .minus | .mark .plus => some (.level .sum)
  | .mark .greater | .mark .greaterEqual | .mark .less | .mark .lessEqual =>
    some (.level .comparison)
  | .mark .bangEqual | .mark .equalEqual => some (.level .equality)
  | .mark .question => some .ternary
  | .keyword .andWord => some (.level .and)
  | .keyword .orWord => some (.level .or)
  | .mark .equal => some .assignment
  | _ => none

/-- The first of some tokens does not go on with an expression of a tier. -/
def Tier.StopsAt (tier : Tier) (left : List Token) : Prop :=
  ∀ t ∈ left.head?, ∀ joined ∈ t.sign.joins?, tier.rank < joined.rank

namespace Tier.StopsAt

variable {tier : Tier} {left : List Token}

theorem tighter {tier' : Tier} (h : tier.StopsAt left) (hr : tier'.rank ≤ tier.rank) :
    tier'.StopsAt left :=
  fun t ht joined hj => Nat.lt_of_le_of_lt hr (h t ht joined hj)

theorem of_none {t : Token} (h : t.sign.joins? = none) : tier.StopsAt (t :: left) := by
  rintro _ ⟨⟩ joined hj
  rw [h] at hj
  cases hj

theorem of_joins {t : Token} {joined : Tier} (h : t.sign.joins? = some joined)
    (hr : tier.rank < joined.rank) : tier.StopsAt (t :: left) := by
  rintro _ ⟨⟩ _ hj
  rw [h] at hj
  cases hj
  exact hr

/-- A sign that goes on with expressions of the tier or of tighter ones does not come next. -/
theorem ne_sign (h : tier.StopsAt left) {s : Sign} {joined : Tier} (hs : s.joins? = some joined)
    (hr : joined.rank ≤ tier.rank) : ∀ t ∈ left.head?, t.sign ≠ s := by
  rintro t ht rfl
  exact absurd (h t ht joined hs) (Nat.not_lt_of_le hr)

theorem not_mark (h : tier.StopsAt left) {m : Mark} {joined : Tier}
    (hs : (Sign.mark m).joins? = some joined) (hr : joined.rank ≤ tier.rank) :
    ∀ t ∈ left.head?, ¬ t.is (.mark m) :=
  fun t ht hm => h.ne_sign hs hr t ht (Token.is_mark.mp hm)

end Tier.StopsAt

theorem BinaryOp.joins?_sign (op : BinaryOp) : op.sign.joins? = some (.level op.level) := by
  cases op <;> rfl

theorem LogicalOp.joins?_sign (op : LogicalOp) : op.sign.joins? = some (.level op.level) := by
  cases op <;> rfl

/-- An operator of a level goes on with expressions of the level. -/
theorem Level.joins?_of_combine? {level : Level} {t : Token} {combine : Expr → Expr → Expr}
    (h : level.combine? t = some combine) : t.sign.joins? = some (.level level) := by
  rcases combine?_eq_some.mp h with ⟨op, rfl, hs, -⟩ | ⟨op, rfl, hs, -⟩
  · rw [hs, op.joins?_sign]
  · rw [hs, op.joins?_sign]

theorem Level.rank_operand_lt (level : Level) : level.operand.rank < (Tier.level level).rank := by
  cases level <;> decide

/-! ### What opens an expression -/

/-- The signs with which a primary expression can begin. -/
def Sign.opensPrimary : Sign → Bool
  | .mark .leftParen | .name _ | .string _ | .number _ => true
  | .keyword .trueWord | .keyword .falseWord | .keyword .nilWord => true
  | .keyword .thisWord | .keyword .superWord => true
  | _ => false

/-- The signs with which an expression can begin. -/
def Sign.opensExpression : Sign → Bool
  | .mark .bang | .mark .minus => true
  | s => s.opensPrimary

theorem Literal.opensPrimary_sign (l : Literal) : l.sign.opensPrimary = true := by
  rcases l with _ | _ | _ | _ <;> try rfl
  next b => cases b <;> rfl

theorem UnaryOp.opensExpression_sign (op : UnaryOp) : op.sign.opensExpression = true := by
  cases op <;> rfl

theorem Sign.opensExpression_of_opensPrimary {s : Sign} (h : s.opensPrimary = true) :
    s.opensExpression = true := by
  unfold opensExpression
  split
  · rfl
  · rfl
  · exact h

/-- An expression begins with a sign with which one can begin, and only an expression that is looser
than a call can begin with a prefix operator. -/
theorem Expr.Reads.opens {tier : Tier} {ts : List Sign} {e : Expr} (h : Expr.Reads tier ts e) :
    ∃ s us, ts = s :: us ∧ s.opensExpression = true ∧
      (tier.rank ≤ Tier.call.rank → s.opensPrimary = true) := by
  have extend {tier : Tier} {ts vs : List Sign} (h : ∃ s us, ts = s :: us ∧
      s.opensExpression = true ∧ (tier.rank ≤ Tier.call.rank → s.opensPrimary = true)) :
      ∃ s us, ts ++ vs = s :: us ∧ s.opensExpression = true ∧
        (tier.rank ≤ Tier.call.rank → s.opensPrimary = true) := by
    obtain ⟨s, us, rfl, hs⟩ := h
    exact ⟨s, us ++ vs, rfl, hs⟩
  have loosen {tier tier' : Tier} {ts : List Sign} (hr : Tier.call.rank < tier'.rank)
      (h : ∃ s us, ts = s :: us ∧ s.opensExpression = true ∧
        (tier.rank ≤ Tier.call.rank → s.opensPrimary = true)) :
      ∃ s us, ts = s :: us ∧ s.opensExpression = true ∧
        (tier'.rank ≤ Tier.call.rank → s.opensPrimary = true) := by
    obtain ⟨s, us, rfl, hs, -⟩ := h
    exact ⟨s, us, rfl, hs, fun hle => absurd hle (Nat.not_le_of_lt hr)⟩
  have level (l : Level) : Tier.call.rank < (Tier.level l).rank := by cases l <;> decide
  induction h with
  | literal l =>
    exact ⟨_, [], rfl, Sign.opensExpression_of_opensPrimary l.opensPrimary_sign,
      fun _ => l.opensPrimary_sign⟩
  | «variable» | this | super | grouping => exact ⟨_, _, rfl, rfl, fun _ => rfl⟩
  | ofPrimary _ ih =>
    obtain ⟨s, us, hts, hs, hp⟩ := ih
    exact ⟨s, us, hts, hs, fun _ => hp (by decide)⟩
  | call _ _ _ _ _ ih => exact extend (extend ih)
  | get _ _ ih => exact extend ih
  | ofCall _ ih => exact loosen (by decide) ih
  | unary op _ _ _ => exact ⟨_, _, rfl, op.opensExpression_sign, fun h => absurd h (by decide)⟩
  | ofOperand l _ ih => exact loosen (level l) ih
  | binary _ _ _ _ _ ih => exact extend ih
  | logical _ _ _ _ _ ih => exact extend ih
  | ofEquality _ ih => exact loosen (by decide) ih
  | ternary _ _ _ ih => exact extend (extend (loosen (by decide) ih))
  | ofOr _ ih => exact loosen (by decide) ih
  | assign _ _ _ ih => exact extend (loosen (by decide) ih)
  | set _ _ ih => exact extend (loosen (by decide) ih)

/-! ### Expressions -/

/-- Expressions that differ only in lines and node numbers. -/
abbrev Expr.Same (e e' : Expr) : Prop :=
  e'.bare = e.bare

/-- The reader of a tier whose nested expressions may go so deep. -/
def Tier.reader (bound : Nat) : Tier → Reader Expr
  | assignment => Reader.assignment bound
  | level .or => chain .or (chain .and (Reader.ternary bound))
  | level .and => chain .and (Reader.ternary bound)
  | ternary => Reader.ternary bound
  | level .equality =>
    chain .equality (chain .comparison (chain .sum (chain .product (Reader.unary bound))))
  | level .comparison => chain .comparison (chain .sum (chain .product (Reader.unary bound)))
  | level .sum => chain .sum (chain .product (Reader.unary bound))
  | level .product => chain .product (Reader.unary bound)
  | unary => Reader.unary bound
  | call => Reader.call (Reader.assignment bound)
  | primary => Reader.primary (Reader.assignment bound)

theorem Tier.reader_level (l : Level) (bound : Nat) :
    (Tier.level l).reader bound = chain l (l.operand.reader bound) := by
  cases l <;> rfl

/-- The depth that a tier needs beyond that of the tokens. -/
def Tier.depth : Tier → Nat
  | assignment => 3
  | level .or | level .and | ternary => 2
  | level _ | unary => 1
  | call | primary => 0

theorem Level.depth_operand (l : Level) : l.operand.depth = (Tier.level l).depth := by
  cases l <;> rfl

theorem Sign.rank_pos_of_joins? {s : Sign} {joined : Tier} (h : s.joins? = some joined) :
    0 < joined.rank := by
  unfold joins? at h
  split at h <;> cases h <;> decide

/-- Nothing goes on with a primary expression as such. -/
theorem Tier.stopsAt_primary (left : List Token) : Tier.primary.StopsAt left :=
  fun _ _ _ hj => Sign.rank_pos_of_joins? hj

/-- What the reader of a tier makes of tokens that read as an expression. The readers of levels and
of calls have loops; there it is said how the loop goes on. -/
def Tier.Answers (ts : List Sign) (e : Expr) : Tier → Prop
  | level l => ∀ bound us left, us.map Token.sign = ts →
    3 * us.length + (Tier.level l).depth ≤ bound → l.operand.StopsAt left →
      Reaches ((Tier.level l).reader bound) us left
        (fun p : Nat × Expr => left.length ≤ p.1 ∧ e.Same p.2)
        fun p => chainFrom l (l.operand.reader bound) p.1 p.2
  | call => ∀ bound us left, us.map Token.sign = ts → 3 * us.length ≤ bound →
    Reaches (Tier.call.reader bound) us left
      (fun p : Nat × Expr => left.length ≤ p.1 ∧ e.Same p.2)
      fun p => suffixes (Reader.assignment bound) p.1 p.2
  | tier => ∀ bound us left, us.map Token.sign = ts → 3 * us.length + tier.depth ≤ bound →
    tier.StopsAt left → Takes (tier.reader bound) us left e.Same

/-- A loop over operators of a level ends where no operator of the level comes next. -/
theorem chainFrom_stop {l : Level} {operand : Reader Expr} {left : List Token}
    (h : (Tier.level l).StopsAt left) {P : Expr → Prop} {e : Expr} (he : P e) (bound : Nat) :
    Takes (chainFrom l operand bound e) [] left P := by
  cases bound with
  | zero => exact .pure he
  | succ bound =>
    refine .acceptBy?_none (fun t ht => ?_) (Takes.pure he)
    cases hc : l.combine? t with
    | none => rfl
    | some combine =>
      exact absurd (h t ht _ (Level.joins?_of_combine? hc)) (Nat.lt_irrefl _)

/-- A loop over calls and properties ends where none comes next. -/
theorem suffixes_stop {argument : Reader Expr} {left : List Token} (h : Tier.call.StopsAt left)
    {P : Expr → Prop} {e : Expr} (he : P e) (bound : Nat) :
    Takes (suffixes argument bound e) [] left P := by
  cases bound with
  | zero => exact .pure he
  | succ bound =>
    exact .decline (h.not_mark rfl (Nat.le_refl _)) <| .decline (h.not_mark rfl (Nat.le_refl _)) <|
      Takes.pure he

/-- The reader of a tier takes tokens that read as an expression and stops there. -/
theorem Tier.Answers.takes {tier : Tier} {ts : List Sign} {e : Expr} (h : tier.Answers ts e)
    {bound : Nat} {us left : List Token} (hu : us.map Token.sign = ts)
    (hb : 3 * us.length + tier.depth ≤ bound) (hs : tier.StopsAt left) :
    Takes (tier.reader bound) us left e.Same := by
  cases tier with
  | level l =>
    have hr := h bound us left hu hb (hs.tighter (Nat.le_of_lt l.rank_operand_lt))
    exact hr.trans_last fun p hp => chainFrom_stop hs hp.2 p.1
  | call =>
    have hr := h bound us left hu hb
    exact hr.trans_last fun p hp => suffixes_stop hs hp.2 p.1
  | assignment | ternary | unary | primary => exact h bound us left hu hb hs

/-! #### Primary expressions -/

/-- The signs of constants. -/
def Sign.isConstant : Sign → Bool
  | .keyword .nilWord | .keyword .trueWord | .keyword .falseWord => true
  | .number _ | .string _ => true
  | _ => false

theorem Literal.isConstant_sign (l : Literal) : l.sign.isConstant = true := by
  cases l with
  | bool b => cases b <;> rfl
  | _ => rfl

theorem Token.literal?_eq_none {t : Token} (h : t.sign.isConstant = false) :
    t.literal? = none := by
  cases hl : t.literal? with
  | none => rfl
  | some l =>
    rw [Token.literal?_eq_some.mp hl, l.isConstant_sign] at h
    cases h

theorem Token.unaryOp?_eq_none {t : Token} (h : t.sign.opensPrimary = true) :
    t.unaryOp? = none := by
  cases ho : t.unaryOp? with
  | none => rfl
  | some op =>
    rw [Token.unaryOp?_eq_some.mp ho] at h
    cases op <;> cases h

section Primary

variable {inner : Reader Expr} {left us : List Token} {t : Token}

/-- Whatever holds of a token holds of the next one if that is the token. -/
theorem forall_head {p : Token → Prop} (h : p t) : ∀ t' ∈ (t :: us).head?, p t' := by
  rintro _ ⟨⟩
  exact h

theorem literal_takes {l : Literal} (ht : t.sign = l.sign) :
    Takes (primary inner) [t] left (Expr.literal l).Same :=
  .acceptBy? (Token.literal?_eq_some.mpr ht) (Takes.pure rfl)

theorem variable_takes {name : Name} (id : Nat) (ht : t.sign = name.sign) :
    Takes (primary inner) [t] left (Expr.variable id name).Same := by
  refine .acceptBy?_none (forall_head (Token.literal?_eq_none (by rw [ht]; rfl))) <|
    .accept? (Token.is_identifier_of_sign ht) <| .freshId fun id' => Takes.pure ?_
  rw [Expr.Same, Expr.bare, Expr.bare, Token.bare_toName ht]

theorem this_takes (id line : Nat) (ht : t.sign = .keyword .thisWord) :
    Takes (primary inner) [t] left (Expr.this id line).Same :=
  .acceptBy?_none (forall_head (Token.literal?_eq_none (by rw [ht]; rfl))) <|
    .accept?_none (forall_head (by simp [Token.is_identifier, ht, Name.sign])) <|
    .accept? (Token.is_keyword.mpr ht) <| .freshId fun _ => Takes.pure rfl

theorem super_takes {dot name : Token} (id line : Nat) {method : Name}
    (ht : t.sign = .keyword .superWord) (hd : dot.sign = .mark .dot)
    (hn : name.sign = method.sign) :
    Takes (primary inner) [t, dot, name] left (Expr.super id line method).Same := by
  refine .acceptBy?_none (forall_head (Token.literal?_eq_none (by rw [ht]; rfl))) <|
    .accept?_none (forall_head (by simp [Token.is_identifier, ht, Name.sign])) <|
    .accept?_none (forall_head (by simp [Token.is_keyword, ht])) <|
    .accept? (Token.is_keyword.mpr ht) <| .expect (Token.is_mark.mpr hd) <|
    .expect (Token.is_identifier_of_sign hn) <| .freshId fun id' => Takes.pure ?_
  rw [Expr.Same, Expr.bare, Expr.bare, Token.bare_toName hn]

theorem grouping_takes {e : Expr} {close : Token} (ht : t.sign = .mark .leftParen)
    (hc : close.sign = .mark .rightParen) (he : Takes inner us (close :: left) e.Same) :
    Takes (primary inner) (t :: us ++ [close]) left (Expr.grouping e).Same := by
  refine .acceptBy?_none (forall_head (Token.literal?_eq_none (by rw [ht]; rfl))) <|
    .accept?_none (forall_head (by simp [Token.is_identifier, ht, Name.sign])) <|
    .accept?_none (forall_head (by simp [Token.is_keyword, ht])) <|
    .accept?_none (forall_head (by simp [Token.is_keyword, ht])) <|
    .accept (Token.is_mark.mpr ht) <| Takes.bind he fun e' he' =>
    .expect (Token.is_mark.mpr hc) <| Takes.pure ?_
  rw [Expr.Same, Expr.bare, Expr.bare, he']

end Primary

/-! #### Calls and properties -/

/-- Arguments are taken up to the closing parenthesis if each of them is. -/
theorem argumentsFrom_takes {argument : Reader Expr} {limit : Nat}
    {arguments : List (List Sign × Expr)} (hne : arguments ≠ [])
    (ha : ∀ a ∈ arguments, ∀ us left, us.map Token.sign = a.1 → us.length ≤ limit →
      Tier.assignment.StopsAt left → Takes argument us left a.2.Same)
    {bound count : Nat} {us left : List Token} {close : Token}
    (hu : us.map Token.sign = separated (arguments.map (·.1))) (hl : us.length ≤ limit)
    (hb : us.length < bound) (hc : count + arguments.length ≤ maxArguments)
    (hclose : close.sign = .mark .rightParen) :
    Takes (argumentsFrom argument bound count) us (close :: left)
      fun es => es.map Expr.bare = (arguments.map (·.2)).map Expr.bare := by
  induction arguments generalizing us bound count with
  | nil => exact absurd rfl hne
  | cons a rest ih =>
    obtain ⟨bound, rfl⟩ := Nat.exists_eq_succ_of_ne_zero (Nat.ne_of_gt (Nat.zero_lt_of_lt hb))
    simp only [List.length_cons] at hc
    refine .noteBeyond (by omega) ?_
    cases rest with
    | nil =>
      have hu : us.map Token.sign = a.1 := by simpa using hu
      have hfirst := ha a List.mem_cons_self us (close :: left) hu hl
        (.of_none (by rw [hclose]; rfl))
      refine Takes.bind_last hfirst fun e he => ?_
      refine .decline (forall_head (by simp [Token.is_mark, hclose])) (Takes.pure ?_)
      rw [List.map_singleton, he]
      rfl
    | cons b rest =>
      rw [List.map_cons, List.map_cons, separated, List.intercalate_cons_cons,
        List.append_assoc] at hu
      obtain ⟨us₁, us₂, rfl, hu₁, hu₂⟩ := List.map_eq_append_iff.mp hu
      obtain ⟨comma, us₃, rfl, hcomma, hu₃⟩ := List.map_eq_cons_iff.mp hu₂
      simp only [List.length_append, List.length_cons] at hl hb
      have hfirst := ha a List.mem_cons_self us₁ (comma :: us₃ ++ close :: left) hu₁ (by omega)
        (.of_none (by rw [hcomma]; rfl))
      refine Takes.bind hfirst fun e he => ?_
      refine .accept (Token.is_mark.mpr hcomma) ?_
      have hrest := ih (List.cons_ne_nil _ _) (fun a ham => ha a (List.mem_cons_of_mem _ ham))
        hu₃ (by omega) (show us₃.length < bound by omega)
        (show count + 1 + (b :: rest).length ≤ maxArguments by omega)
      refine Takes.bind_last hrest fun es hes => Takes.pure ?_
      rw [List.map_cons, hes, he]
      rfl

theorem arguments_takes {argument : Reader Expr} {arguments : List (List Sign × Expr)}
    {us left : List Token} {close : Token}
    (hr : ∀ a ∈ arguments, Expr.Reads .assignment a.1 a.2)
    (ha : ∀ a ∈ arguments, ∀ vs left, vs.map Token.sign = a.1 → vs.length ≤ us.length →
      Tier.assignment.StopsAt left → Takes argument vs left a.2.Same)
    (hu : us.map Token.sign = separated (arguments.map (·.1)))
    (hc : arguments.length ≤ maxArguments) (hclose : close.sign = .mark .rightParen) :
    Takes (Reader.arguments argument) us (close :: left)
      fun es => es.map Expr.bare = (arguments.map (·.2)).map Expr.bare := by
  refine .check ?_
  cases arguments with
  | nil =>
    have hnil : us = [] := by simpa using hu
    subst hnil
    have hcheck : (([] : List Token) ++ close :: left).head?.any (·.is (.mark .rightParen)) := by
      simpa using Token.is_mark.mpr hclose
    rw [hcheck]
    exact Takes.pure rfl
  | cons a rest =>
    obtain ⟨s, ts, hs, hopens, -⟩ := (hr a List.mem_cons_self).opens
    have hhead : ∃ t vs, us = t :: vs ∧ t.sign = s := by
      have : ∃ ws, us.map Token.sign = s :: ws := by
        rw [hu, List.map_cons, hs]
        cases rest with
        | nil => exact ⟨ts, by simp⟩
        | cons b rest => exact ⟨_, by rw [List.map_cons, separated, List.intercalate_cons_cons]; rfl⟩
      obtain ⟨ws, hws⟩ := this
      obtain ⟨t, vs, rfl, ht, -⟩ := List.map_eq_cons_iff.mp hws
      exact ⟨t, vs, rfl, ht⟩
    obtain ⟨t, vs, rfl, ht⟩ := hhead
    have hcheck : ((t :: vs) ++ close :: left).head?.any (·.is (.mark .rightParen)) = false := by
      have hne : ¬ t.is (.mark .rightParen) := fun hm => by
        rw [Token.is_mark, ht] at hm
        rw [hm] at hopens
        cases hopens
      simpa using hne
    rw [hcheck, if_neg Bool.false_ne_true]
    refine .bounded ?_
    refine argumentsFrom_takes (List.cons_ne_nil _ _) ha hu (Nat.le_refl _) ?_ ?_ hclose
    · rw [List.length_append]
      omega
    · rwa [Nat.zero_add]

/-- The arguments of a call are taken after what is called. -/
theorem call_takes {argument : Reader Expr} {arguments : List (List Sign × Expr)} {callee : Expr}
    {us left : List Token} {openP close : Token} {line : Nat} {e : Expr} {bound : Nat}
    (ho : openP.sign = .mark .leftParen) (hclose : close.sign = .mark .rightParen)
    (ha : Takes (Reader.arguments argument) us (close :: left)
      fun es => es.map Expr.bare = (arguments.map (·.2)).map Expr.bare)
    (he : callee.Same e) (hb : (openP :: us ++ [close] ++ left).length ≤ bound) :
    Reaches (suffixes argument bound e) (openP :: us ++ [close]) left
      (fun p : Nat × Expr => left.length ≤ p.1 ∧
        (Expr.call callee line (arguments.map (·.2))).Same p.2)
      fun p => suffixes argument p.1 p.2 := by
  obtain ⟨bound, rfl⟩ : ∃ b, bound = b + 1 :=
    Nat.exists_eq_succ_of_ne_zero fun h => by simp [h] at hb
  have hcall : Takes (callOf argument e) (us ++ [close]) left
      (Expr.call callee line (arguments.map (·.2))).Same :=
    Takes.bind ha fun es hes => .expect (Token.is_mark.mpr hclose) <| Takes.pure <| by
      simp [Expr.Same, Expr.bare, hes, he]
  refine .accept (Token.is_mark.mpr ho) ?_
  intro errors n
  obtain ⟨e', n', he', hr⟩ := hcall.reaches (f := suffixes argument bound) errors n
  refine ⟨(bound, e'), n', ⟨?_, he'⟩, hr⟩
  simp at hb
  omega

theorem get_takes {argument : Reader Expr} {left : List Token} {dot name : Token} {method : Name}
    {object e : Expr} {bound : Nat} (hd : dot.sign = .mark .dot) (hn : name.sign = method.sign)
    (he : object.Same e) (hb : ([dot, name] ++ left).length ≤ bound) :
    Reaches (suffixes argument bound e) [dot, name] left
      (fun p : Nat × Expr => left.length ≤ p.1 ∧ (Expr.get object method).Same p.2)
      fun p => suffixes argument p.1 p.2 := by
  obtain ⟨bound, rfl⟩ : ∃ b, bound = b + 1 :=
    Nat.exists_eq_succ_of_ne_zero fun h => by simp [h] at hb
  refine .decline (forall_head (by simp [Token.is_mark, hd])) ?_
  refine .accept (Token.is_mark.mpr hd) <| .expect (Token.is_identifier_of_sign hn) ?_
  refine Reaches.refl (k := fun p : Nat × Expr => suffixes argument p.1 p.2)
    (b := (bound, .get e name.toName)) ⟨?_, ?_⟩
  · simp at hb
    omega
  · rw [Expr.Same, Expr.bare, Expr.bare, he, Token.bare_toName hn]

/-! #### Operators and assignments -/

/-- An operator of a level and its right operand are taken after the left operand. -/
theorem chainFrom_join {l : Level} {operand : Reader Expr} {t : Token} {us left : List Token}
    {combine : Expr → Expr → Expr} {e right : Expr} {joined : Expr} {bound : Nat}
    (hc : l.combine? t = some combine) (hr : Takes operand us left right.Same)
    (hj : ∀ right', right.Same right' → joined.Same (combine e right'))
    (hb : (t :: us ++ left).length ≤ bound) :
    Reaches (chainFrom l operand bound e) (t :: us) left
      (fun p : Nat × Expr => left.length ≤ p.1 ∧ joined.Same p.2)
      fun p => chainFrom l operand p.1 p.2 := by
  obtain ⟨bound, rfl⟩ : ∃ b, bound = b + 1 :=
    Nat.exists_eq_succ_of_ne_zero fun h => by simp [h] at hb
  refine .acceptBy? hc ?_
  intro errors n
  obtain ⟨right', n', hs, hrun⟩ :=
    hr.reaches (f := fun right => chainFrom l operand bound (combine e right)) errors n
  refine ⟨(bound, combine e right'), n', ⟨?_, hj right' hs⟩, hrun⟩
  simp at hb
  omega

/-- The loop of a level begins after an operand. -/
theorem chain_takes {l : Level} {operand : Reader Expr} {us left : List Token} {e : Expr}
    (h : Takes operand us left e.Same) :
    Reaches (chain l operand) us left (fun p : Nat × Expr => left.length ≤ p.1 ∧ e.Same p.2)
      fun p => chainFrom l operand p.1 p.2 := by
  intro errors n
  obtain ⟨e', n', he, hr⟩ :=
    h.reaches (f := fun e => bounded fun bound => chainFrom l operand bound e) errors n
  exact ⟨(left.length, e'), n', ⟨Nat.le_refl _, he⟩, hr⟩

/-- The loop of calls and properties begins after a primary expression. -/
theorem suffixes_takes {inner : Reader Expr} {us left : List Token} {e : Expr}
    (h : Takes (primary inner) us left e.Same) :
    Reaches (Reader.call inner) us left (fun p : Nat × Expr => left.length ≤ p.1 ∧ e.Same p.2)
      fun p => suffixes inner p.1 p.2 := by
  intro errors n
  obtain ⟨e', n', he, hr⟩ :=
    h.reaches (f := fun e => bounded fun bound => suffixes inner bound e) errors n
  exact ⟨(left.length, e'), n', ⟨Nat.le_refl _, he⟩, hr⟩

theorem Expr.Same.of_variable {id : Nat} {name : Name} {e : Expr}
    (h : (Expr.variable id name).Same e) :
    ∃ id' name', e = .variable id' name' ∧ name'.bare = name.bare := by
  cases e with
  | «variable» id' name' => exact ⟨id', name', rfl, by simpa [Expr.Same, Expr.bare] using h⟩
  | _ => simp [Expr.Same, Expr.bare] at h

theorem Expr.Same.of_get {object : Expr} {name : Name} {e : Expr}
    (h : (Expr.get object name).Same e) :
    ∃ object' name', e = .get object' name' ∧ object.Same object' ∧ name'.bare = name.bare := by
  cases e with
  | get object' name' => exact ⟨object', name', rfl, by simpa [Expr.Same, Expr.bare] using h⟩
  | _ => simp [Expr.Same, Expr.bare] at h

/-- A bound that leaves room for an expression is not zero at looser tiers than calls. -/
theorem exists_succ_of_le {n m bound : Nat} (h : n + (m + 1) ≤ bound) : ∃ b, bound = b + 1 :=
  ⟨bound - 1, by omega⟩

/-- Operands with an operator of a level between them are taken if both operands are. -/
theorem Tier.Answers.join {l : Level} {ts ts' : List Sign} {s : Sign} {left right joined : Expr}
    (hleft : (Tier.level l).Answers ts left) (hright : l.operand.Answers ts' right)
    (hs : s.joins? = some (.level l))
    (hjoin : ∀ t : Token, t.sign = s → ∃ combine, l.combine? t = some combine ∧
      ∀ left' right', left.Same left' → right.Same right' → joined.Same (combine left' right')) :
    (Tier.level l).Answers (ts ++ s :: ts') joined := by
  intro bound us after hu hb hstops
  obtain ⟨us, vs, rfl, hus, hv⟩ := List.map_eq_append_iff.mp hu
  obtain ⟨t, vs, rfl, ht, hvs⟩ := List.map_eq_cons_iff.mp hv
  simp only [List.length_append, List.length_cons] at hb
  obtain ⟨combine, hcombine, hsame⟩ := hjoin t ht
  have hoperand : Takes (l.operand.reader bound) vs after right.Same :=
    hright.takes hvs (by rw [l.depth_operand]; omega) hstops
  have hfirst := hleft bound us (t :: vs ++ after) hus (by omega)
    (.of_joins (by rw [ht, hs]) l.rank_operand_lt)
  exact hfirst.trans fun p hp =>
    chainFrom_join hcombine hoperand (fun right' => hsame p.2 right' hp.2) hp.1

/-- An assignment is taken if its target and its value are, and if the target can be assigned to. -/
theorem Tier.Answers.assign {ts ts' : List Sign} {target value e : Expr}
    (htarget : (Tier.level .or).Answers ts target) (hvalue : Tier.assignment.Answers ts' value)
    (hto : ∀ t target' value' left, target.Same target' → value.Same value' →
      Takes (assignTo target' t value') [] left e.Same) :
    Tier.assignment.Answers (ts ++ .mark .equal :: ts') e := by
  intro bound us left hu hb hs
  obtain ⟨bound, rfl⟩ := exists_succ_of_le hb
  obtain ⟨us, vs', rfl, hus, hv'⟩ := List.map_eq_append_iff.mp hu
  obtain ⟨t, vs, rfl, hequal, hvs⟩ := List.map_eq_cons_iff.mp hv'
  simp only [List.length_append, List.length_cons, Tier.depth] at hb
  have htaken : Takes ((Tier.level .or).reader bound) us (t :: vs ++ left) target.Same :=
    htarget.takes hus (by simp only [Tier.depth]; omega) (.of_joins (by rw [hequal]; rfl) (by decide))
  have hvalue : Takes (Tier.assignment.reader bound) vs left value.Same :=
    hvalue.takes hvs (by simp only [Tier.depth]; omega) hs
  exact Takes.bind htaken fun target' htarget' => .accept? (Token.is_mark.mpr hequal) <|
    Takes.bind_last hvalue fun value' hvalue' => hto t target' value' left htarget' hvalue'

/-- The reader of each tier takes what reads as an expression of the tier. -/
theorem Expr.Reads.answers {tier : Tier} {ts : List Sign} {e : Expr} (h : Expr.Reads tier ts e) :
    tier.Answers ts e := by
  induction h with
  | literal l =>
    rintro bound us left hu - -
    obtain ⟨t, rfl, ht⟩ := List.map_eq_singleton_iff.mp hu
    exact literal_takes ht
  | «variable» id name =>
    rintro bound us left hu - -
    obtain ⟨t, rfl, ht⟩ := List.map_eq_singleton_iff.mp hu
    exact variable_takes id ht
  | this id line =>
    rintro bound us left hu - -
    obtain ⟨t, rfl, ht⟩ := List.map_eq_singleton_iff.mp hu
    exact this_takes id line ht
  | super id line method =>
    rintro bound us left hu - -
    obtain ⟨t, us, rfl, ht, hu'⟩ := List.map_eq_cons_iff.mp hu
    obtain ⟨dot, us, rfl, hd, hu''⟩ := List.map_eq_cons_iff.mp hu'
    obtain ⟨name, rfl, hn⟩ := List.map_eq_singleton_iff.mp hu''
    exact super_takes id line ht hd hn
  | grouping he ih =>
    rintro bound us left hu hb -
    obtain ⟨us', vs, rfl, hu', hv⟩ := List.map_eq_append_iff.mp hu
    obtain ⟨t, us, rfl, ht, hus⟩ := List.map_eq_cons_iff.mp hu'
    obtain ⟨close, rfl, hc⟩ := List.map_eq_singleton_iff.mp hv
    refine grouping_takes ht hc (ih.takes hus ?_ (.of_none (by rw [hc]; rfl)))
    simp only [List.length_append, List.length_cons, Tier.depth] at hb ⊢
    omega
  | ofPrimary h ih =>
    intro bound us left hu hb
    exact suffixes_takes (ih.takes hu hb (Tier.stopsAt_primary left))
  | call line arguments hc ha hn ihc iha =>
    intro bound us left hu hb
    obtain ⟨us', close', rfl, hu', hclose'⟩ := List.map_eq_append_iff.mp hu
    obtain ⟨us, vs', rfl, hus, hv'⟩ := List.map_eq_append_iff.mp hu'
    obtain ⟨openP, vs, rfl, ho, hvs⟩ := List.map_eq_cons_iff.mp hv'
    obtain ⟨close, rfl, hclose⟩ := List.map_eq_singleton_iff.mp hclose'
    simp only [List.length_append, List.length_cons] at hb
    have harguments : Takes (Reader.arguments (Reader.assignment bound)) vs (close :: left)
        fun es => es.map Expr.bare = (arguments.map (·.2)).map Expr.bare :=
      arguments_takes ha (fun a ham ws left hw hl hs => (iha a ham).takes hw
        (by simp only [Tier.depth]; omega) hs) hvs hn hclose
    rw [List.append_assoc]
    exact (ihc bound us _ hus (by omega)).trans fun p hp =>
      call_takes ho hclose harguments hp.2 hp.1
  | get name ho ih =>
    intro bound us left hu hb
    obtain ⟨us, vs, rfl, hus, hv⟩ := List.map_eq_append_iff.mp hu
    obtain ⟨dot, vs', rfl, hd, hv'⟩ := List.map_eq_cons_iff.mp hv
    obtain ⟨method, rfl, hm⟩ := List.map_eq_singleton_iff.mp hv'
    simp only [List.length_append, List.length_cons] at hb
    exact (ih bound us _ hus (by omega)).trans fun p hp => get_takes hd hm hp.2 hp.1
  | @ofCall ts e h ih =>
    intro bound us left hu hb hs
    obtain ⟨bound, rfl⟩ := exists_succ_of_le hb
    have hcall : Takes (Tier.call.reader bound) us left e.Same :=
      ih.takes hu (by simp only [Tier.depth] at hb ⊢; omega) (hs.tighter (by decide))
    obtain ⟨s, ts, rfl, -, hopens⟩ := h.opens
    obtain ⟨t, us, rfl, ht, -⟩ := List.map_eq_cons_iff.mp hu
    refine .acceptBy?_none (forall_head ?_) hcall
    rw [Token.unaryOp?_eq_none (ht ▸ hopens (Nat.le_refl _))]
    rfl
  | @unary ts e op line he ih =>
    intro bound us left hu hb hs
    obtain ⟨bound, rfl⟩ := exists_succ_of_le hb
    obtain ⟨t, us, rfl, ht, hus⟩ := List.map_eq_cons_iff.mp hu
    have hoperand : Takes (Tier.unary.reader bound) us left e.Same :=
      ih.takes hus (by simp only [List.length_cons, Tier.depth] at hb ⊢; omega) hs
    refine .acceptBy? (c := .unary op t.line) (by rw [Token.unaryOp?_eq_some.mpr ht]; rfl) ?_
    exact Takes.bind_last hoperand fun e' he' => Takes.pure (by simp [Expr.Same, Expr.bare, he'])
  | ofOperand l h ih =>
    intro bound us left hu hb hs
    rw [Tier.reader_level]
    exact chain_takes (ih.takes hu (by rwa [l.depth_operand]) hs)
  | @binary _ _ _ _ l op line hl _ _ ih ih' =>
    refine ih.join ih' (by rw [op.joins?_sign, hl]) fun t ht => ?_
    exact ⟨_, Level.combine?_eq_some.mpr (.inl ⟨op, hl, ht, rfl⟩), fun _ _ hleft hright => by
      simp [Expr.Same, Expr.bare, hleft, hright]⟩
  | @logical _ _ _ _ l op line hl _ _ ih ih' =>
    refine ih.join ih' (by rw [op.joins?_sign, hl]) fun t ht => ?_
    exact ⟨_, Level.combine?_eq_some.mpr (.inr ⟨op, hl, ht, rfl⟩), fun _ _ hleft hright => by
      simp [Expr.Same, Expr.bare, hleft, hright]⟩
  | @ofEquality ts e h ih =>
    intro bound us left hu hb hs
    obtain ⟨bound, rfl⟩ := exists_succ_of_le hb
    have hcondition : Takes ((Tier.level .equality).reader bound) us left e.Same :=
      ih.takes hu (by simp only [Tier.depth] at hb ⊢; omega) (hs.tighter (by decide))
    refine Takes.bind_last hcondition fun e' he' => ?_
    exact .decline (hs.not_mark rfl (Nat.le_refl _)) (Takes.pure he')
  | @ternary ts us' vs' condition whenTrue whenFalse hc ht hf ihc iht ihf =>
    intro bound us left hu hb hs
    obtain ⟨bound, rfl⟩ := exists_succ_of_le hb
    obtain ⟨us₁', us₃', rfl, hu₁', hu₃'⟩ := List.map_eq_append_iff.mp hu
    obtain ⟨us₁, us₂', rfl, hu₁, hu₂'⟩ := List.map_eq_append_iff.mp hu₁'
    obtain ⟨question, us₂, rfl, hq, hu₂⟩ := List.map_eq_cons_iff.mp hu₂'
    obtain ⟨colon, us₃, rfl, hcolon, hu₃⟩ := List.map_eq_cons_iff.mp hu₃'
    simp only [List.length_append, List.length_cons, Tier.depth] at hb
    have hcondition : Takes ((Tier.level .equality).reader bound) us₁
        (question :: us₂ ++ colon :: us₃ ++ left) condition.Same :=
      ihc.takes hu₁ (by simp only [Tier.depth]; omega) (.of_joins (by rw [hq]; rfl) (by decide))
    have htrue : Takes ((Tier.level .equality).reader bound) us₂ (colon :: us₃ ++ left)
        whenTrue.Same :=
      iht.takes hu₂ (by simp only [Tier.depth]; omega) (.of_none (by rw [hcolon]; rfl))
    have hfalse : Takes (Tier.ternary.reader bound) us₃ left whenFalse.Same :=
      ihf.takes hu₃ (by simp only [Tier.depth]; omega) hs
    rw [List.append_assoc]
    refine Takes.bind hcondition fun c hc => .accept (Token.is_mark.mpr hq) <|
      Takes.bind htrue fun t ht => .expect (Token.is_mark.mpr hcolon) <|
      Takes.bind_last hfalse fun f hf => Takes.pure ?_
    simp [Expr.Same, Expr.bare, hc, ht, hf]
  | @ofOr ts e h ih =>
    intro bound us left hu hb hs
    obtain ⟨bound, rfl⟩ := exists_succ_of_le hb
    have htarget : Takes ((Tier.level .or).reader bound) us left e.Same :=
      ih.takes hu (by simp only [Tier.depth] at hb ⊢; omega) (hs.tighter (by decide))
    refine Takes.bind_last htarget fun e' he' => ?_
    exact .accept?_none (hs.not_mark rfl (Nat.le_refl _)) (Takes.pure he')
  | assign _ _ _ iht ihv =>
    refine iht.assign ihv fun _ target' value' left htarget hvalue => ?_
    obtain ⟨id', name', rfl, hname⟩ := htarget.of_variable
    exact .freshId fun id => Takes.pure (by simp [Expr.Same, Expr.bare, hname, hvalue])
  | set _ _ iht ihv =>
    refine iht.assign ihv fun _ target' value' left htarget hvalue => ?_
    obtain ⟨object', name', rfl, hobject, hname⟩ := htarget.of_get
    exact Takes.pure (by simp [Expr.Same, Expr.bare, hobject, hname, hvalue])

/-- Tokens that read as an expression are taken if nothing that follows goes on with it. -/
theorem Expr.Reads.takes {us left : List Token} {e : Expr}
    (h : Expr.Reads .assignment (us.map Token.sign) e) (hs : Tier.assignment.StopsAt left) :
    Takes expression us left e.Same :=
  have hr : Takes (Tier.assignment.reader (3 * (us ++ left).length + 3)) us left e.Same :=
    h.answers.takes rfl (by simp only [Tier.depth, List.length_append]; omega) hs
  Reaches.bounded hr

end Treewalk
