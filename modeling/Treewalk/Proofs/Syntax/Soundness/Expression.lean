import Treewalk.Proofs.Syntax.Reader
import Treewalk.Proofs.Syntax.Reading

/-!
# What is answered was read as an expression

A reader that notes no fault answers with a tree as which the tokens that it took read.

## Main definitions

* `Reader.Yields`: what a reader without faults answers.

## Main results

* `Reader.expression_yields`: the reader of expressions.
-/

namespace Treewalk

/-- A level has an operator for a mark exactly if the operator is of that level and the mark is its
spelling. -/
theorem Level.binaryOp?_eq_some {level : Level} {m : Mark} {op : BinaryOp} :
    level.binaryOp? m = some op ↔ op.level = level ∧ op.mark = m := by
  cases level <;> cases m <;> cases op <;> simp [binaryOp?, BinaryOp.level, BinaryOp.mark]

/-- A token joins operands of a level exactly if it is an operator of the level. -/
theorem Level.combine?_eq_some {level : Level} {t : Token} {combine : Expr → Expr → Expr} :
    level.combine? t = some combine ↔
      (∃ op : BinaryOp, op.level = level ∧ t.sign = op.sign ∧ combine = .binary op t.line) ∨
        ∃ op : LogicalOp, op.level = level ∧ t.sign = op.sign ∧ combine = .logical op t.line := by
  obtain ⟨kind, lexeme, line⟩ := t
  constructor
  · intro h
    unfold combine? at h
    split at h
    · next hk =>
      cases h
      exact .inr ⟨.or, rfl, by simp_all [Token.sign, LogicalOp.sign, LogicalOp.keyword], rfl⟩
    · next hk =>
      cases h
      exact .inr ⟨.and, rfl, by simp_all [Token.sign, LogicalOp.sign, LogicalOp.keyword], rfl⟩
    · next hk =>
      obtain ⟨op, hop, rfl⟩ := Option.map_eq_some_iff.mp h
      obtain ⟨hl, hm⟩ := binaryOp?_eq_some.mp hop
      exact .inl ⟨op, hl, by simp_all [Token.sign, BinaryOp.sign], rfl⟩
    · cases h
  · rintro (⟨op, rfl, hs, rfl⟩ | ⟨op, rfl, hs, rfl⟩)
    · have hk : kind = .mark op.mark := by
        cases kind <;> simp_all [Token.sign, BinaryOp.sign]
      subst hk
      cases op <;> rfl
    · have hk : kind = .keyword op.keyword := by
        cases kind <;> simp_all [Token.sign, LogicalOp.sign]
      subst hk
      cases op <;> rfl

namespace Reader

variable {α : Type}

/-- A reader that notes no fault answers with what the tokens that it took read as. -/
abbrev Yields (r : Reader α) (Reads : List Sign → α → Prop) : Prop :=
  Ensures r fun taken _ noted _ _ a => noted = [] → Reads (taken.map Token.sign) a

/-! ### Expressions -/

theorem reads_combine {level : Level} {t : Token} {combine : Expr → Expr → Expr}
    (h : level.combine? t = some combine) {ts us : List Sign} {left right : Expr}
    (hl : Expr.Reads (.level level) ts left) (hr : Expr.Reads level.operand us right) :
    Expr.Reads (.level level) (ts ++ t.sign :: us) (combine left right) := by
  rcases Level.combine?_eq_some.mp h with ⟨op, hop, hs, rfl⟩ | ⟨op, hop, hs, rfl⟩
  · rw [hs]
    exact .binary op t.line hop hl hr
  · rw [hs]
    exact .logical op t.line hop hl hr

theorem chainFrom_yields {level : Level} {operand : Reader Expr}
    (h : operand.Yields (Expr.Reads level.operand)) (bound : Nat) (left : Expr) :
    Ensures (chainFrom level operand bound left) fun taken _ noted _ _ e => noted = [] →
      ∀ ts, Expr.Reads (.level level) ts left →
        Expr.Reads (.level level) (ts ++ taken.map Token.sign) e := by
  induction bound generalizing left with
  | zero =>
    refine (Ensures.pure left).mono ?_
    rintro _ _ _ _ _ _ ⟨rfl, -, -, rfl⟩ - ts hleft
    simpa using hleft
  | succ bound ih =>
    refine (Ensures.acceptBy? (fun combine => h.bind fun right => ih (combine left right))
      (Ensures.pure left)).mono ?_
    rintro _ _ _ _ _ _ (⟨t, combine, _, rfl, hcombine, right, us, vs, _, _, _, rfl, rfl, hright,
      hrest⟩ | ⟨-, rfl, -, -, rfl⟩) hn ts hleft
    · obtain ⟨hn, hm⟩ := List.append_eq_nil_iff.mp hn
      simpa using hrest hm _ (reads_combine hcombine hleft (hright hn))
    · simpa using hleft

theorem chain_yields (level : Level) {operand : Reader Expr}
    (h : operand.Yields (Expr.Reads level.operand)) :
    (chain level operand).Yields (Expr.Reads (.level level)) := by
  refine (h.bind fun left => Ensures.bounded fun bound => chainFrom_yields h bound left).mono ?_
  rintro _ _ _ _ _ _ ⟨left, us, vs, _, _, _, rfl, rfl, hleft, hrest⟩ hn
  obtain ⟨hn, hm⟩ := List.append_eq_nil_iff.mp hn
  simpa using hrest hm _ (.ofOperand level (hleft hn))

theorem equality_yields {operand : Reader Expr} (h : operand.Yields (Expr.Reads .unary)) :
    (equality operand).Yields (Expr.Reads (.level .equality)) :=
  chain_yields _ (chain_yields _ (chain_yields _ (chain_yields _ h)))

/-- Expressions read with commas between them; `count` of them stand before. -/
def ReadsArguments (count : Nat) (ts : List Sign) (es : List Expr) : Prop :=
  ∃ arguments : List (List Sign × Expr), es = arguments.map (·.2) ∧
    ts = separated (arguments.map (·.1)) ∧ (∀ a ∈ arguments, Expr.Reads .assignment a.1 a.2) ∧
      (arguments ≠ [] → count + arguments.length ≤ maxArguments)

theorem ReadsArguments.nil (count : Nat) : ReadsArguments count [] [] :=
  ⟨[], rfl, rfl, by simp, by simp⟩

theorem ReadsArguments.single {count : Nat} {ts : List Sign} {e : Expr}
    (h : Expr.Reads .assignment ts e) (hc : count < maxArguments) :
    ReadsArguments count ts [e] :=
  ⟨[(ts, e)], rfl, by simp, by simpa using h, fun _ => hc⟩

theorem ReadsArguments.cons {count : Nat} {ts us : List Sign} {e : Expr} {es : List Expr}
    (h : Expr.Reads .assignment ts e) (hes : ReadsArguments (count + 1) us es) (hne : es ≠ []) :
    ReadsArguments count (ts ++ .mark .comma :: us) (e :: es) := by
  obtain ⟨arguments, rfl, rfl, ha, hc⟩ := hes
  obtain ⟨a, as, rfl⟩ : ∃ a as, arguments = a :: as :=
    List.exists_cons_of_ne_nil fun h => hne (by rw [h]; rfl)
  refine ⟨(ts, e) :: a :: as, rfl, ?_, List.forall_mem_cons.mpr ⟨h, ha⟩, fun _ => ?_⟩
  · simp [separated, List.intercalate_cons_cons]
  · have := hc (List.cons_ne_nil a as)
    simp only [List.length_cons] at this ⊢
    omega

theorem argumentsFrom_yields {argument : Reader Expr}
    (h : argument.Yields (Expr.Reads .assignment)) (bound count : Nat) :
    (argumentsFrom argument bound count).Yields fun ts es => es ≠ [] ∧
      ReadsArguments count ts es := by
  induction bound generalizing count with
  | zero => exact Ensures.fail _
  | succ bound ih =>
    refine ((Ensures.noteBeyond count _).bind fun _ => h.bind fun first =>
      Ensures.accept ((ih (count + 1)).bind fun others => Ensures.pure (first :: others))
        (Ensures.pure [first])).mono ?_
    rintro _ _ _ _ _ _ ⟨-, _, _, _, _, _, rfl, rfl, ⟨rfl, hcount, -⟩, first, us, vs, _, _, _, rfl,
      rfl, hfirst, ⟨t, _, rfl, ht, others, _, _, _, _, _, rfl, rfl, hothers, rfl, rfl, -, rfl⟩ |
        ⟨-, rfl, rfl, -, rfl⟩⟩ hn
    all_goals
      simp only [List.append_eq_nil_iff] at hn
      obtain ⟨hnote, hn, hm⟩ := hn
      have hlt := hcount.mp hnote
    · obtain ⟨hne, hothers⟩ := hothers hm.1
      refine ⟨List.cons_ne_nil _ _, ?_⟩
      simpa [Token.is_mark.mp ht] using ReadsArguments.cons (hfirst hn) hothers hne
    · refine ⟨List.cons_ne_nil _ _, ?_⟩
      simpa using ReadsArguments.single (hfirst hn) hlt

theorem arguments_yields {argument : Reader Expr} (h : argument.Yields (Expr.Reads .assignment)) :
    (arguments argument).Yields (ReadsArguments 0) := by
  refine (Ensures.check (Q := fun _ taken _ noted _ _ es => noted = [] →
    ReadsArguments 0 (taken.map Token.sign) es) fun b => ?_).mono fun _ _ _ _ _ _ hq => hq
  cases b with
  | true =>
    refine (Ensures.pure []).mono ?_
    rintro _ _ _ _ _ _ ⟨rfl, -, -, rfl⟩ -
    exact .nil 0
  | false =>
    exact Ensures.bounded fun bound => (argumentsFrom_yields h (bound + 1) 0).mono
      fun _ _ _ _ _ _ hq hn => (hq hn).2

theorem callOf_yields {argument : Reader Expr} (h : argument.Yields (Expr.Reads .assignment))
    (callee : Expr) :
    Ensures (callOf argument callee) fun taken _ noted _ _ e => noted = [] →
      ∀ ts, Expr.Reads .call ts callee →
        Expr.Reads .call (ts ++ .mark .leftParen :: taken.map Token.sign) e := by
  refine ((arguments_yields h).bind fun es => Ensures.expect fun t =>
    Ensures.pure (Expr.call callee t.line es)).mono ?_
  rintro _ _ _ _ _ _ ⟨es, us, _, _, _, _, rfl, rfl, hes, t, _, rfl, ht, rfl, rfl, -, rfl⟩ hn ts
    hcallee
  obtain ⟨arguments, rfl, hus, ha, hc⟩ := hes (by simpa using hn)
  have hlen : arguments.length ≤ maxArguments := by
    by_cases hnil : arguments = []
    · simp [hnil]
    · simpa using hc hnil
  simpa [hus, Token.is_mark.mp ht] using hcallee.call t.line arguments ha hlen

theorem suffixes_yields {argument : Reader Expr} (h : argument.Yields (Expr.Reads .assignment))
    (bound : Nat) (e : Expr) :
    Ensures (suffixes argument bound e) fun taken _ noted _ _ e' => noted = [] →
      ∀ ts, Expr.Reads .call ts e → Expr.Reads .call (ts ++ taken.map Token.sign) e' := by
  induction bound generalizing e with
  | zero =>
    refine (Ensures.pure e).mono ?_
    rintro _ _ _ _ _ _ ⟨rfl, -, -, rfl⟩ - ts he
    simpa using he
  | succ bound ih =>
    refine (Ensures.accept ((callOf_yields h e).bind fun e' => ih e') (Ensures.accept
      (Ensures.expect fun name => ih (.get e name.toName)) (Ensures.pure e))).mono ?_
    rintro _ _ _ _ _ _ (⟨t, _, rfl, ht, e', us, vs, _, _, _, rfl, rfl, hcall, hrest⟩ |
      ⟨-, ⟨t, _, rfl, ht, name, _, rfl, hname, hrest⟩ | ⟨-, rfl, -, -, rfl⟩⟩) hn ts he
    · obtain ⟨hn, hm⟩ := List.append_eq_nil_iff.mp hn
      simpa [Token.is_mark.mp ht] using hrest hm _ (hcall hn ts he)
    · simpa [Token.is_mark.mp ht, Token.is_identifier.mp hname] using
        hrest hn _ (he.get name.toName)
    · simpa using he

theorem groupingOf_yields {inner : Reader Expr} (h : inner.Yields (Expr.Reads .assignment)) :
    (groupingOf inner).Yields fun ts e => Expr.Reads .primary (.mark .leftParen :: ts) e := by
  refine (h.bind fun e => Ensures.expect fun _ => Ensures.pure (Expr.grouping e)).mono ?_
  rintro _ _ _ _ _ _ ⟨e, us, _, _, _, _, rfl, rfl, he, t, _, rfl, ht, rfl, rfl, -, rfl⟩ hn
  simpa [Token.is_mark.mp ht] using (he (by simpa using hn)).grouping

theorem superOf_yields (line : Nat) :
    (superOf line).Yields fun ts e => Expr.Reads .primary (.keyword .superWord :: ts) e := by
  refine (Ensures.expect fun _ => Ensures.expect fun name => Ensures.freshId fun id =>
    Ensures.pure (Expr.super id line name.toName)).mono ?_
  rintro _ _ _ first _ _ ⟨t, _, rfl, ht, name, _, rfl, hname, rfl, rfl, -, rfl⟩ -
  simpa [Token.is_mark.mp ht, Token.is_identifier.mp hname] using
    Expr.Reads.super first line name.toName

theorem primary_yields {inner : Reader Expr} (h : inner.Yields (Expr.Reads .assignment)) :
    (primary inner).Yields (Expr.Reads .primary) := by
  refine (Ensures.acceptBy? (fun l => Ensures.pure (Expr.literal l)) <|
    Ensures.accept? (fun name => Ensures.freshId fun id =>
      Ensures.pure (Expr.variable id name.toName)) <|
    Ensures.accept? (fun t => Ensures.freshId fun id => Ensures.pure (Expr.this id t.line)) <|
    Ensures.accept? (fun t => superOf_yields t.line) <|
    Ensures.accept (groupingOf_yields h) (Ensures.fail (Q := fun _ _ _ _ _ _ => False) _)).mono ?_
  rintro _ _ _ first _ _ (⟨t, l, _, rfl, hl, rfl, -, -, rfl⟩ | ⟨-, ⟨name, _, rfl, hname, rfl, -, -,
    rfl⟩ | ⟨-, ⟨t, _, rfl, ht, rfl, -, -, rfl⟩ | ⟨-, ⟨t, _, rfl, ht, he⟩ | ⟨-, ⟨t, _, rfl, ht, he⟩ |
      ⟨-, ⟨⟩⟩⟩⟩⟩⟩) hn
  · simpa [Token.literal?_eq_some.mp hl] using Expr.Reads.literal l
  · simpa [Token.is_identifier.mp hname] using Expr.Reads.variable first name.toName
  · simpa [Token.is_keyword.mp ht] using Expr.Reads.this first t.line
  · simpa [Token.is_keyword.mp ht] using he hn
  · simpa [Token.is_mark.mp ht] using he hn

theorem call_yields {inner : Reader Expr} (h : inner.Yields (Expr.Reads .assignment)) :
    (call inner).Yields (Expr.Reads .call) := by
  refine ((primary_yields h).bind fun e => Ensures.bounded fun bound =>
    suffixes_yields h bound e).mono ?_
  rintro _ _ _ _ _ _ ⟨e, _, _, _, _, _, rfl, rfl, he, hrest⟩ hn
  obtain ⟨hn, hm⟩ := List.append_eq_nil_iff.mp hn
  simpa using hrest hm _ (he hn).ofPrimary

theorem assignTo_yields (target : Expr) (equals : Token) (value : Expr) :
    Ensures (assignTo target equals value) fun taken _ noted _ _ e => noted = [] → taken = [] ∧
      ∀ ts us, Expr.Reads (.level .or) ts target → Expr.Reads .assignment us value →
        Expr.Reads .assignment (ts ++ .mark .equal :: us) e := by
  unfold assignTo
  split
  · next target name =>
    refine (Ensures.freshId fun id => Ensures.pure (Expr.assign id name value)).mono ?_
    rintro _ _ _ first _ _ ⟨rfl, -, -, rfl⟩ -
    exact ⟨rfl, fun _ _ ht hv => .assign first ht hv⟩
  · next object name =>
    refine (Ensures.pure (Expr.set object name value)).mono ?_
    rintro _ _ _ _ _ _ ⟨rfl, -, -, rfl⟩ -
    exact ⟨rfl, fun _ _ ht hv => .set ht hv⟩
  · refine ((Ensures.note _).bind fun _ => Ensures.pure target).mono ?_
    rintro _ _ _ _ _ _ ⟨_, _, _, _, _, _, -, rfl, ⟨-, rfl, -⟩, -, rfl, -, -⟩ hn
    exact absurd hn (by simp)

theorem levels_yield (bound : Nat) : (assignment bound).Yields (Expr.Reads .assignment) ∧
    (ternary bound).Yields (Expr.Reads .ternary) ∧ (unary bound).Yields (Expr.Reads .unary) := by
  induction bound with
  | zero => exact ⟨Ensures.fail _, Ensures.fail _, Ensures.fail _⟩
  | succ bound ih =>
    obtain ⟨iha, iht, ihu⟩ := ih
    refine ⟨?_, ?_, ?_⟩
    · refine ((chain_yields .or (chain_yields .and iht)).bind fun target =>
        Ensures.accept? (fun equals => iha.bind fun value => assignTo_yields target equals value)
          (Ensures.pure target)).mono ?_
      rintro _ _ _ _ _ _ ⟨target, _, _, _, _, _, rfl, rfl, htarget,
        ⟨t, _, rfl, ht, value, _, _, _, _, _, rfl, rfl, hv, hto⟩ | ⟨-, rfl, rfl, -, rfl⟩⟩ hn
      · simp only [List.append_eq_nil_iff] at hn
        obtain ⟨hn, hm, hk⟩ := hn
        obtain ⟨rfl, he⟩ := hto hk
        simpa [Token.is_mark.mp ht] using he _ _ (htarget hn) (hv hm)
      · simpa using (htarget (by simpa using hn)).ofOr
    · refine ((equality_yields ihu).bind fun condition => Ensures.accept
        ((equality_yields ihu).bind fun whenTrue => Ensures.expect fun _ =>
          iht.bind fun whenFalse => Ensures.pure (Expr.ternary condition whenTrue whenFalse))
        (Ensures.pure condition)).mono ?_
      rintro _ _ _ _ _ _ ⟨condition, _, _, _, _, _, rfl, rfl, hc, ⟨t, _, rfl, ht, whenTrue, _, _, _,
        _, _, rfl, rfl, htrue, u, _, rfl, hu, whenFalse, _, _, _, _, _, rfl, rfl, hf, rfl, rfl, -,
        rfl⟩ | ⟨-, rfl, rfl, -, rfl⟩⟩ hn
      · simp only [List.append_eq_nil_iff] at hn
        obtain ⟨hn, hm, hk, -⟩ := hn
        simpa [Token.is_mark.mp ht, Token.is_mark.mp hu] using (hc hn).ternary (htrue hm) (hf hk)
      · simpa using (hc (by simpa using hn)).ofEquality
    · refine (Ensures.acceptBy? (fun apply => ihu.bind fun e => Ensures.pure (apply e))
        (call_yields iha)).mono ?_
      rintro _ _ _ _ _ _ (⟨t, apply, _, rfl, happly, e, _, _, _, _, _, rfl, rfl, he, rfl, rfl, -,
        rfl⟩ | ⟨-, he⟩) hn
      · obtain ⟨op, hop, rfl⟩ := Option.map_eq_some_iff.mp happly
        simpa [Token.unaryOp?_eq_some.mp hop] using (he (by simpa using hn)).unary op t.line
      · exact (he hn).ofCall

theorem expression_yields : expression.Yields (Expr.Reads .assignment) :=
  Ensures.bounded fun tokens => (levels_yield (3 * tokens + 3)).1

end Reader

end Treewalk
