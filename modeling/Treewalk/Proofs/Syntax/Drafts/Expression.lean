import Treewalk.Proofs.Syntax.Drafts.Agreement
import Treewalk.Proofs.Syntax.Soundness.Expression

/-!
# Expressions as drafts

The drafters of expressions mirror the readers of expressions, level by level.

A list of arguments or parameters begins right after a token, and so does each of its members. What is
noted at the place of a member before the member is read is then all that is ever noted there about
lists that are too long: what is read in the member comes after its first token, and the rest of the
list after the next comma.

## Main results

* `mirrorsAt_members`: arguments and parameters.
* `mirrors_expression`: expressions.
-/

namespace Treewalk

/-! ### Arguments and parameters -/

namespace Reader

variable {β : Type}

/-- Reads arguments or parameters up to the closing parenthesis; `count` of them stand before. -/
def membersFrom (tooMany missing : SyntaxFault) (member : Reader β) :
    (bound : Nat) → (count : Nat) → Reader (List β)
  | 0, _ => fail missing
  | bound + 1, count => do
    noteBeyond count tooMany
    let first ← member
    if ← accept (.mark .comma) then
      return first :: (← membersFrom tooMany missing member bound (count + 1))
    else return [first]

/-- Reads arguments or parameters after the opening parenthesis. -/
def members (tooMany missing : SyntaxFault) (member : Reader β) : Reader (List β) := do
  if ← check (.mark .rightParen) then return []
  else bounded fun bound => membersFrom tooMany missing member (bound + 1) 0

/-- Reads the name of a parameter. -/
def parameter : Reader Name := do
  return (← expect .identifier .parameterName).toName

theorem argumentsFrom_eq_members (argument : Reader Expr) (bound count : Nat) :
    argumentsFrom argument bound count =
      membersFrom .tooManyArguments .expression argument bound count := by
  induction bound generalizing count with
  | zero => rfl
  | succ bound ih => simp only [argumentsFrom, membersFrom, ih]

theorem arguments_eq_members (argument : Reader Expr) :
    arguments argument = members .tooManyArguments .expression argument := by
  simp only [arguments, members, argumentsFrom_eq_members]

theorem parametersFrom_eq_members (bound count : Nat) : parametersFrom bound count =
    membersFrom .tooManyParameters .parameterName parameter bound count := by
  induction bound generalizing count with
  | zero => rfl
  | succ bound ih => simp only [parametersFrom, membersFrom, parameter, bind_assoc, pure_bind, ih]

theorem parameters_eq_members :
    parameters = members .tooManyParameters .parameterName parameter := by
  simp only [parameters, members, parametersFrom_eq_members]

end Reader

variable {tokens : List Token} {listings : List Listing}

section Members

variable {α β : Type} {Q : α → β → List Listing → Prop} {fault missing : SyntaxFault}
  {count bound : Nat} {member : Drafter α} {y : Reader β} {s s' : Trail}

/-- What is known of members of a list, as soon as they have been read. -/
structure Members (Q : α → β → List Listing → Prop) (bound : Nat) (fault : SyntaxFault) (count : Nat)
    (ms : List (Nat × α)) (bs : List β) (s : Trail) : Prop where
  answers : List.Forall₂ (fun m b => Q m.2 b s.listings) ms bs
  marks : s.Marks bound fault count (ms.map Prod.fst)

/-- The members of a list, each of which is read right after a token. -/
theorem mirrorsAt_membersFrom (hmember : ∀ ls, Mirrors tokens ls Q member y)
    (hmono : ∀ a b ls ls', ls ⊆ ls' → Q a b ls → Q a b ls') (hfault : fault.isTooMany)
    (hmissing : missing.isTooMany = false) (fuel : Nat) (hs : s.Sound tokens bound)
    (hplace : s.place < bound) :
    MirrorsAt tokens bound (Members Q bound fault count)
      (Drafter.membersFrom fault missing member fuel count)
      (Reader.membersFrom fault missing y fuel count) s := by
  induction fuel generalizing count bound s with
  | zero =>
    exact .failure (Drafter.lift_apply_of_error rfl) rfl (hs.mono hplace.le) (.refl s) hmissing
  | succ fuel ih =>
    refine (MirrorsAt.noteBeyond hs hplace hfault count).bind
      fun _ _ s₁ hs₁ _ ⟨hplace₁, hlistings, hnoted⟩ => ?_
    rw [← hplace₁] at hplace hnoted
    have hfresh : ∀ l ∈ s₁.listings, s₁.place ∉ l.starts := fun l hl hmem =>
      Nat.lt_irrefl _ (hplace.trans_le (hs.behind l (hlistings ▸ hl) _ hmem))
    refine .place (MirrorsAt.mono ?_ hplace.le)
    refine (hmember _ s₁ hs₁ (List.Subset.refl _)).bind fun a b s₂ hs₂ hleads₂ hq => ?_
    refine .accept (fun t rest hrest => ?_) ?_
    · refine ((ih (hs₂.taken hrest) (Trail.place_onward_lt hrest)).mono hleads₂.place_le).bind
        fun ms bs s₄ hs₄ hleads₄ hms => ?_
      have hleads : s₂.Leads s₁.place s₄ := (Trail.Leads.taken hrest).trans hleads₄
      refine .answer rfl rfl hs₄ (.refl s₄) ⟨.cons ?_ hms.answers, ?_⟩
      · exact hmono _ _ _ _ hleads.listings hq
      · exact .cons hfresh hplace hnoted (hleads₂.trans hleads) hms.marks hleads₂.place_le
    · refine .answer rfl rfl hs₂ (.refl s₂) ⟨.cons hq .nil, ?_⟩
      exact .cons hfresh hplace hnoted hleads₂ .nil (Nat.le_refl _)

/-- Arguments or parameters follow an opening parenthesis. -/
theorem mirrorsAt_members (hmember : ∀ ls, Mirrors tokens ls Q member y)
    (hmono : ∀ a b ls ls', ls ⊆ ls' → Q a b ls → Q a b ls') (hfault : fault.isTooMany)
    (hmissing : missing.isTooMany = false) (hs : s.Sound tokens bound) (hplace : s.place < bound) :
    MirrorsAt tokens bound (Members Q bound fault 0) (Drafter.members fault missing member)
      (Reader.members fault missing y) s := by
  refine .look rfl rfl ?_
  split
  · exact .answer rfl rfl (hs.mono hplace.le) (.refl s) ⟨.nil, .nil⟩
  · refine (mirrorsAt_membersFrom hmember hmono hfault hmissing (s.place + 1) hs hplace).of_eq
      ?_ ?_ (.refl s) <;> rfl

end Members

/-! ### Operators -/

/-- A level takes the tokens that join operands of the level. -/
theorem Level.kinds_eq_none_iff (level : Level) (t : Token) :
    (if level.kinds.any t.is then some t else none) = none ↔ level.combine? t = none := by
  obtain ⟨kind, lexeme, line⟩ := t
  cases kind with
  | mark m =>
    cases level <;> cases m <;>
      simp [kinds, Token.is, TokenKind.sameCategory, combine?, binaryOp?]
  | keyword k =>
    cases level <;> cases k <;> simp [kinds, Token.is, TokenKind.sameCategory, combine?]
  | _ => cases level <;> simp [kinds, Token.is, TokenKind.sameCategory, combine?]

/-- Only an exclamation mark and a minus sign are operators before operands. -/
theorem Token.prefix_eq_none_iff (t : Token) :
    (if [.mark .bang, .mark .minus].any t.is then some t else none) = none ↔
      (t.unaryOp?.map fun op => Expr.unary op t.line) = none := by
  obtain ⟨kind, lexeme, line⟩ := t
  cases kind with
  | mark m => cases m <;> simp [is, TokenKind.sameCategory, unaryOp?]
  | _ => simp [is, TokenKind.sameCategory, unaryOp?]

theorem BinaryOp.join_level (op : BinaryOp) (l r : ExprDraft) (t : Token) :
    op.level.join l t r = .binary l t r := by
  cases op <;> rfl

theorem LogicalOp.join_level (op : LogicalOp) (l r : ExprDraft) (t : Token) :
    op.level.join l t r = .logical l t r := by
  cases op <;> rfl

/-- The operation of a level draws what its operator joins the operands to. -/
theorem Level.draws_join {level : Level} {t : Token} {combine : Expr → Expr → Expr} {l r : ExprDraft}
    {le re : Expr} (hcombine : level.combine? t = some combine) (hl : Draws tokens l le listings)
    (hr : Draws tokens r re listings) : Draws tokens (level.join l t r) (combine le re) listings := by
  rcases combine?_eq_some.mp hcombine with ⟨op, rfl, hsign, rfl⟩ | ⟨op, rfl, hsign, rfl⟩
  · rw [op.join_level]
    exact .binary (Token.binaryOp?_eq_some.mpr (Token.is_mark.mpr hsign)) hl hr
  · rw [op.join_level]
    exact .logical (Token.logicalOp?_eq_some.mpr (Token.is_keyword.mpr hsign)) hl hr

/-! ### Expressions -/

section Expressions

variable {x : Drafter ExprDraft} {y : Reader Expr} {a l : ExprDraft} {e le : Expr}

theorem mirrors_chainFrom (hx : ∀ ls, Mirrors tokens ls (Draws tokens) x y) (level : Level)
    (bound : Nat) (hl : Draws tokens l le listings) :
    Mirrors tokens listings (Draws tokens) (Drafter.chainFrom level x bound l)
      (Reader.chainFrom level y bound le) := by
  induction bound generalizing l le listings with
  | zero => exact .pure fun _ => hl.mono
  | succ bound ih =>
    refine .acceptBy? level.kinds_eq_none_iff (fun t i combine hv hcombine _ => ?_)
      (.pure fun _ => hl.mono)
    obtain rfl : t = i := (Option.ite_none_right_eq_some.mp hv).2 |> Option.some.inj
    exact (hx listings).bind fun r re ls hsub hr => ih (Level.draws_join hcombine (hl.mono hsub) hr)

theorem mirrors_chain (hx : ∀ ls, Mirrors tokens ls (Draws tokens) x y) (level : Level) :
    ∀ ls, Mirrors tokens ls (Draws tokens) (Drafter.chain level x) (Reader.chain level y) :=
  fun ls => (hx ls).bind fun _ _ _ _ hl => .bounded fun bound => mirrors_chainFrom hx level bound hl

theorem mirrors_equality (hx : ∀ ls, Mirrors tokens ls (Draws tokens) x y) :
    ∀ ls, Mirrors tokens ls (Draws tokens) (Drafter.equality x) (Reader.equality y) :=
  mirrors_chain (mirrors_chain (mirrors_chain (mirrors_chain hx _) _) _) _

theorem Draws.of_members {ms : List (Nat × ExprDraft)} {es : List Expr}
    (h : List.Forall₂ (fun m e => Draws tokens m.2 e listings) ms es) :
    Draws tokens (ms.map Prod.snd) es listings := by
  induction h with
  | nil => exact .nil
  | cons hm _ ih => exact .cons hm ih

/-- A call that has been read is listed. -/
theorem mirrorsAt_callOf {s : Trail} {bound : Nat} (hx : ∀ ls, Mirrors tokens ls (Draws tokens) x y)
    (hs : s.Sound tokens bound) (hplace : s.place < bound) (h : Draws tokens a e s.listings) :
    MirrorsAt tokens bound (fun a e s' => Draws tokens a e s'.listings) (Drafter.callOf x a)
      (Reader.callOf y e) s := by
  rw [Reader.callOf, Reader.arguments_eq_members]
  refine (mirrorsAt_members hx (fun _ _ _ _ hsub h => h.mono hsub) rfl rfl hs hplace).bind
    fun ms es s₁ hs₁ hleads₁ hms => ?_
  refine .expect_on hs₁ rfl fun closing s₂ hs₂ hleads₂ => ?_
  refine .list hs₂ (hms.marks.leads hleads₂) (by simp [DraftNode.list?])
    fun s₃ hs₃ hsub hlisted => .answer rfl rfl hs₃ (.refl s₃) (Draws.call closing ?_ ?_ hlisted)
  · exact h.mono (List.Subset.trans hleads₁.listings (List.Subset.trans hleads₂.listings hsub))
  · exact (Draws.of_members hms.answers).mono (List.Subset.trans hleads₂.listings hsub)

theorem mirrors_suffixes (hx : ∀ ls, Mirrors tokens ls (Draws tokens) x y) (bound : Nat)
    (h : Draws tokens a e listings) :
    Mirrors tokens listings (Draws tokens) (Drafter.suffixes x bound a)
      (Reader.suffixes y bound e) := by
  induction bound generalizing a e listings with
  | zero => exact .pure fun _ => h.mono
  | succ bound ih =>
    intro s hs hsub
    refine .accept (fun t rest hrest => ?_) ?_
    · refine (mirrorsAt_callOf hx (hs.taken hrest) (Trail.place_onward_lt hrest) (h.mono hsub)).bind
        fun a' e' s₂ hs₂ hleads h' => ?_
      exact (ih h').from_trail hs₂ (List.Subset.refl _)
        (hleads.place_le.trans (Trail.place_onward_lt hrest).le)
    · refine Mirrors.from_trail (Q := Draws tokens) ?_ hs hsub (Nat.le_refl _)
      exact .accept (.expect rfl fun name hname hmem => ih (.get ⟨hname, hmem⟩ h))
        (.pure fun _ => h.mono)

theorem mirrors_groupingOf (hx : ∀ ls, Mirrors tokens ls (Draws tokens) x y) :
    Mirrors tokens listings (Draws tokens) (Drafter.groupingOf x) (Reader.groupingOf y) :=
  (hx listings).bind fun _ _ _ _ h => .expect rfl fun _ _ _ => .pure fun _ => h.grouping.mono

theorem mirrors_superOf (keyword : Token) :
    Mirrors tokens listings (Draws tokens) (Drafter.superOf keyword) (Reader.superOf keyword.line) :=
  .expect rfl fun _ _ _ => .expect rfl fun _ hname hmem => .freshId fun id =>
    .pure fun _ _ => .super id keyword ⟨hname, hmem⟩

theorem mirrors_primary (hx : ∀ ls, Mirrors tokens ls (Draws tokens) x y) :
    Mirrors tokens listings (Draws tokens) (Drafter.primary x) (Reader.primary y) := by
  refine .acceptBy? (fun _ => Iff.rfl) (fun t l l' hl hl' _ => ?_) ?_
  · obtain rfl := Option.some.inj (hl.symm.trans hl')
    exact .pure fun _ _ => .literal l
  refine .accept? (fun name hname hmem => .freshId fun id =>
    .pure fun _ _ => .ofVariable id ⟨hname, hmem⟩) ?_
  refine .accept? (fun keyword _ _ => .freshId fun id => .pure fun _ _ => .this id keyword) ?_
  refine .accept? (fun keyword _ _ => mirrors_superOf keyword) ?_
  exact .accept (mirrors_groupingOf hx) (.fail rfl)

theorem mirrors_call (hx : ∀ ls, Mirrors tokens ls (Draws tokens) x y) :
    Mirrors tokens listings (Draws tokens) (Drafter.call x) (Reader.call y) :=
  (mirrors_primary hx).bind fun _ _ _ _ h => .bounded fun bound => mirrors_suffixes hx bound h

/-- Only variables and properties can be assigned to. -/
theorem Drafter.assignTo_eq_note {value : ExprDraft} {equals : Token}
    (h : Draws tokens a e listings) (hvariable : ∀ id name, e ≠ .variable id name)
    (hget : ∀ object name, e ≠ .get object name) :
    Drafter.assignTo a equals value = (do
      Reader.note ⟨equals, .invalidTarget⟩
      return a) := by
  have hmeaning := h.expr?_eq
  cases a with
  | «variable» id name => exact absurd (Option.some.inj hmeaning).symm (hvariable id name.toName)
  | get object name =>
    obtain ⟨e', -, he'⟩ : ∃ e', object.expr? = some e' ∧ Expr.get e' name.toName = e := by
      simpa [Option.bind_eq_some_iff] using hmeaning
    exact absurd he'.symm (hget e' name.toName)
  | _ => rfl

theorem mirrors_assignTo {value : ExprDraft} {v : Expr} (h : Draws tokens a e listings)
    (hvalue : Draws tokens value v listings) (equals : Token) :
    Mirrors tokens listings (Draws tokens) (Drafter.assignTo a equals value)
      (Reader.assignTo e equals v) := by
  cases e with
  | «variable» id n =>
    obtain ⟨name, rfl, rfl, hname⟩ := h.eq_variable
    exact .freshId fun id => .pure fun _ => (Draws.assign id hname hvalue).mono
  | get object n =>
    obtain ⟨object, name, rfl, rfl, hobject, hname⟩ := h.eq_get
    exact .pure fun _ => (Draws.set hname hobject hvalue).mono
  | _ =>
    rw [Drafter.assignTo_eq_note h (by simp) (by simp)]
    exact .note rfl (.pure fun _ => h.mono)

end Expressions

/-! ### Levels -/

/-- The levels of expressions call each other, with the same bounds. -/
theorem mirrors_levels (tokens : List Token) (bound : Nat) :
    (∀ ls, Mirrors tokens ls (Draws tokens) (Drafter.assignment bound) (Reader.assignment bound)) ∧
    (∀ ls, Mirrors tokens ls (Draws tokens) (Drafter.ternary bound) (Reader.ternary bound)) ∧
    ∀ ls, Mirrors tokens ls (Draws tokens) (Drafter.unary bound) (Reader.unary bound) := by
  induction bound with
  | zero => exact ⟨fun _ => .fail rfl, fun _ => .fail rfl, fun _ => .fail rfl⟩
  | succ bound ih =>
    obtain ⟨hassignment, hternary, hunary⟩ := ih
    have hequality := mirrors_equality hunary
    refine ⟨fun ls => ?_, fun ls => ?_, fun ls => ?_⟩
    · refine (mirrors_chain (mirrors_chain hternary .and) .or ls).bind fun a e ls₁ _ h => ?_
      refine .accept? (fun equals _ _ => ?_) (.pure fun _ => h.mono)
      exact (hassignment ls₁).bind fun _ _ _ hsub hvalue =>
        mirrors_assignTo (h.mono hsub) hvalue equals
    · refine (hequality ls).bind fun c ce ls₁ _ hc => ?_
      refine .accept ?_ (.pure fun _ => hc.mono)
      refine (hequality ls₁).bind fun l le ls₂ hsub hl => .expect rfl fun _ _ _ => ?_
      refine (hternary ls₂).bind fun r re ls₃ hsub' hr => .pure fun _ => ?_
      exact (Draws.ternary ((hc.mono hsub).mono hsub') (hl.mono hsub') hr).mono
    · refine .acceptBy? Token.prefix_eq_none_iff (fun t i apply hi happly _ => ?_)
        (mirrors_call hassignment)
      obtain rfl : t = i := Option.some.inj (Option.ite_none_right_eq_some.mp hi).2
      obtain ⟨op, hop, rfl⟩ := Option.map_eq_some_iff.mp happly
      exact (hunary ls).bind fun _ _ _ _ h => .pure fun _ => (Draws.unary hop h).mono

theorem mirrors_expression (tokens : List Token) (ls : List Listing) :
    Mirrors tokens ls (Draws tokens) Drafter.expression Reader.expression :=
  .bounded fun n => (mirrors_levels tokens (3 * n + 3)).1 ls

end Treewalk
