import Treewalk.Proofs.Syntax.Positions.Parser

/-!
# Parsers that agree with readers

From a position before an end of the text, a parser agrees with a reader if both answer the same or
fail with the same fault, with the same tokens left, the same faults noted and the same numbers drawn.
Then the parser never looks outside the tokens, none of its loops goes on without end, and its motions
are a walk up to the first end of the text.

Agreement passes from parts to the whole. A parser need agree only where fewer than some number of
tokens are left, so that it can be shown for deeper and deeper parsers. A loop agrees with a recursion
if its rounds agree with the steps of the recursion and each round that is followed by another one moves
the index on.

## Main definitions

* `Position.cursor`, `Position.Sound`: what is left to read, and positions from which parsers begin.
* `Position.Leads`: from a position one comes to another one by a walk.
* `AgreesAt`, `Agrees`: parsers that agree with readers.

## Main results

* `AgreesAt.bind`, `Agrees.accept`, `Agrees.consume`: parsers one after another.
* `AgreesAt.repeated`: loops.
* `AgreesAt.orSynchronize`: going on after a fault.
-/

namespace Treewalk

/-! ### Walks -/

namespace Walk

variable {last i j k : Nat} {motions motions' : List Motion}

theorem le (h : Walk last i motions j) : i ≤ j := by
  induction h with
  | done => exact Nat.le_refl _
  | onward _ _ ih => exact Nat.le_of_succ_le ih
  | round _ _ ih => exact ih

theorem le_last (h : Walk last i motions j) : j ≤ last := by
  induction h with
  | done hi => exact hi
  | onward _ _ ih => exact ih
  | round _ _ ih => exact ih

theorem append (h : Walk last i motions j) (h' : Walk last j motions' k) :
    Walk last i (motions ++ motions') k := by
  induction h with
  | done => exact h'
  | onward hi _ ih => exact .onward hi (ih h')
  | round hbefore _ ih => exact .round hbefore (ih h')

/-- A round that is followed by another one ends further on than it has begun. -/
theorem lt_of_round_mem (h : Walk last i motions j) {loop : ParserLoop} {before after : Nat}
    (hmem : .round loop before after ∈ motions) : before < after ∧ after ≤ last := by
  induction h with
  | done => cases hmem
  | onward _ _ ih =>
    rcases List.mem_cons.mp hmem with heq | hmem
    · cases heq
    · exact ih hmem
  | round hbefore h ih =>
    rcases List.mem_cons.mp hmem with heq | hmem
    · cases heq
      exact ⟨hbefore, h.le.trans h.le_last⟩
    · exact ih hmem

end Walk

/-! ### Positions -/

namespace Position

/-- The index of the first end of the text. -/
def last (p : Position) : Nat :=
  (tokensBeforeEnd p.tokens).length

/-- What is left to read up to the first end of the text. -/
def cursor (p : Position) : Cursor :=
  ⟨(tokensBeforeEnd p.tokens).drop p.current, p.errors, p.nextId⟩

/-- There is an end of the text, and the index is not past the first one. -/
structure Sound (p : Position) : Prop where
  le : p.current ≤ p.last
  isEnd : ∃ t, p.tokens[p.last]? = some t ∧ t.kind.isEnd

/-- One comes from a position to another one by a walk. -/
structure Leads (p p' : Position) : Prop where
  tokens : p'.tokens = p.tokens
  walk : ∃ motions, p'.motions = p.motions ++ motions ∧ Walk p.last p.current motions p'.current

/-- The position after a token has been taken. -/
def moved (p : Position) : Position :=
  { p with current := p.current + 1, motions := p.motions ++ [.onward] }

variable {p p' p'' : Position} {t : Token} {rest : List Token}

theorem last_congr (h : p'.tokens = p.tokens) : p'.last = p.last := by
  rw [last, h, last]

theorem length_rest (p : Position) : p.cursor.rest.length = p.last - p.current :=
  List.length_drop

namespace Leads

theorem refl (h : p.Sound) : p.Leads p :=
  ⟨rfl, [], (List.append_nil _).symm, .done h.le⟩

theorem trans (h : p.Leads p') (h' : p'.Leads p'') : p.Leads p'' := by
  obtain ⟨motions, heq, hwalk⟩ := h.walk
  obtain ⟨motions', heq', hwalk'⟩ := h'.walk
  rw [last_congr h.tokens] at hwalk'
  exact ⟨h'.tokens.trans h.tokens, motions ++ motions', by rw [heq', heq, List.append_assoc],
    hwalk.append hwalk'⟩

theorem le (h : p.Leads p') : p.current ≤ p'.current := by
  obtain ⟨motions, -, hwalk⟩ := h.walk
  exact hwalk.le

theorem sound (h : p.Leads p') (hp : p.Sound) : p'.Sound := by
  obtain ⟨motions, -, hwalk⟩ := h.walk
  constructor
  · rw [last_congr h.tokens]
    exact hwalk.le_last
  · rw [last_congr h.tokens, h.tokens]
    exact hp.isEnd

theorem length_le (h : p.Leads p') : p'.cursor.rest.length ≤ p.cursor.rest.length := by
  rw [length_rest, length_rest, last_congr h.tokens]
  exact Nat.sub_le_sub_left h.le _

/-- Fewer tokens are left just if the index has moved on. -/
theorem length_lt_iff (h : p.Leads p') (hp : p.Sound) :
    p'.cursor.rest.length < p.cursor.rest.length ↔ p.current < p'.current := by
  have hle := (h.sound hp).le
  rw [length_rest, length_rest, last_congr h.tokens]
  rw [last_congr h.tokens] at hle
  omega

end Leads

namespace Sound

variable (h : p.Sound)

include h

/-- The next token, or an end of the text where none is left. -/
theorem getElem?_current : (p.cursor.rest = [] ∧ ∃ t, p.tokens[p.current]? = some t ∧ t.kind.isEnd) ∨
    ∃ t rest, p.cursor.rest = t :: rest ∧ p.tokens[p.current]? = some t ∧ t.kind.isEnd = false := by
  rcases Nat.lt_or_eq_of_le h.le with hlt | heq
  · right
    refine ⟨(tokensBeforeEnd p.tokens)[p.current], _, List.drop_eq_getElem_cons hlt, ?_, ?_⟩
    · obtain ⟨later, hlater⟩ : tokensBeforeEnd p.tokens <+: p.tokens := List.takeWhile_prefix _
      rw [← List.getElem?_eq_getElem hlt]
      exact (congrArg (·[p.current]?) hlater).symm.trans (List.getElem?_append_left hlt)
    · have hmem := List.mem_takeWhile_imp (List.getElem_mem hlt)
      simpa using hmem
  · left
    exact ⟨List.drop_eq_nil_of_le (Nat.le_of_eq heq.symm), heq ▸ h.isEnd⟩

theorem moved (hrest : p.cursor.rest = t :: rest) : p.moved.Sound := by
  have hlength := p.length_rest
  rw [hrest, List.length_cons] at hlength
  refine ⟨?_, h.isEnd⟩
  change p.current + 1 ≤ p.last
  omega

theorem leads_moved (hrest : p.cursor.rest = t :: rest) : p.Leads p.moved :=
  ⟨rfl, [.onward], rfl, .onward (h.moved hrest).le (.done (h.moved hrest).le)⟩

omit h in
theorem cursor_moved (hrest : p.cursor.rest = t :: rest) :
    p.moved.cursor = { p.cursor with rest := rest } := by
  have hdrop : (tokensBeforeEnd p.tokens).drop (p.current + 1) = rest := by
    rw [← List.tail_drop]
    exact congrArg List.tail hrest
  exact congrArg (Cursor.mk · p.errors p.nextId) hdrop

end Sound

end Position

/-! ### Agreement -/

section Agreement

variable {α β : Type} {n n' : Nat} {p p' : Position}

/-- From a position a parser agrees with a reader, and with its answer it comes to a position as
described. -/
inductive AgreesAt (Q : α → Position → Prop) (x : Parser α) (y : Reader α) (p : Position) : Prop
  /-- Both answer the same. -/
  | answer {a : α} {p' : Position} (hx : x p = .ok a p') (hy : y p.cursor = .ok a p'.cursor)
      (hleads : p.Leads p') (hq : Q a p')
  /-- Both fail with the same fault. -/
  | failure {e : SyntaxError} {p' : Position} (hx : x p = .error (.failed e) p')
      (hy : y p.cursor = .error e p'.cursor) (hleads : p.Leads p')

/-- A parser agrees with a reader where fewer than a number of tokens are left. -/
def Agrees (n : Nat) (x : Parser α) (y : Reader α) : Prop :=
  ∀ p : Position, p.Sound → p.cursor.rest.length < n → AgreesAt (fun _ _ => True) x y p

namespace AgreesAt

variable {x x' : Parser α} {y y' : Reader α} {Q Q' : α → Position → Prop} {R : β → Position → Prop}
  {f : α → Parser β} {g : α → Reader β}

/-- What is known of an answer. -/
theorem mono (h : AgreesAt Q x y p)
    (hQ : ∀ a p', y p.cursor = .ok a p'.cursor → p.Leads p' → Q a p' → Q' a p') :
    AgreesAt Q' x y p := by
  cases h with
  | answer hx hy hleads hq => exact .answer hx hy hleads (hQ _ _ hy hleads hq)
  | failure hx hy hleads => exact .failure hx hy hleads

/-- A parsing and a reading that go on as others do. -/
theorem of_eq (hx : x p = x' p') (hy : y p.cursor = y' p'.cursor) (hleads : p.Leads p')
    (h : AgreesAt Q x' y' p') : AgreesAt Q x y p := by
  cases h with
  | answer hx' hy' hleads' hq =>
    exact .answer (hx.trans hx') (hy.trans hy') (hleads.trans hleads') hq
  | failure hx' hy' hleads' => exact .failure (hx.trans hx') (hy.trans hy') (hleads.trans hleads')

protected theorem pure (hp : p.Sound) {a : α} (hq : Q a p) :
    AgreesAt Q (pure a) (pure a) p :=
  .answer rfl rfl (.refl hp) hq

/-- One after another. -/
protected theorem bind (h : AgreesAt Q x y p)
    (hf : ∀ a p', p.Leads p' → Q a p' → AgreesAt R (f a) (g a) p') :
    AgreesAt R (x >>= f) (y >>= g) p := by
  cases h with
  | @answer a p' hx hy hleads hq =>
    refine (hf a p' hleads hq).of_eq ?_ ?_ hleads
    · change EStateM.bind x f p = _
      rw [EStateM.bind, hx]
    · rw [Reader.bind_apply, hy]
  | @failure e p' hx hy hleads =>
    refine .failure (e := e) ?_ ?_ hleads
    · change EStateM.bind x f p = _
      rw [EStateM.bind, hx]
    · rw [Reader.bind_apply, hy]

end AgreesAt

end Agreement

namespace Parser

variable {α β : Type} {p : Position} {t : Token} {rest : List Token} {kind : TokenKind}

theorem bind_apply (x : Parser α) (f : α → Parser β) (p : Position) :
    (x >>= f) p = match x p with
      | .ok a p => f a p
      | .error e p => .error e p := by
  cases h : x p <;> simp [bind, EStateM.bind, h]

theorem bind_of_ok {x : Parser α} {f : α → Parser β} {a : α} {p p' : Position} (h : x p = .ok a p') :
    (x >>= f) p = f a p' := by
  rw [bind_apply, h]

/-! ### Looking at tokens -/

/-- The next token, which is an end of the text where none is left. -/
theorem exists_peek (hp : p.Sound) : ∃ t, peek p = .ok t p ∧
    t.kind.isEnd = p.cursor.rest.isEmpty ∧ (∀ u rest, p.cursor.rest = u :: rest → t = u) := by
  rcases hp.getElem?_current with ⟨hnil, t, ht, hend⟩ | ⟨t, rest, hrest, ht, hend⟩
  · refine ⟨t, by rw [peek, ht], by rw [hend, hnil]; rfl, fun u rest hu => ?_⟩
    rw [hnil] at hu
    cases hu
  · refine ⟨t, by rw [peek, ht], by rw [hend, hrest]; rfl, fun u rest hu => ?_⟩
    rw [hrest] at hu
    exact (List.cons.inj hu).1

theorem faultAt_eq {t : Token} (hend : t.kind.isEnd = p.cursor.rest.isEmpty)
    (ht : ∀ u rest, p.cursor.rest = u :: rest → t = u) (fault : SyntaxFault) :
    t.faultAt fault = ⟨p.cursor.rest.head?, fault⟩ := by
  rw [Token.faultAt, hend]
  cases hrest : p.cursor.rest with
  | nil => rfl
  | cons u rest => rw [ht u rest hrest]; rfl

theorem isAtEnd_apply (hp : p.Sound) : isAtEnd p = .ok p.cursor.rest.isEmpty p := by
  obtain ⟨t, hpeek, hend, -⟩ := exists_peek hp
  rw [isAtEnd, bind_of_ok hpeek, hend]
  rfl

theorem check_apply (hp : p.Sound) (kind : TokenKind) :
    check kind p = .ok (p.cursor.rest.head?.any (·.is kind)) p := by
  obtain ⟨t, hpeek, -, ht⟩ := exists_peek hp
  rw [check, bind_of_ok (isAtEnd_apply hp)]
  cases hrest : p.cursor.rest with
  | nil => rfl
  | cons u rest =>
    obtain rfl := ht u rest hrest
    change (peek >>= fun t => pure (t.is kind)) p = _
    rw [bind_of_ok hpeek]
    rfl

/-- The token that has just been taken is looked at again. -/
theorem previous_of_taken {p' : Position} (hp : p.Sound) (hrest : p.cursor.rest = t :: rest)
    (htokens : p'.tokens = p.tokens) (hcurrent : p'.current = p.current + 1) :
    previous p' = .ok t p' := by
  rcases hp.getElem?_current with ⟨hnil, -⟩ | ⟨u, rest', hrest', hu, -⟩
  · rw [hnil] at hrest
    cases hrest
  · rw [hrest] at hrest'
    cases hrest'
    rw [previous]
    simp only [hcurrent, htokens, hu]

theorem previous_moved (hp : p.Sound) (hrest : p.cursor.rest = t :: rest) :
    previous p.moved = .ok t p.moved :=
  previous_of_taken hp hrest rfl rfl

/-- A token is taken. -/
theorem advance_apply (hp : p.Sound) (hrest : p.cursor.rest = t :: rest) :
    advance p = .ok t p.moved := by
  have hmove : moveOn p = .ok () p.moved := rfl
  rw [advance, bind_of_ok (isAtEnd_apply hp), hrest]
  change (moveOn >>= fun _ => previous) p = _
  rw [bind_of_ok hmove]
  exact previous_moved hp hrest

theorem accept_of_is (hp : p.Sound) (hrest : p.cursor.rest = t :: rest) (ht : t.is kind) :
    accept kind p = .ok true p.moved := by
  have hcheck : check kind p = .ok true p := by
    rw [check_apply hp, hrest, List.head?_cons, Option.any_some, ht]
  rw [accept, bind_of_ok hcheck]
  change (advance >>= fun _ => pure true) p = _
  rw [bind_of_ok (advance_apply hp hrest)]
  rfl

theorem accept_of_not (hp : p.Sound) (h : ∀ t ∈ p.cursor.rest.head?, ¬ t.is kind) :
    accept kind p = .ok false p := by
  have hcheck : check kind p = .ok false p := by
    rw [check_apply hp]
    cases hhead : p.cursor.rest.head? with
    | none => rfl
    | some t => rw [Option.any_some, Bool.eq_false_iff.mpr (h t hhead)]
  rw [accept, bind_of_ok hcheck]
  rfl

theorem consume_of_is (hp : p.Sound) (hrest : p.cursor.rest = t :: rest) (ht : t.is kind)
    (fault : SyntaxFault) : consume kind fault p = .ok t p.moved := by
  have hcheck : check kind p = .ok true p := by
    rw [check_apply hp, hrest, List.head?_cons, Option.any_some, ht]
  rw [consume, bind_of_ok hcheck]
  exact advance_apply hp hrest

theorem fail_apply (hp : p.Sound) (fault : SyntaxFault) :
    (fail fault : Parser α) p = .error (.failed ⟨p.cursor.rest.head?, fault⟩) p := by
  obtain ⟨t, hpeek, hend, ht⟩ := exists_peek hp
  rw [fail, bind_of_ok hpeek, faultAt_eq hend ht]
  rfl

theorem consume_of_not (hp : p.Sound) (h : ∀ t ∈ p.cursor.rest.head?, ¬ t.is kind)
    (fault : SyntaxFault) :
    consume kind fault p = .error (.failed ⟨p.cursor.rest.head?, fault⟩) p := by
  have hcheck : check kind p = .ok false p := by
    rw [check_apply hp]
    cases hhead : p.cursor.rest.head? with
    | none => rfl
    | some t => rw [Option.any_some, Bool.eq_false_iff.mpr (h t hhead)]
  rw [consume, bind_of_ok hcheck]
  exact fail_apply hp fault

theorem acceptBy?_of_some {f : Token → Option α} {a : α} (hp : p.Sound)
    (hrest : p.cursor.rest = t :: rest) (ha : f t = some a) :
    acceptBy? f p = .ok (some a) p.moved := by
  obtain ⟨u, hpeek, -, hu⟩ := exists_peek hp
  obtain rfl := hu t rest hrest
  rw [acceptBy?, bind_of_ok (isAtEnd_apply hp), hrest]
  refine (bind_of_ok hpeek).trans ?_
  simp only [ha]
  rw [bind_of_ok (advance_apply hp hrest)]
  rfl

theorem acceptBy?_of_none {f : Token → Option α} (hp : p.Sound)
    (h : ∀ t ∈ p.cursor.rest.head?, f t = none) : acceptBy? f p = .ok none p := by
  obtain ⟨u, hpeek, -, hu⟩ := exists_peek hp
  rw [acceptBy?, bind_of_ok (isAtEnd_apply hp)]
  cases hrest : p.cursor.rest with
  | nil => rfl
  | cons t rest =>
    obtain rfl := hu t rest hrest
    have hnone : f u = none := h u (by rw [hrest]; rfl)
    refine (bind_of_ok hpeek).trans ?_
    simp only [hnone]
    rfl

end Parser

section Rules

variable {α β γ : Type} {n n' : Nat} {p : Position} {kind : TokenKind} {fault : SyntaxFault}

namespace AgreesAt

variable {R : β → Position → Prop}

/-- A parsing and a reading that take a token and go on as others do. -/
theorem taken {x x' : Parser β} {y y' : Reader β} {t : Token} {rest : List Token} (hp : p.Sound)
    (hrest : p.cursor.rest = t :: rest) (hx : x p = x' p.moved)
    (hy : ∀ errors id, y ⟨t :: rest, errors, id⟩ = y' ⟨rest, errors, id⟩)
    (h : AgreesAt R x' y' p.moved) : AgreesAt R x y p := by
  refine h.of_eq hx ?_ (hp.leads_moved hrest)
  have hcursor : p.cursor = ⟨t :: rest, p.cursor.errors, p.cursor.nextId⟩ := by rw [← hrest]
  rw [Position.Sound.cursor_moved hrest, hcursor]
  exact hy _ _

/-- A token is taken or not. -/
theorem accept? {f : Bool → Parser β} {g : Option Token → Reader β} (hp : p.Sound)
    (h : ∀ t rest, t.is kind → p.cursor.rest = t :: rest →
      AgreesAt R (f true) (g (some t)) p.moved)
    (h' : AgreesAt R (f false) (g none) p) :
    AgreesAt R (Parser.accept kind >>= f) (Reader.accept? kind >>= g) p := by
  by_cases hhead : ∃ t ∈ p.cursor.rest.head?, t.is kind
  · obtain ⟨t, hhead, ht⟩ := hhead
    obtain ⟨rest, hrest⟩ := List.head?_eq_some_iff.mp hhead
    exact .taken hp hrest (Parser.bind_of_ok (Parser.accept_of_is hp hrest ht))
      (fun _ _ => Reader.accept?_bind_of_is ht) (h t rest ht hrest)
  · have hnone : ∀ t ∈ p.cursor.rest.head?, ¬ t.is kind := fun t ht his => hhead ⟨t, ht, his⟩
    exact h'.of_eq (Parser.bind_of_ok (Parser.accept_of_not hp hnone))
      (Reader.accept?_bind_of_not hnone) (.refl hp)

/-- A token is taken or not, and it is known whether it was. -/
theorem accept {f : Bool → Parser β} {g : Bool → Reader β} (hp : p.Sound)
    (h : ∀ t rest, p.cursor.rest = t :: rest → AgreesAt R (f true) (g true) p.moved)
    (h' : AgreesAt R (f false) (g false) p) :
    AgreesAt R (Parser.accept kind >>= f) (Reader.accept kind >>= g) p := by
  rw [Reader.accept_bind]
  exact .accept? hp (fun t rest _ => h t rest) h'

/-- A token on which a function has a value is taken. -/
theorem acceptBy? {v : Token → Option γ} {f : Option γ → Parser β} {g : Option γ → Reader β}
    (hp : p.Sound)
    (h : ∀ t rest a, p.cursor.rest = t :: rest → AgreesAt R (f (some a)) (g (some a)) p.moved)
    (h' : AgreesAt R (f none) (g none) p) :
    AgreesAt R (Parser.acceptBy? v >>= f) (Reader.acceptBy? v >>= g) p := by
  by_cases hhead : ∃ t ∈ p.cursor.rest.head?, ∃ a, v t = some a
  · obtain ⟨t, hhead, a, ha⟩ := hhead
    obtain ⟨rest, hrest⟩ := List.head?_eq_some_iff.mp hhead
    exact .taken hp hrest (Parser.bind_of_ok (Parser.acceptBy?_of_some hp hrest ha))
      (fun _ _ => Reader.acceptBy?_bind_of_some ha) (h t rest a hrest)
  · have hnone : ∀ t ∈ p.cursor.rest.head?, v t = none := fun t ht =>
      Option.eq_none_iff_forall_ne_some.mpr fun a ha => hhead ⟨t, ht, a, ha⟩
    exact h'.of_eq (Parser.bind_of_ok (Parser.acceptBy?_of_none hp hnone))
      (Reader.acceptBy?_bind_of_none hnone) (.refl hp)

/-- A token must come next. -/
theorem consume {f : Token → Parser β} {g : Token → Reader β} (hp : p.Sound)
    (h : ∀ t rest, p.cursor.rest = t :: rest → AgreesAt R (f t) (g t) p.moved) :
    AgreesAt R (Parser.consume kind fault >>= f) (Reader.expect kind fault >>= g) p := by
  rw [Reader.expect_bind]
  by_cases hhead : ∃ t ∈ p.cursor.rest.head?, t.is kind
  · obtain ⟨t, hhead, ht⟩ := hhead
    obtain ⟨rest, hrest⟩ := List.head?_eq_some_iff.mp hhead
    exact .taken hp hrest (Parser.bind_of_ok (Parser.consume_of_is hp hrest ht fault))
      (fun _ _ => Reader.accept?_bind_of_is ht) (h t rest hrest)
  · have hnone : ∀ t ∈ p.cursor.rest.head?, ¬ t.is kind := fun t ht his => hhead ⟨t, ht, his⟩
    have hfails : (Parser.consume kind fault >>= f) p =
        .error (.failed ⟨p.cursor.rest.head?, fault⟩) p := by
      rw [Parser.bind_apply, Parser.consume_of_not hp hnone]
    exact .failure hfails (Reader.accept?_bind_of_not hnone) (.refl hp)

/-- The next token is looked at for its kind. -/
theorem check {f : Bool → Parser β} {g : Bool → Reader β} (hp : p.Sound)
    (h : ∀ b, AgreesAt R (f b) (g b) p) :
    AgreesAt R (Parser.check kind >>= f) (Reader.check kind >>= g) p := by
  refine (h (p.cursor.rest.head?.any (·.is kind))).of_eq ?_ ?_ (.refl hp)
  · exact Parser.bind_of_ok (Parser.check_apply hp kind)
  · rfl

theorem note (hp : p.Sound) (error : SyntaxError) :
    AgreesAt (fun _ _ => True) (Parser.note error) (Reader.note error) p :=
  .answer rfl rfl ⟨rfl, [], (List.append_nil _).symm, .done hp.le⟩ trivial

theorem freshId (hp : p.Sound) : AgreesAt (fun _ _ => True) Parser.freshId Reader.freshId p :=
  .answer rfl rfl ⟨rfl, [], (List.append_nil _).symm, .done hp.le⟩ trivial

/-- A fault is noted where too many parameters or arguments stand. -/
theorem noteBeyond (hp : p.Sound) (count : Nat) :
    AgreesAt (fun _ _ => True) (Parser.noteBeyond count fault) (Reader.noteBeyond count fault) p := by
  unfold Parser.noteBeyond Reader.noteBeyond
  split
  · obtain ⟨t, hpeek, hend, ht⟩ := Parser.exists_peek hp
    refine (note hp ⟨p.cursor.rest.head?, fault⟩).of_eq ?_ ?_ (.refl hp)
    · rw [Parser.bind_of_ok hpeek, Parser.faultAt_eq hend ht]
    · rfl
  · exact .pure hp trivial

protected theorem fail (hp : p.Sound) {Q : α → Position → Prop} :
    AgreesAt Q (Parser.fail fault) (Reader.fail fault) p :=
  .failure (Parser.fail_apply hp fault) rfl (.refl hp)

end AgreesAt

namespace Agrees

variable {x : Parser α} {y : Reader α}

/-- Fewer tokens. -/
theorem of_le (h : Agrees n x y) (hle : n' ≤ n) : Agrees n' x y :=
  fun p hp hn => h p hp (Nat.lt_of_lt_of_le hn hle)

/-- No tokens are fewer than none. -/
theorem zero (x : Parser α) (y : Reader α) : Agrees 0 x y :=
  fun _ _ hn => absurd hn (Nat.not_lt_zero _)

protected theorem pure (a : α) : Agrees n (pure a) (pure a) :=
  fun _ hp _ => .pure hp trivial

/-- One after another. -/
protected theorem bind {f : α → Parser β} {g : α → Reader β} (hx : Agrees n x y)
    (hf : ∀ a, Agrees n (f a) (g a)) : Agrees n (x >>= f) (y >>= g) :=
  fun p hp hn => (hx p hp hn).bind fun a p' hleads _ =>
    hf a p' (hleads.sound hp) (Nat.lt_of_le_of_lt hleads.length_le hn)

/-- After a token has been taken fewer are left. -/
theorem moved (h : Agrees (n - 1) x y) (hp : p.Sound) {t : Token} {rest : List Token}
    (hrest : p.cursor.rest = t :: rest) (hn : p.cursor.rest.length < n) :
    AgreesAt (fun _ _ => True) x y p.moved := by
  refine h p.moved (hp.moved hrest) ?_
  rw [hrest, List.length_cons] at hn
  rw [Position.Sound.cursor_moved hrest]
  change rest.length < n - 1
  omega

theorem accept {f : Bool → Parser β} {g : Bool → Reader β} (h : Agrees (n - 1) (f true) (g true))
    (h' : Agrees n (f false) (g false)) :
    Agrees n (Parser.accept kind >>= f) (Reader.accept kind >>= g) :=
  fun p hp hn => .accept hp (fun _ _ hrest => h.moved hp hrest hn) (h' p hp hn)

/-- A token is taken and then looked at again. -/
theorem acceptPrevious {f : Token → Parser β} {g : Option Token → Reader β} {z : Parser β}
    (h : ∀ t, t.is kind → Agrees (n - 1) (f t) (g (some t))) (h' : Agrees n z (g none)) :
    Agrees n (Parser.accept kind >>= fun b => if b then Parser.previous >>= f else z)
      (Reader.accept? kind >>= g) := by
  refine fun _ hp hn => .accept? hp (fun t rest ht hrest => ?_) (h' _ hp hn)
  refine ((h t ht).moved hp hrest hn).of_eq ?_ rfl (.refl (hp.moved hrest))
  exact Parser.bind_of_ok (Parser.previous_moved hp hrest)

theorem acceptBy? {v : Token → Option γ} {f : Option γ → Parser β} {g : Option γ → Reader β}
    (h : ∀ a, Agrees (n - 1) (f (some a)) (g (some a))) (h' : Agrees n (f none) (g none)) :
    Agrees n (Parser.acceptBy? v >>= f) (Reader.acceptBy? v >>= g) :=
  fun p hp hn => .acceptBy? hp (fun _ _ a hrest => (h a).moved hp hrest hn) (h' p hp hn)

theorem consume {f : Token → Parser β} {g : Token → Reader β}
    (h : ∀ t, Agrees (n - 1) (f t) (g t)) :
    Agrees n (Parser.consume kind fault >>= f) (Reader.expect kind fault >>= g) :=
  fun _ hp hn => .consume hp fun t _ hrest => (h t).moved hp hrest hn

theorem check {f : Bool → Parser β} {g : Bool → Reader β} (h : ∀ b, Agrees n (f b) (g b)) :
    Agrees n (Parser.check kind >>= f) (Reader.check kind >>= g) :=
  fun p hp hn => .check hp fun b => h b p hp hn

theorem note (error : SyntaxError) : Agrees n (Parser.note error) (Reader.note error) :=
  fun _ hp _ => .note hp error

theorem freshId : Agrees n Parser.freshId Reader.freshId :=
  fun _ hp _ => .freshId hp

end Agrees

end Rules

/-! ### Loops -/

section Loops

variable {σ β : Type} {n : Nat}

/-- A loop is a round, after which it goes on or not. -/
theorem Parser.repeated_succ_apply (loop : ParserLoop) (round : σ → Parser (σ ⊕ β)) (limit : Nat)
    (s : σ) (p : Position) : repeated loop round (limit + 1) s p = (round s >>= Sum.elim (fun s' =>
      wentRound loop p.current >>= fun _ => repeated loop round limit s') Pure.pure) p := by
  change (round s >>= _) p = _
  rw [bind_apply, bind_apply]
  rcases round s p with ⟨a | b, p'⟩ | ⟨e, p'⟩ <;> rfl

/-- A loop agrees with a recursion whose steps its rounds agree with, if each round that is followed by
another one moves the index on. How many steps the recursion may take at most, must be more than what
is needed for the tokens left. -/
theorem AgreesAt.repeated {loop : ParserLoop} {round : σ → Parser (σ ⊕ β)}
    {step : Nat → σ → Reader (σ ⊕ β)} {r : Nat → σ → Reader β} {need : Nat → Nat}
    (hneed : StrictMono need)
    (hr : ∀ bound s (c : Cursor), need c.rest.length ≤ bound →
      r (bound + 1) s c = (step bound s >>= Sum.elim (r bound) pure) c)
    (hround : ∀ bound s (p : Position), p.Sound → p.cursor.rest.length < n →
      need p.cursor.rest.length ≤ bound →
      AgreesAt (fun a p' => a.isLeft → p.current < p'.current) (round s) (step bound s) p)
    {limit bound : Nat} {s : σ} {p : Position} (hp : p.Sound) (hn : p.cursor.rest.length < n)
    (hlimit : p.cursor.rest.length < limit) (hbound : need p.cursor.rest.length < bound) :
    AgreesAt (fun _ _ => True) (Parser.repeated loop round limit s) (r bound s) p := by
  induction limit generalizing bound s p with
  | zero => exact absurd hlimit (Nat.not_lt_zero _)
  | succ limit ih =>
    obtain ⟨bound, rfl⟩ : ∃ k, bound = k + 1 := ⟨bound - 1, by omega⟩
    have hneeds := Nat.le_of_lt_succ hbound
    refine AgreesAt.of_eq (Parser.repeated_succ_apply loop round limit s p)
      (hr bound s p.cursor hneeds) (.refl hp)
      ((hround bound s p hp hn hneeds).bind fun a p' hleads hq => ?_)
    cases a with
    | inr b => exact .pure (hleads.sound hp) trivial
    | inl s' =>
      have hlt := hq rfl
      have hless := (hleads.length_lt_iff hp).mpr hlt
      have hp' := hleads.sound hp
      let p'' : Position :=
        { p' with motions := p'.motions ++ [.round loop p.current p'.current] }
      have hleads' : p'.Leads p'' := ⟨rfl, _, rfl, .round hlt (.done hp'.le)⟩
      have hrest : AgreesAt (fun _ _ => True) (Parser.repeated loop round limit s') (r bound s') p'' :=
        ih (hleads'.sound hp') (Nat.lt_trans hless hn)
          (Nat.lt_of_lt_of_le hless (Nat.le_of_lt_succ hlimit))
          (Nat.lt_of_lt_of_le (hneed hless) hneeds)
      have hgoes : (Parser.wentRound loop p.current >>= fun _ =>
          Parser.repeated loop round limit s') p' = Parser.repeated loop round limit s' p'' := rfl
      exact hrest.of_eq hgoes rfl hleads'

end Loops

/-! ### Going on after a fault -/

namespace Parser

variable {p : Position} {t : Token} {rest : List Token}

/-- After the first token there is one before the next one. -/
theorem exists_previous (hp : p.Sound) (hpos : 0 < p.current) : ∃ t, previous p = .ok t p := by
  obtain ⟨i, hi⟩ := Nat.exists_eq_succ_of_ne_zero (Nat.ne_of_gt hpos)
  obtain ⟨t, ht, -⟩ := hp.isEnd
  have hlast := (List.getElem?_eq_some_iff.mp ht).1
  have hlt : i < p.tokens.length := by
    have hle := hp.le
    omega
  refine ⟨p.tokens[i], ?_⟩
  rw [previous]
  simp only [hi, Nat.succ_eq_add_one, List.getElem?_eq_getElem hlt]

theorem recover_singleton (t : Token) : recover [t] = [] := by
  rw [recover]
  exact ite_self _

theorem recover_cons_cons (t u : Token) (rest : List Token) : recover (t :: u :: rest) =
    if t.is (.mark .semicolon) || u.opensStatement then u :: rest else recover (u :: rest) := by
  rw [recover]
  cases t.is (.mark .semicolon)
  · simp
  · rfl

theorem recoveryRound_of_nil (hp : p.Sound) (hrest : p.cursor.rest = []) :
    recoveryRound p = .ok (.inr ()) p := by
  rw [recoveryRound, bind_of_ok (isAtEnd_apply hp), hrest]
  rfl

/-- A token is passed over unless a statement has just ended or can begin. -/
theorem recoveryRound_of_cons {u : Token} (hp : p.Sound) (hprevious : previous p = .ok t p)
    (hrest : p.cursor.rest = u :: rest) : recoveryRound p =
      if t.is (.mark .semicolon) || u.opensStatement then .ok (.inr ()) p
      else .ok (.inl ()) p.moved := by
  obtain ⟨u', hpeek, -, hu⟩ := exists_peek hp
  obtain rfl := hu u rest hrest
  rw [recoveryRound, bind_of_ok (isAtEnd_apply hp), hrest]
  change (previous >>= fun t => if t.is (.mark .semicolon) then pure (.inr ()) else
    peek >>= fun u => if u.opensStatement then pure (.inr ()) else
      advance >>= fun _ => pure (.inl ()) : Parser (Unit ⊕ Unit)) p = _
  rw [bind_of_ok hprevious]
  cases t.is (.mark .semicolon) with
  | true => rfl
  | false =>
    change (peek >>= fun u => if u.opensStatement then pure (.inr ()) else
      advance >>= fun _ => pure (.inl ()) : Parser (Unit ⊕ Unit)) p = _
    rw [bind_of_ok hpeek, Bool.false_or]
    cases u'.opensStatement with
    | true => rfl
    | false => exact bind_of_ok (advance_apply hp hrest)

/-- After a token that has been passed over, tokens are passed over as `recover` says. -/
theorem exists_recovered {limit : Nat} (hp : p.Sound) (hprevious : previous p = .ok t p)
    (hlimit : p.cursor.rest.length < limit) :
    ∃ p', repeated .recovery (fun _ => recoveryRound) limit () p = .ok () p' ∧ p.Leads p' ∧
      p'.cursor = { p.cursor with rest := recover (t :: p.cursor.rest) } := by
  induction limit generalizing p t with
  | zero => exact absurd hlimit (Nat.not_lt_zero _)
  | succ limit ih =>
    rw [repeated_succ_apply]
    cases hrest : p.cursor.rest with
    | nil =>
      refine ⟨p, ?_, .refl hp, ?_⟩
      · rw [bind_of_ok (recoveryRound_of_nil hp hrest)]
        rfl
      · rw [recover_singleton, ← hrest]
    | cons u rest =>
      have hround := recoveryRound_of_cons hp hprevious hrest
      rw [recover_cons_cons]
      by_cases hstops : (t.is (.mark .semicolon) || u.opensStatement) = true
      · rw [if_pos hstops] at hround ⊢
        refine ⟨p, ?_, .refl hp, by rw [← hrest]⟩
        rw [bind_of_ok hround]
        rfl
      · rw [if_neg hstops] at hround ⊢
        let p₁ : Position := { p.moved with
          motions := p.moved.motions ++ [.round .recovery p.current p.moved.current] }
        have hleads : p.Leads p₁ := (hp.leads_moved hrest).trans
          ⟨rfl, _, rfl, .round (Nat.lt_succ_self _) (.done (hp.moved hrest).le)⟩
        have hcursor : p₁.cursor = { p.cursor with rest := rest } :=
          Position.Sound.cursor_moved hrest
        have hprevious₁ : previous p₁ = .ok u p₁ := previous_of_taken hp hrest rfl rfl
        obtain ⟨p', hp', hleads', heq⟩ := ih (hleads.sound hp) hprevious₁ (by
          rw [hcursor]
          rw [hrest, List.length_cons] at hlimit
          exact Nat.lt_of_succ_lt_succ hlimit)
        refine ⟨p', ?_, hleads.trans hleads', ?_⟩
        · rw [bind_of_ok hround]
          exact hp'
        · rw [heq, hcursor]

/-- The token that does not fit is passed over, if there is one, and then tokens up to a place where a
statement can begin. Where none is left, there must be one before. -/
theorem exists_synchronized {limit : Nat} (hp : p.Sound) (hlimit : p.cursor.rest.length < limit)
    (hpos : p.cursor.rest = [] → 0 < p.current) :
    ∃ p', synchronize limit p = .ok () p' ∧ p.Leads p' ∧
      p'.cursor = { p.cursor with rest := recover p.cursor.rest } := by
  cases hrest : p.cursor.rest with
  | nil =>
    obtain ⟨t, ht⟩ := exists_previous hp (hpos hrest)
    have hadvance : advance p = .ok t p := by
      rw [advance, bind_of_ok (isAtEnd_apply hp), hrest]
      exact ht
    obtain ⟨p', hp', hleads, hcursor⟩ := exists_recovered hp ht hlimit
    refine ⟨p', (bind_of_ok hadvance).trans hp', hleads, ?_⟩
    rw [hcursor, hrest, recover_singleton]
    rfl
  | cons t rest =>
    have hcursor := Position.Sound.cursor_moved hrest
    obtain ⟨p', hp', hleads, heq⟩ := exists_recovered (hp.moved hrest)
      (previous_moved hp hrest) (by
        rw [hcursor]
        rw [hrest, List.length_cons] at hlimit
        exact Nat.lt_of_succ_lt hlimit)
    refine ⟨p', (bind_of_ok (advance_apply hp hrest)).trans hp',
      (hp.leads_moved hrest).trans hleads, ?_⟩
    rw [heq, hcursor]

end Parser

/-- A parsing that fails notes its fault and goes on where a statement can begin. It has begun before a
token, so that there is one before the place where it has failed, or one to pass over. -/
theorem AgreesAt.orSynchronize {x : Parser Stmt} {y : Reader Stmt} {p : Position} {limit : Nat}
    (h : AgreesAt (fun _ _ => True) x y p) (hp : p.Sound) (hrest : p.cursor.rest ≠ [])
    (hlimit : p.cursor.rest.length < limit) :
    AgreesAt (fun _ _ => True) (Parser.orSynchronize limit x) (Reader.orRecover y) p := by
  cases h with
  | @answer s p' hx hy hleads =>
    refine .answer (a := some s) ?_ (Reader.orRecover_of_ok hy) hleads trivial
    rw [Parser.orSynchronize, hx]
  | @failure e p' hx hy hleads =>
    let p₁ : Position := { p' with errors := p'.errors ++ [e] }
    have hp' := hleads.sound hp
    have hleads₁ : p'.Leads p₁ := ⟨rfl, [], (List.append_nil _).symm, .done hp'.le⟩
    have hpos : p₁.cursor.rest = [] → 0 < p₁.current := by
      intro hnil
      have hless : p'.cursor.rest.length < p.cursor.rest.length := by
        change p'.cursor.rest = [] at hnil
        rw [hnil]
        exact List.length_pos_iff.mpr hrest
      exact Nat.lt_of_le_of_lt (Nat.zero_le _) ((hleads.length_lt_iff hp).mp hless)
    obtain ⟨p₂, hsync, hleads₂, hcursor⟩ := Parser.exists_synchronized
      (hleads₁.sound hp') (Nat.lt_of_le_of_lt hleads.length_le hlimit) hpos
    refine .answer (a := none) ?_ ?_ ((hleads.trans hleads₁).trans hleads₂) trivial
    · rw [Parser.orSynchronize, hx]
      change (Parser.synchronize limit >>= fun _ => pure none : Parser (Option Stmt)) p₁ = _
      rw [Parser.bind_of_ok hsync]
      rfl
    · rw [Reader.orRecover_of_error hy, hcursor]
      rfl

end Treewalk
