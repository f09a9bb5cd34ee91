import Mathlib
import Treewalk.Syntax.Program

/-!
# What a reader of tokens does

A reader only goes on: it takes tokens off the front, adds faults to those noted, and draws
numbers. `Reader.Ensures` says this together with a statement about the tokens that were taken, those
that are left, the faults that were noted, the numbers that were drawn and the answer. The statement
only has to hold of readings that end with an answer, but the reader has to go on in every case.

There is one rule for each way in which readers are put together, so that a statement about a reader
is found by following its definition.

## Main definitions

* `Cursor.Leads`: how a cursor has moved on to another one.
* `Reader.Ensures`: what a reader does.

## Main results

* `Reader.Ensures.bind`: one reader after another.
* `Reader.Ensures.accept?`, `Reader.Ensures.expect`: a token of a given kind.
-/

namespace Treewalk

/-- The cursor `c` has moved on to `c'`: tokens were taken, faults were noted, numbers were drawn. -/
structure Cursor.Leads (c : Cursor) (taken : List Token) (noted : List SyntaxError)
    (c' : Cursor) : Prop where
  rest : c.rest = taken ++ c'.rest
  errors : c'.errors = c.errors ++ noted
  nextId : c.nextId ≤ c'.nextId

namespace Cursor.Leads

theorem refl (c : Cursor) : c.Leads [] [] c :=
  ⟨rfl, (List.append_nil _).symm, Nat.le_refl _⟩

theorem trans {c₁ c₂ c₃ : Cursor} {ts us : List Token} {ns ms : List SyntaxError}
    (h : c₁.Leads ts ns c₂) (h' : c₂.Leads us ms c₃) : c₁.Leads (ts ++ us) (ns ++ ms) c₃ where
  rest := by rw [h.rest, h'.rest, List.append_assoc]
  errors := by rw [h'.errors, h.errors, List.append_assoc]
  nextId := Nat.le_trans h.nextId h'.nextId

end Cursor.Leads

namespace Reader

variable {α β : Type}

theorem pure_apply (a : α) (c : Cursor) : (pure a : Reader α) c = .ok a c :=
  rfl

theorem bind_apply (x : Reader α) (f : α → Reader β) (c : Cursor) :
    (x >>= f) c = match x c with
      | .ok a c' => f a c'
      | .error e c' => .error e c' := by
  change EStateM.bind x f c = _
  rw [EStateM.bind]
  cases x c <;> rfl

/-- A statement about the tokens taken, the tokens left, the faults noted, the first number that was
free before and after, and the answer. -/
abbrev Post (α : Type) :=
  (taken left : List Token) → (noted : List SyntaxError) → (first next : Nat) → α → Prop

/-- An outcome of a reading that began at a cursor: the reader went on and, if it answered, made a
statement true; if it failed, it stands at the token that it found. -/
def Settles (c : Cursor) (Q : Post α) : EStateM.Result SyntaxError Cursor α → Prop
  | .ok a c' => ∃ taken noted, c.Leads taken noted c' ∧ Q taken c'.rest noted c.nextId c'.nextId a
  | .error e c' => e.found = c'.rest.head? ∧ ∃ taken noted, c.Leads taken noted c'

/-- A reader goes on, and what it does makes a statement true whenever it answers. -/
def Ensures (r : Reader α) (Q : Post α) : Prop :=
  ∀ c, Settles c Q (r c)

theorem Settles.mono {c : Cursor} {Q Q' : Post α} {o : EStateM.Result SyntaxError Cursor α}
    (h : Settles c Q o) (hQ : ∀ taken left noted first next a, c.rest = taken ++ left →
      Q taken left noted first next a → Q' taken left noted first next a) : Settles c Q' o := by
  cases o with
  | ok a c' =>
    obtain ⟨taken, noted, hl, hq⟩ := h
    exact ⟨taken, noted, hl, hQ _ _ _ _ _ _ hl.rest hq⟩
  | error e c' => exact h

/-- A reading that begins one token later. -/
theorem Settles.cons {t : Token} {rest : List Token} {errors : List SyntaxError} {n : Nat}
    {Q : Post α} {o : EStateM.Result SyntaxError Cursor α} (h : Settles ⟨rest, errors, n⟩ Q o) :
    Settles ⟨t :: rest, errors, n⟩ (fun taken left noted first next a =>
      ∃ ts, taken = t :: ts ∧ Q ts left noted first next a) o := by
  cases o with
  | ok a c' =>
    obtain ⟨ts, ns, hl, hq⟩ := h
    exact ⟨t :: ts, ns, ⟨congrArg (t :: ·) hl.rest, hl.errors, hl.nextId⟩, ts, rfl, hq⟩
  | error e c' =>
    obtain ⟨hfound, ts, ns, hl⟩ := h
    exact ⟨hfound, t :: ts, ns, congrArg (t :: ·) hl.rest, hl.errors, hl.nextId⟩

theorem Ensures.mono {r : Reader α} {Q Q' : Post α} (h : Ensures r Q)
    (hQ : ∀ taken left noted first next a, Q taken left noted first next a →
      Q' taken left noted first next a) : Ensures r Q' :=
  fun c => (h c).mono fun _ _ _ _ _ _ _ => hQ _ _ _ _ _ _

/-- An answer without reading. -/
theorem Ensures.pure (a : α) : Ensures (Pure.pure a) fun taken _ noted first next b =>
    taken = [] ∧ noted = [] ∧ first = next ∧ b = a :=
  fun c => ⟨[], [], .refl c, rfl, rfl, rfl, rfl⟩

/-- One reader after another: tokens, faults and numbers of the two stand one after the other. -/
theorem Ensures.bind {x : Reader α} {f : α → Reader β} {Q : Post α} {Q' : α → Post β}
    (hx : Ensures x Q) (hf : ∀ a, Ensures (f a) (Q' a)) :
    Ensures (x >>= f) fun taken left noted first next b => ∃ a ts us ns ms mid,
      taken = ts ++ us ∧ noted = ns ++ ms ∧ Q ts (us ++ left) ns first mid a ∧
        Q' a us left ms mid next b := by
  intro c
  have hc := hx c
  rw [bind_apply]
  cases hr : x c with
  | error e c' => rwa [hr] at hc
  | ok a c' =>
    rw [hr] at hc
    obtain ⟨ts, ns, hl, hq⟩ := hc
    have hc' := hf a c'
    dsimp only
    cases hr' : f a c' with
    | error e c'' =>
      rw [hr'] at hc'
      obtain ⟨hfound, us, ms, hl'⟩ := hc'
      exact ⟨hfound, _, _, hl.trans hl'⟩
    | ok b c'' =>
      rw [hr'] at hc'
      obtain ⟨us, ms, hl', hq'⟩ := hc'
      rw [hl'.rest] at hq
      exact ⟨_, _, hl.trans hl', a, ts, us, ns, ms, c'.nextId, rfl, rfl, hq, hq'⟩

/-- A failure makes no statement false. -/
theorem Ensures.fail {Q : Post α} (fault : SyntaxFault) : Ensures (Reader.fail fault) Q :=
  fun c => ⟨rfl, [], [], .refl c⟩

/-- A reader whose bound is the number of tokens left. -/
theorem Ensures.bounded {r : Nat → Reader α} {Q : Post α} (h : ∀ n, Ensures (r n) Q) :
    Ensures (Reader.bounded r) Q :=
  fun c => h c.rest.length c

/-! ### Faults and numbers -/

/-- A fault is noted. -/
theorem Ensures.note (e : SyntaxError) : Ensures (Reader.note e) fun taken _ noted first next _ =>
    taken = [] ∧ noted = [e] ∧ first = next :=
  fun _ => ⟨[], [e], ⟨rfl, rfl, Nat.le_refl _⟩, rfl, rfl, rfl⟩

/-- A fault is noted at the next token. -/
theorem Ensures.noteHere (fault : SyntaxFault) :
    Ensures (Reader.noteHere fault) fun taken _ noted first next _ =>
      taken = [] ∧ noted ≠ [] ∧ first = next :=
  fun c => ⟨[], [⟨c.rest.head?, fault⟩], ⟨rfl, rfl, Nat.le_refl _⟩, rfl, List.cons_ne_nil _ _, rfl⟩

/-- A fault is noted where too many parameters or arguments stand, and only there. -/
theorem Ensures.noteBeyond (count : Nat) (fault : SyntaxFault) :
    Ensures (Reader.noteBeyond count fault) fun taken _ noted first next _ =>
      taken = [] ∧ (noted = [] ↔ count < maxArguments) ∧ first = next := by
  unfold Reader.noteBeyond
  split
  · refine (Ensures.noteHere fault).mono ?_
    rintro _ _ _ _ _ _ ⟨rfl, hn, rfl⟩
    exact ⟨rfl, by simp [hn]; omega, rfl⟩
  · refine (Ensures.pure ()).mono ?_
    rintro _ _ _ _ _ _ ⟨rfl, rfl, rfl, -⟩
    exact ⟨rfl, by simp; omega, rfl⟩

/-- A number is drawn before the rest of a reading. -/
theorem Ensures.freshId {f : Nat → Reader β} {Q : Nat → Post β} (h : ∀ id, Ensures (f id) (Q id)) :
    Ensures (Reader.freshId >>= f) fun taken left noted first next b =>
      Q first taken left noted (first + 1) next b := by
  intro c
  have hc := h c.nextId { c with nextId := c.nextId + 1 }
  change Settles c _ (f c.nextId { c with nextId := c.nextId + 1 })
  cases hr : f c.nextId { c with nextId := c.nextId + 1 } with
  | ok b c' =>
    rw [hr] at hc
    obtain ⟨ts, ns, hl, hq⟩ := hc
    exact ⟨ts, ns, ⟨hl.rest, hl.errors, Nat.le_of_succ_le hl.nextId⟩, hq⟩
  | error e c' =>
    rw [hr] at hc
    obtain ⟨hfound, ts, ns, hl⟩ := hc
    exact ⟨hfound, ts, ns, hl.rest, hl.errors, Nat.le_of_succ_le hl.nextId⟩

/-! ### The next token -/

/-- The next token is looked at before the rest of a reading. -/
theorem Ensures.peek? {f : Option Token → Reader β} {Q : Option Token → Post β}
    (h : ∀ t, Ensures (f t) (Q t)) : Ensures (Reader.peek? >>= f)
      fun taken left noted first next b => Q (taken ++ left).head? taken left noted first next b := by
  intro c
  refine (h c.rest.head? c).mono fun taken left _ _ _ _ hl hq => ?_
  rwa [← hl]

/-- The next token is looked at for its kind before the rest of a reading. -/
theorem Ensures.check {kind : TokenKind} {f : Bool → Reader β} {Q : Bool → Post β}
    (h : ∀ b, Ensures (f b) (Q b)) : Ensures (Reader.check kind >>= f)
      fun taken left noted first next b =>
        Q ((taken ++ left).head?.any (·.is kind)) taken left noted first next b := by
  intro c
  refine (h (c.rest.head?.any (·.is kind)) c).mono fun taken left _ _ _ _ hl hq => ?_
  rwa [← hl]

theorem accept?_bind_of_is {kind : TokenKind} {f : Option Token → Reader β} {t : Token}
    {rest : List Token} {errors : List SyntaxError} {id : Nat} (ht : t.is kind) :
    (Reader.accept? kind >>= f) ⟨t :: rest, errors, id⟩ = f (some t) ⟨rest, errors, id⟩ := by
  simp [bind_apply, Reader.accept?, ht]

theorem accept?_bind_of_not {kind : TokenKind} {f : Option Token → Reader β} {c : Cursor}
    (h : ∀ t ∈ c.rest.head?, ¬ t.is kind) : (Reader.accept? kind >>= f) c = f none c := by
  obtain ⟨_ | ⟨t, rest⟩, errors, id⟩ := c
  · rfl
  · simp [bind_apply, Reader.accept?, h t rfl]

/-- The next token is taken if it has a given kind. -/
theorem Ensures.accept? {kind : TokenKind} {f : Option Token → Reader β} {Q : Token → Post β}
    {Q' : Post β} (h : ∀ t, Ensures (f (some t)) (Q t)) (h' : Ensures (f none) Q') :
    Ensures (Reader.accept? kind >>= f) fun taken left noted first next b =>
      (∃ t ts, taken = t :: ts ∧ t.is kind ∧ Q t ts left noted first next b) ∨
        ((∀ t ∈ (taken ++ left).head?, ¬ t.is kind) ∧ Q' taken left noted first next b) := by
  intro c
  by_cases hc : ∃ t ∈ c.rest.head?, t.is kind
  · obtain ⟨t, hhead, ht⟩ := hc
    obtain ⟨_ | ⟨_, rest⟩, errors, n⟩ := c
    · cases hhead
    · cases hhead
      rw [accept?_bind_of_is ht]
      refine Settles.mono (Settles.cons (h t ⟨rest, errors, n⟩)) ?_
      rintro _ left _ _ _ _ - ⟨ts, rfl, hq⟩
      exact .inl ⟨t, ts, rfl, ht, hq⟩
  · have hnone : ∀ t ∈ c.rest.head?, ¬ t.is kind := fun t ht his => hc ⟨t, ht, his⟩
    rw [accept?_bind_of_not hnone]
    exact (h' c).mono fun taken left _ _ _ _ hl hq => .inr ⟨hl ▸ hnone, hq⟩

theorem accept_bind (kind : TokenKind) (f : Bool → Reader β) :
    Reader.accept kind >>= f = Reader.accept? kind >>= fun t => f t.isSome := by
  simp [Reader.accept]

/-- The next token is taken if it has a given kind, and it is known whether it was. -/
theorem Ensures.accept {kind : TokenKind} {f : Bool → Reader β} {Q Q' : Post β}
    (h : Ensures (f true) Q) (h' : Ensures (f false) Q') :
    Ensures (Reader.accept kind >>= f) fun taken left noted first next b =>
      (∃ t ts, taken = t :: ts ∧ t.is kind ∧ Q ts left noted first next b) ∨
        ((∀ t ∈ (taken ++ left).head?, ¬ t.is kind) ∧ Q' taken left noted first next b) := by
  rw [accept_bind]
  exact Ensures.accept? (fun _ => h) h'

theorem expect_bind (kind : TokenKind) (fault : SyntaxFault) (f : Token → Reader β) :
    Reader.expect kind fault >>= f =
      Reader.accept? kind >>= fun t => t.elim (Reader.fail fault) f := by
  rw [Reader.expect, bind_assoc]
  congr 1
  funext t
  cases t <;> rfl

/-- The next token is taken and must have a given kind. -/
theorem Ensures.expect {kind : TokenKind} {fault : SyntaxFault} {f : Token → Reader β}
    {Q : Token → Post β} (h : ∀ t, Ensures (f t) (Q t)) :
    Ensures (Reader.expect kind fault >>= f) fun taken left noted first next b =>
      ∃ t ts, taken = t :: ts ∧ t.is kind ∧ Q t ts left noted first next b := by
  rw [expect_bind]
  refine (Ensures.accept? (fun t => h t) (Ensures.fail (Q := fun _ _ _ _ _ _ => False) fault)).mono ?_
  rintro taken left noted first next b (hq | ⟨-, ⟨⟩⟩)
  exact hq

theorem acceptBy?_bind {γ : Type} (g : Token → Option γ) (f : Option γ → Reader β) :
    Reader.acceptBy? g >>= f = Reader.peek? >>= fun t => match t.bind g with
      | some a => Reader.skip >>= fun _ => f (some a)
      | none => f none := by
  simp only [Reader.acceptBy?, bind_assoc]
  congr 1
  funext t
  cases t.bind g <;> simp

theorem acceptBy?_bind_of_some {γ : Type} {g : Token → Option γ} {f : Option γ → Reader β}
    {t : Token} {rest : List Token} {errors : List SyntaxError} {id : Nat} {a : γ}
    (ht : g t = some a) :
    (Reader.acceptBy? g >>= f) ⟨t :: rest, errors, id⟩ = f (some a) ⟨rest, errors, id⟩ := by
  rw [acceptBy?_bind, bind_apply, Reader.peek?]
  simp only [List.head?_cons, Option.bind_some, ht]
  rfl

theorem acceptBy?_bind_of_none {γ : Type} {g : Token → Option γ} {f : Option γ → Reader β}
    {c : Cursor} (h : ∀ t ∈ c.rest.head?, g t = none) :
    (Reader.acceptBy? g >>= f) c = f none c := by
  have hnone : c.rest.head?.bind g = none := Option.bind_eq_none_iff.mpr h
  rw [acceptBy?_bind, bind_apply, Reader.peek?]
  simp only [hnone]

/-- A token on which a function has a value is taken. -/
theorem Ensures.acceptBy? {γ : Type} {g : Token → Option γ} {f : Option γ → Reader β}
    {Q : γ → Post β} {Q' : Post β} (h : ∀ a, Ensures (f (some a)) (Q a)) (h' : Ensures (f none) Q') :
    Ensures (Reader.acceptBy? g >>= f) fun taken left noted first next b =>
      (∃ t a ts, taken = t :: ts ∧ g t = some a ∧ Q a ts left noted first next b) ∨
        ((∀ t ∈ (taken ++ left).head?, g t = none) ∧ Q' taken left noted first next b) := by
  intro c
  cases hc : c.rest.head?.bind g with
  | some a =>
    obtain ⟨t, hhead, ht⟩ := Option.bind_eq_some_iff.mp hc
    obtain ⟨_ | ⟨_, rest⟩, errors, n⟩ := c
    · cases hhead
    · cases hhead
      rw [acceptBy?_bind_of_some ht]
      refine Settles.mono (Settles.cons (h a ⟨rest, errors, n⟩)) ?_
      rintro _ left _ _ _ _ - ⟨ts, rfl, hq⟩
      exact .inl ⟨t, a, ts, rfl, ht, hq⟩
  | none =>
    have hnone : ∀ t ∈ c.rest.head?, g t = none := Option.bind_eq_none_iff.mp hc
    rw [acceptBy?_bind_of_none hnone]
    exact (h' c).mono fun taken left _ _ _ _ hl hq => .inr ⟨hl ▸ hnone, hq⟩

/-! ### Up to an end -/

/-- Whether a list of items ends before some tokens: at the end of the text or, within a block, at a
closing brace. -/
def endsItems (inBlock : Bool) (left : List Token) : Bool :=
  left.head?.isNone || (inBlock && left.head?.any (·.is (.mark .rightBrace)))

/-- Reads items unless they end. -/
def untilEnd (inBlock : Bool) (a : α) (x : Reader α) : Reader α := do
  if (← peek?).isNone || (inBlock && (← Reader.check (.mark .rightBrace))) then return a else x

theorem items_succ (bound : Nat) (inBlock : Bool) :
    items (bound + 1) inBlock = untilEnd inBlock [] do
      let first ← item bound
      let others ← items bound inBlock
      return first.toList ++ others :=
  rfl

theorem methods_succ (bound : Nat) : methods (bound + 1) = untilEnd true [] do
    let first ← routine bound .method
    return first :: (← methods bound) :=
  rfl

theorem untilEnd_of_ends {inBlock : Bool} {a : α} {x : Reader α} {c : Cursor}
    (h : endsItems inBlock c.rest = true) : untilEnd inBlock a x c = .ok a c :=
  congrFun (if_pos h) c

theorem untilEnd_of_not_ends {inBlock : Bool} {a : α} {x : Reader α} {c : Cursor}
    (h : endsItems inBlock c.rest = false) : untilEnd inBlock a x c = x c :=
  congrFun (if_neg (Bool.eq_false_iff.mp h)) c

/-- Nothing is read where the items end. -/
theorem Ensures.untilEnd {inBlock : Bool} {a : α} {x : Reader α} {Q : Post α} (h : Ensures x Q) :
    Ensures (untilEnd inBlock a x) fun taken left noted first next b =>
      (endsItems inBlock left = true ∧ taken = [] ∧ noted = [] ∧ first = next ∧ b = a) ∨
        Q taken left noted first next b := by
  intro c
  cases hc : endsItems inBlock c.rest with
  | true =>
    rw [untilEnd_of_ends hc]
    exact ⟨[], [], .refl c, .inl ⟨hc, rfl, rfl, rfl, rfl⟩⟩
  | false =>
    rw [untilEnd_of_not_ends hc]
    exact (h c).mono fun _ _ _ _ _ _ _ hq => .inr hq

/-! ### Going on after a fault -/

theorem recover_suffix (ts : List Token) : recover ts <:+ ts := by
  fun_induction recover ts with
  | case1 => exact List.suffix_refl _
  | case2 t rest => exact List.suffix_cons t rest
  | case3 t => exact List.suffix_cons t []
  | case4 t _ next rest => exact List.suffix_cons t (next :: rest)
  | case5 t _ next rest _ ih => exact ih.trans (List.suffix_cons t (next :: rest))

theorem orRecover_of_ok {r : Reader Stmt} {c d : Cursor} {s : Stmt} (h : r c = .ok s d) :
    Reader.orRecover r c = .ok (some s) d := by
  rw [Reader.orRecover, h]

theorem orRecover_of_error {r : Reader Stmt} {c d : Cursor} {e : SyntaxError}
    (h : r c = .error e d) : Reader.orRecover r c =
      .ok none { d with rest := recover d.rest, errors := d.errors ++ [e] } := by
  rw [Reader.orRecover, h]

/-- A reading that fails notes its fault. -/
theorem Ensures.orRecover {r : Reader Stmt} {Q : Post Stmt} (h : Ensures r Q) :
    Ensures (Reader.orRecover r) fun taken left noted first next s =>
      (∃ s', s = some s' ∧ Q taken left noted first next s') ∨
        (s = none ∧ noted ≠ [] ∧ first ≤ next) := by
  intro c
  have hc := h c
  unfold Reader.orRecover
  cases hr : r c with
  | ok s c' =>
    rw [hr] at hc
    obtain ⟨ts, ns, hl, hq⟩ := hc
    exact ⟨ts, ns, hl, .inl ⟨s, rfl, hq⟩⟩
  | error e c' =>
    rw [hr] at hc
    obtain ⟨-, ts, ns, hl⟩ := hc
    obtain ⟨skipped, hs⟩ := recover_suffix c'.rest
    refine ⟨ts ++ skipped, ns ++ [e], ⟨?_, ?_, hl.nextId⟩, .inr ⟨rfl, by simp, hl.nextId⟩⟩
    · rw [hl.rest, List.append_assoc, hs]
    · rw [hl.errors, List.append_assoc]

end Reader

end Treewalk
