import Treewalk.Proofs.Syntax.Reader

/-!
# Reading among other tokens

A reader looks at most one token ahead, and never at the faults that were noted before. So where it
leaves a token it does the same when more tokens follow, whatever faults there are: it answers the
same, or it fails at the same token. Where it leaves none it does the same only if it did not go on
just as far as there were tokens.

There is one rule for each way in which readers are put together, as there is for what a reader does
on any tokens. Readers that get a bound may get a larger one when more tokens follow; so with no
tokens to follow the rules say that a bound does not matter once it suffices.

## Main definitions

* `Surroundings`: the faults noted before, and the tokens that follow.
* `Reader.Keeps`: a reader that does the same in some surroundings.
* `Reader.FailsAtEnd`: a reader that does not answer where no token is left.

## Main results

* `Reader.Keeps.bind`, `Reader.Keeps.bindOpen`: one reader after another.
* `Reader.Keeps.accept?`, `Reader.Keeps.expect`: a token of a given kind.
* `Reader.Keeps.orRecover`: going on after a fault.
-/

namespace Treewalk

/-- What stands around some tokens. -/
structure Surroundings where
  /-- The faults noted before. -/
  earlier : List SyntaxError
  /-- The tokens that follow. -/
  later : List Token

/-- A cursor in its surroundings. -/
def Cursor.within (c : Cursor) (s : Surroundings) : Cursor :=
  { c with rest := c.rest ++ s.later, errors := s.earlier ++ c.errors }

/-- The cursor `c` has moved on to `c'`. -/
def Cursor.GoesTo (c c' : Cursor) : Prop :=
  ∃ taken noted, c.Leads taken noted c'

namespace Cursor.GoesTo

variable {c c' c'' : Cursor}

/-- Faults that are not there in the end were not there in between. -/
theorem errors_eq (h : c.GoesTo c') (h' : c'.GoesTo c'') (heq : c''.errors = c.errors) :
    c'.errors = c.errors ∧ c''.errors = c'.errors := by
  obtain ⟨ts, ns, hl⟩ := h
  obtain ⟨us, ms, hl'⟩ := h'
  rw [hl'.errors, hl.errors, List.append_assoc] at heq
  obtain ⟨rfl, rfl⟩ := List.append_eq_nil_iff.mp (List.append_right_eq_self.mp heq)
  exact ⟨by rw [hl.errors, List.append_nil], by rw [hl'.errors, List.append_nil]⟩

/-- What is left was there before. -/
theorem suffix (h : c.GoesTo c') : c'.rest <:+ c.rest := by
  obtain ⟨ts, ns, hl⟩ := h
  exact ⟨ts, hl.rest.symm⟩

theorem length_le (h : c.GoesTo c') : c'.rest.length ≤ c.rest.length :=
  h.suffix.length_le

/-- No token comes back. -/
theorem rest_eq_nil (h : c.GoesTo c') (hnil : c.rest = []) : c'.rest = [] :=
  List.suffix_nil.mp (hnil ▸ h.suffix)

end Cursor.GoesTo

namespace Reader

variable {α β : Type}

/-- A reader that does not answer where no token is left. -/
def FailsAtEnd (x : Reader α) : Prop :=
  ∀ c a d, c.rest = [] → x c ≠ .ok a d

/-- A reader that goes on. -/
abbrev Goes (x : Reader α) : Prop :=
  Ensures x fun _ _ _ _ _ _ => True

/-- A reader that takes a token whenever it answers. -/
abbrev TakesSome (x : Reader α) : Prop :=
  Ensures x fun taken _ _ _ _ _ => taken ≠ []

/-- What the reader `x` does at a cursor, the reader `y` does in the surroundings `s`; but where
tokens follow and `x` leaves none, only if `x` answers and `all` holds. -/
structure KeepsAt (all : Prop) (s : Surroundings) (x y : Reader α) (c : Cursor) : Prop where
  answer : ∀ {a d}, x c = .ok a d → (s.later ≠ [] → d.rest = [] → all) →
    y (c.within s) = .ok a (d.within s)
  failure : ∀ {e d}, x c = .error e d → (s.later ≠ [] → d.rest ≠ []) →
    y (c.within s) = .error e (d.within s)

/-- Where the reader `x` finds fewer than `n` tokens, the reader `y` does the same in the
surroundings `s`. -/
structure Keeps (all : Prop) (n : Nat) (s : Surroundings) (x y : Reader α) : Prop where
  goes : Goes x
  same : ∀ c, c.rest.length < n → KeepsAt all s x y c

theorem Goes.goesTo {x : Reader α} (h : Goes x) {c d : Cursor} {a : α} (hx : x c = .ok a d) :
    c.GoesTo d := by
  have hc := h c
  rw [hx] at hc
  obtain ⟨ts, ns, hl, -⟩ := hc
  exact ⟨ts, ns, hl⟩

theorem Goes.goesTo_error {x : Reader α} (h : Goes x) {c d : Cursor} {e : SyntaxError}
    (hx : x c = .error e d) : c.GoesTo d := by
  have hc := h c
  rw [hx] at hc
  exact hc.2

/-- A reader fails at the token at which it stands. -/
theorem Goes.found_eq {x : Reader α} (h : Goes x) {c d : Cursor} {e : SyntaxError}
    (hx : x c = .error e d) : e.found = d.rest.head? := by
  have hc := h c
  rw [hx] at hc
  exact hc.1

theorem Ensures.goes {x : Reader α} {Q : Post α} (h : Ensures x Q) : Goes x :=
  h.mono fun _ _ _ _ _ _ _ => trivial

/-! ### Taking a token -/

namespace TakesSome

theorem bind_right {x : Reader α} {f : α → Reader β} (hx : Goes x) (hf : ∀ a, TakesSome (f a)) :
    TakesSome (x >>= f) := by
  refine (hx.bind hf).mono ?_
  rintro _ _ _ _ _ _ ⟨_, _, us, _, _, _, rfl, -, -, hus⟩ hnil
  exact hus (List.append_eq_nil_iff.mp hnil).2

theorem expect {kind : TokenKind} {fault : SyntaxFault} {f : Token → Reader β}
    (hf : ∀ t, Goes (f t)) : TakesSome (Reader.expect kind fault >>= f) := by
  refine (Ensures.expect hf).mono ?_
  rintro _ _ _ _ _ _ ⟨t, ts, rfl, -⟩
  exact List.cons_ne_nil t ts

theorem accept? {kind : TokenKind} {f : Option Token → Reader β} (h : ∀ t, Goes (f (some t)))
    (h' : TakesSome (f none)) : TakesSome (Reader.accept? kind >>= f) := by
  refine (Ensures.accept? h h').mono ?_
  rintro _ _ _ _ _ _ (⟨t, ts, rfl, -⟩ | ⟨-, hne⟩)
  · exact List.cons_ne_nil t ts
  · exact hne

theorem accept {kind : TokenKind} {f : Bool → Reader β} (h : Goes (f true))
    (h' : TakesSome (f false)) : TakesSome (Reader.accept kind >>= f) := by
  rw [accept_bind]
  exact accept? (fun _ => h) h'

/-- A reader that takes a token leaves fewer. -/
theorem length_lt {x : Reader α} (h : TakesSome x) {c d : Cursor} {a : α}
    (hx : x c = .ok a d) : d.rest.length < c.rest.length := by
  have hc := h c
  rw [hx] at hc
  obtain ⟨taken, noted, hl, hne⟩ := hc
  rw [hl.rest, List.length_append]
  exact Nat.lt_add_of_pos_left (List.length_pos_iff.mpr hne)

end TakesSome

/-! ### Readers one after another -/

/-- Two readers of which the first one answers, and so does the second one. -/
theorem exists_of_bind {x : Reader α} {f : α → Reader β} {c d : Cursor} {b : β}
    (h : (x >>= f) c = .ok b d) : ∃ a c', x c = .ok a c' ∧ f a c' = .ok b d := by
  rw [bind_apply] at h
  cases hx : x c with
  | ok a c' =>
    rw [hx] at h
    exact ⟨a, c', rfl, h⟩
  | error e c' =>
    rw [hx] at h
    cases h

/-- Two readers of which the second one fails, or already the first one. -/
theorem error_of_bind {x : Reader α} {f : α → Reader β} {c d : Cursor} {e : SyntaxError}
    (h : (x >>= f) c = .error e d) :
    x c = .error e d ∨ ∃ a c', x c = .ok a c' ∧ f a c' = .error e d := by
  rw [bind_apply] at h
  cases hx : x c with
  | ok a c' =>
    rw [hx] at h
    exact .inr ⟨a, c', rfl, h⟩
  | error e c' =>
    rw [hx] at h
    cases h
    exact .inl rfl

/-! ### Failing at the end -/

namespace FailsAtEnd

variable {x : Reader α} {f : α → Reader β} {kind : TokenKind}

theorem bind (h : FailsAtEnd x) (f : α → Reader β) : FailsAtEnd (x >>= f) := by
  intro c b d hc heq
  obtain ⟨a, c', hx, -⟩ := exists_of_bind heq
  exact h c a c' hc hx

theorem bind_of_goes (hx : Goes x) (h : ∀ a, FailsAtEnd (f a)) : FailsAtEnd (x >>= f) := by
  intro c b d hc heq
  obtain ⟨a, c', hx', hf⟩ := exists_of_bind heq
  exact h a c' b d ((hx.goesTo hx').rest_eq_nil hc) hf

theorem expect (kind : TokenKind) (fault : SyntaxFault) : FailsAtEnd (Reader.expect kind fault) := by
  rintro ⟨rest, errors, n⟩ a d rfl heq
  cases heq

/-- A token that is asked for is not there. -/
theorem accept?_bind {f : Option Token → Reader β} (h : FailsAtEnd (f none)) :
    FailsAtEnd (Reader.accept? kind >>= f) := by
  rintro ⟨rest, errors, n⟩ b d rfl heq
  exact h _ b d rfl heq

theorem accept_bind {f : Bool → Reader β} (h : FailsAtEnd (f false)) :
    FailsAtEnd (Reader.accept kind >>= f) := by
  rw [Reader.accept_bind]
  exact accept?_bind h

end FailsAtEnd

/-! ### At one cursor -/

namespace KeepsAt

variable {all all' : Prop} {n : Nat} {s : Surroundings} {x y : Reader α} {f g : α → Reader β}
  {c : Cursor}

theorem mono (h : KeepsAt all s x y c) (hall : all' → all) : KeepsAt all' s x y c :=
  ⟨fun hx hrest => h.answer hx fun hs hnil => hall (hrest hs hnil), h.failure⟩

/-- A reading that goes on as another one. -/
theorem of_eq {x' y' : Reader α} {c' : Cursor} (hx : x c = x' c')
    (hy : y (c.within s) = y' (c'.within s)) (h : KeepsAt all s x' y' c') : KeepsAt all s x y c :=
  ⟨fun heq hrest => hy.trans (h.answer (hx.symm.trans heq) hrest),
    fun heq hrest => hy.trans (h.failure (hx.symm.trans heq) hrest)⟩

protected theorem pure (a : α) : KeepsAt all s (Pure.pure a) (Pure.pure a) c := by
  constructor
  · rintro _ _ ⟨⟩ -
    rfl
  · rintro _ _ ⟨⟩

/-- A failure stays one at the same token. -/
protected theorem fail (fault : SyntaxFault) :
    KeepsAt all s (Reader.fail fault : Reader α) (Reader.fail fault) c := by
  constructor
  · rintro _ _ ⟨⟩
  · rintro _ _ ⟨⟩ hrest
    have hhead : (c.rest ++ s.later).head? = c.rest.head? := by
      cases hc : c.rest with
      | cons t rest => rfl
      | nil =>
        rw [List.nil_append, Classical.not_not.mp fun hs => hrest hs hc]
    change EStateM.Result.error (⟨(c.rest ++ s.later).head?, fault⟩ : SyntaxError) _ = _
    rw [hhead]

/-- One reader after another. The second one may come only where the first one has left a token. -/
theorem bind_of_rest (hx : KeepsAt all' s x y c) (hgoes : ∀ a, Goes (f a))
    (hf : ∀ a c', x c = .ok a c' → KeepsAt all s (f a) (g a) c')
    (hall : ∀ a c' b d, x c = .ok a c' → f a c' = .ok b d → c'.rest = [] → all → all') :
    KeepsAt all s (x >>= f) (y >>= g) c := by
  constructor
  · intro b d heq hrest
    obtain ⟨a, c', hxa, hfb⟩ := exists_of_bind heq
    have hsame := hx.answer hxa fun hs hnil =>
      hall a c' b d hxa hfb hnil (hrest hs (((hgoes a).goesTo hfb).rest_eq_nil hnil))
    rw [bind_apply, hsame]
    exact (hf a c' hxa).answer hfb hrest
  · intro e d heq hrest
    rcases error_of_bind heq with hxe | ⟨a, c', hxa, hfe⟩
    · rw [bind_apply, hx.failure hxe hrest]
    · have hsame := hx.answer hxa fun hs hnil =>
        absurd (((hgoes a).goesTo_error hfe).rest_eq_nil hnil) (hrest hs)
      rw [bind_apply, hsame]
      exact (hf a c' hxa).failure hfe hrest

/-- The next token, if there is one or none follows. -/
theorem head?_within (hc : s.later ≠ [] → c.rest ≠ []) :
    (c.within s).rest.head? = c.rest.head? := by
  unfold Cursor.within
  cases hrest : c.rest with
  | cons t rest => rfl
  | nil =>
    rw [List.nil_append, Classical.not_not.mp fun hs => hc hs hrest]

end KeepsAt

/-! ### Below a number of tokens -/

namespace Keeps

variable {all all' : Prop} {n n' : Nat} {s : Surroundings} {x y : Reader α} {f g : α → Reader β}

theorem mono (h : Keeps all n s x y) (hall : all' → all) (hle : n' ≤ n) : Keeps all' n' s x y :=
  ⟨h.goes, fun c hc => (h.same c (Nat.lt_of_lt_of_le hc hle)).mono hall⟩

/-- Fewer tokens. -/
theorem of_le (h : Keeps all n s x y) (hle : n' ≤ n) : Keeps all n' s x y :=
  h.mono id hle

protected theorem pure (a : α) : Keeps all n s (Pure.pure a) (Pure.pure a) :=
  ⟨(Ensures.pure a).goes, fun _ _ => .pure a⟩

/-- Where no token can be found, nothing is asked for. -/
theorem of_goes (h : Goes x) (y : Reader α) : Keeps all 0 s x y :=
  ⟨h, fun _ hc => absurd hc (Nat.not_lt_zero _)⟩

/-- A failure stays one at the same token. -/
protected theorem fail (fault : SyntaxFault) :
    Keeps all n s (Reader.fail fault : Reader α) (Reader.fail fault) :=
  ⟨Ensures.fail fault, fun _ _ => .fail fault⟩

/-- One reader after another. The second one may come only where the first one has left a token. -/
theorem bind_of_rest (hx : Keeps all' n s x y) (hf : ∀ a, Keeps all n s (f a) (g a))
    (hall : ∀ a c b d, f a c = .ok b d → c.rest = [] → all → all') :
    Keeps all n s (x >>= f) (y >>= g) := by
  refine ⟨(hx.goes.bind fun a => (hf a).goes).goes, fun c hc => ?_⟩
  refine (hx.same c hc).bind_of_rest (fun a => (hf a).goes) (fun a c' hxa => ?_)
    fun a c' b d _ hfb hnil => hall a c' b d hfb hnil
  exact (hf a).same c' (Nat.lt_of_le_of_lt (hx.goes.goesTo hxa).length_le hc)

/-- One reader after another, where the first one answers the same in every case. -/
protected theorem bind (hx : Keeps True n s x y) (hf : ∀ a, Keeps all n s (f a) (g a)) :
    Keeps all n s (x >>= f) (y >>= g) :=
  hx.bind_of_rest hf fun _ _ _ _ _ _ _ => trivial

/-- One reader after another, where the first one may have gone on just as far as there were
tokens. -/
theorem bindOpen (hx : Keeps False n s x y) (hf : ∀ a, Keeps all n s (f a) (g a))
    (hend : all → ∀ a, FailsAtEnd (f a)) : Keeps all n s (x >>= f) (y >>= g) :=
  hx.bind_of_rest hf fun a c b d hfb hnil hall => hend hall a c b d hnil hfb

/-- A reader whose bound is the number of tokens left. -/
protected theorem bounded {r r' : Nat → Reader α}
    (h : ∀ {k k' m}, k ≤ k' → m ≤ k + 1 → m ≤ n → Keeps all m s (r k) (r' k')) :
    Keeps all n s (Reader.bounded r) (Reader.bounded r') := by
  refine ⟨Ensures.bounded fun k =>
    (h (Nat.le_refl k) (Nat.zero_le _) (Nat.zero_le n)).goes, fun c hc => ?_⟩
  have hle : c.rest.length ≤ (c.within s).rest.length := by
    simp [Cursor.within]
  have hat := (h hle (Nat.le_refl _) hc).same c (Nat.lt_succ_self _)
  exact ⟨hat.answer, hat.failure⟩

/-- A number is drawn first. -/
theorem freshId {f g : Nat → Reader β} (h : ∀ id, Keeps all n s (f id) (g id)) :
    Keeps all n s (Reader.freshId >>= f) (Reader.freshId >>= g) := by
  refine ⟨(Ensures.freshId fun id => (h id).goes).goes, fun c hc => ?_⟩
  have hat := (h c.nextId).same { c with nextId := c.nextId + 1 } hc
  exact ⟨hat.answer, hat.failure⟩

/-- A fault is noted. -/
theorem note (error : SyntaxError) : Keeps all n s (Reader.note error) (Reader.note error) := by
  refine ⟨(Ensures.note error).goes, fun c _ => ?_⟩
  constructor
  · rintro _ _ ⟨⟩ -
    simp [Reader.note, Cursor.within]
  · rintro _ _ ⟨⟩

/-- A reading that fails notes its fault and goes on where a statement can begin. -/
theorem orRecover {x y : Reader Stmt} (h : Keeps True n s x y)
    (hrecover : ∀ ts, recover ts ≠ [] → recover (ts ++ s.later) = recover ts ++ s.later) :
    Keeps False n s (Reader.orRecover x) (Reader.orRecover y) := by
  refine ⟨(Ensures.orRecover h.goes).goes, fun c hc => ?_⟩
  have hat := h.same c hc
  constructor
  · intro a d heq hrest
    cases hr : x c with
    | ok s' c' =>
      rw [orRecover_of_ok hr] at heq
      cases heq
      exact orRecover_of_ok (hat.answer hr fun _ _ => trivial)
    | error e c' =>
      rw [orRecover_of_error hr] at heq
      cases heq
      have hnil (hs : s.later ≠ []) : c'.rest ≠ [] := by
        intro hc'
        exact hrest hs (by rw [hc']; rfl)
      have hleft : recover (c'.rest ++ s.later) = recover c'.rest ++ s.later := by
        by_cases hs : s.later = []
        · rw [hs, List.append_nil, List.append_nil]
        · exact hrecover c'.rest (hrest hs)
      rw [orRecover_of_error (hat.failure hr hnil)]
      simp [Cursor.within, hleft]
  · intro e d heq
    cases hr : x c with
    | ok s' c' =>
      rw [orRecover_of_ok hr] at heq
      cases heq
    | error e c' =>
      rw [orRecover_of_error hr] at heq
      cases heq

/-! ### The next token -/

/-- The next token is looked at first, where there may be none. -/
theorem peek? {f g : Option Token → Reader β} (h : ∀ t, Keeps all n s (f t) (g t))
    (hend : all → FailsAtEnd (f none)) :
    Keeps all n s (Reader.peek? >>= f) (Reader.peek? >>= g) := by
  refine ⟨(Ensures.peek? fun t => (h t).goes).goes, fun c hc => ?_⟩
  have hat := (h c.rest.head?).same c hc
  have hg (hne : s.later ≠ [] → c.rest ≠ []) : (Reader.peek? >>= g) (c.within s) =
      g c.rest.head? (c.within s) := by
    rw [← KeepsAt.head?_within hne]
    rfl
  constructor
  · intro b d heq hrest
    refine (hg fun hs hnil => ?_).trans (hat.answer heq hrest)
    have heq : f none c = .ok b d := by
      rwa [bind_apply, Reader.peek?, hnil] at heq
    exact hend (hrest hs (((h none).goes.goesTo heq).rest_eq_nil hnil)) c b d hnil heq
  · intro e d heq hrest
    refine (hg fun hs hnil => ?_).trans (hat.failure heq hrest)
    exact hrest hs (((h _).goes.goesTo_error heq).rest_eq_nil hnil)

/-- The next token is looked at for its kind, where there may be none. -/
theorem check {kind : TokenKind} {f g : Bool → Reader β} (h : ∀ b, Keeps all n s (f b) (g b))
    (hend : all → FailsAtEnd (f false)) :
    Keeps all n s (Reader.check kind >>= f) (Reader.check kind >>= g) :=
  peek? (f := fun t => f (t.any (·.is kind))) (g := fun t => g (t.any (·.is kind)))
    (fun t => h (t.any (·.is kind))) hend

/-- A fault is noted at the next token if as many as are allowed stand before it, and something has
to follow. -/
theorem noteBeyond (count : Nat) (fault : SyntaxFault) {f g : Unit → Reader β}
    (h : Keeps all n s (f ()) (g ())) (hend : all → FailsAtEnd (f ())) :
    Keeps all n s (Reader.noteBeyond count fault >>= f)
      (Reader.noteBeyond count fault >>= g) := by
  unfold Reader.noteBeyond
  split
  · rw [Reader.noteHere, bind_assoc, bind_assoc]
    refine .peek? (fun t => (Keeps.note ⟨t, fault⟩).bind fun _ => h) fun hall => ?_
    refine .bind_of_goes (Ensures.note _).goes fun _ => hend hall
  · exact (Keeps.pure ()).bind fun _ => h

/-- Nothing is read where the items end. -/
theorem untilEnd {inBlock : Bool} {a : α} {x y : Reader α} (hgoes : Goes x)
    (h : ∀ c, c.rest ≠ [] → c.rest.length < n → KeepsAt False s x y c) :
    Keeps False n s (Reader.untilEnd inBlock a x) (Reader.untilEnd inBlock a y) := by
  refine ⟨hgoes.untilEnd.goes, fun c hc => ?_⟩
  -- The next token decides, so there has to be one where tokens follow.
  have hends (hne : s.later ≠ [] → c.rest ≠ []) :
      endsItems inBlock (c.within s).rest = endsItems inBlock c.rest := by
    rw [endsItems, KeepsAt.head?_within hne, endsItems]
  cases hc' : endsItems inBlock c.rest with
  | true =>
    constructor
    · intro b d heq hrest
      rw [untilEnd_of_ends hc'] at heq
      cases heq
      exact untilEnd_of_ends ((hends hrest).trans hc')
    · intro e d heq
      rw [untilEnd_of_ends hc'] at heq
      cases heq
  | false =>
    have hne : c.rest ≠ [] := by
      rintro hnil
      rw [hnil] at hc'
      cases hc'
    exact .of_eq (untilEnd_of_not_ends hc')
      (untilEnd_of_not_ends ((hends fun _ => hne).trans hc')) (h c hne hc)

section Accept

variable {kind : TokenKind} {f g : Option Token → Reader β}

/-- A token that is there is taken if it has a given kind. What happens where there is none is said
apart. -/
theorem accept?_of_nil (h : ∀ t, Keeps all (n - 1) s (f (some t)) (g (some t)))
    (h' : Keeps all n s (f none) (g none))
    (hnil : ∀ c, c.rest = [] → 0 < n →
      KeepsAt all s (Reader.accept? kind >>= f) (Reader.accept? kind >>= g) c) :
    Keeps all n s (Reader.accept? kind >>= f) (Reader.accept? kind >>= g) := by
  refine ⟨(Ensures.accept? (fun t => (h t).goes) h'.goes).goes, ?_⟩
  rintro ⟨_ | ⟨t, rest⟩, errors, id⟩ hc
  · exact hnil ⟨[], errors, id⟩ rfl hc
  · by_cases ht : t.is kind
    · exact .of_eq (accept?_bind_of_is ht) (accept?_bind_of_is ht)
        ((h t).same ⟨rest, errors, id⟩ (Nat.lt_sub_of_add_lt (by simpa using hc)))
    · have hnot (ts : List Token) : ∀ t' ∈ (t :: ts).head?, ¬ t'.is kind := by
        rintro _ ⟨⟩
        exact ht
      exact .of_eq (accept?_bind_of_not (hnot rest)) (accept?_bind_of_not (hnot (rest ++ s.later)))
        (h'.same ⟨t :: rest, errors, id⟩ hc)

/-- Where no token is left and none of the kind follows, no token is taken. -/
theorem accept?_nil {c : Cursor} (hrest : c.rest = []) (hs : ∀ t ∈ s.later.head?, ¬ t.is kind)
    (h' : KeepsAt all s (f none) (g none) c) :
    KeepsAt all s (Reader.accept? kind >>= f) (Reader.accept? kind >>= g) c := by
  refine .of_eq (accept?_bind_of_not fun t ht => ?_) (accept?_bind_of_not fun t ht => ?_) h'
  · rw [hrest] at ht
    cases ht
  · exact hs t (by simpa [Cursor.within, hrest] using ht)

/-- The next token is taken if it has a given kind; where there is none, none may be missed. -/
theorem accept? (h : ∀ t, Keeps all (n - 1) s (f (some t)) (g (some t)))
    (h' : Keeps all n s (f none) (g none)) (hend : all → FailsAtEnd (f none)) :
    Keeps all n s (Reader.accept? kind >>= f) (Reader.accept? kind >>= g) := by
  refine accept?_of_nil h h' fun c hc hpos => ?_
  have hf : (Reader.accept? kind >>= f) c = f none c := by
    simp [bind_apply, Reader.accept?, hc]
  by_cases hs : s.later = []
  · refine accept?_nil hc (fun t ht => ?_) (h'.same c (by rwa [hc]))
    rw [hs] at ht
    cases ht
  · refine ⟨fun heq hd => ?_, fun heq hd => ?_⟩
    · rw [hf] at heq
      have hnil := (h'.goes.goesTo heq).rest_eq_nil hc
      exact absurd heq (hend (hd hs hnil) c _ _ hc)
    · rw [hf] at heq
      exact absurd ((h'.goes.goesTo_error heq).rest_eq_nil hc) (hd hs)

end Accept

/-- The next token is taken if it has a given kind, and it is known whether it was. -/
theorem accept {kind : TokenKind} {f g : Bool → Reader β}
    (h : Keeps all (n - 1) s (f true) (g true)) (h' : Keeps all n s (f false) (g false))
    (hend : all → FailsAtEnd (f false)) :
    Keeps all n s (Reader.accept kind >>= f) (Reader.accept kind >>= g) := by
  rw [accept_bind, accept_bind]
  exact accept? (fun _ => h) h' hend

/-- The next token is taken if it has a given kind, and none of that kind follows. -/
theorem acceptUnlessNext {kind : TokenKind} {f g : Bool → Reader β}
    (hs : ∀ t ∈ s.later.head?, ¬ t.is kind) (h : Keeps all (n - 1) s (f true) (g true))
    (h' : Keeps all n s (f false) (g false)) :
    Keeps all n s (Reader.accept kind >>= f) (Reader.accept kind >>= g) := by
  rw [accept_bind, accept_bind]
  exact accept?_of_nil (fun _ => h) h' fun c hc hpos =>
    accept?_nil hc hs (h'.same c (by rwa [hc]))

/-- The next token is taken and must have a given kind. -/
theorem expect {kind : TokenKind} {fault : SyntaxFault} {f g : Token → Reader β}
    (h : ∀ t, Keeps all (n - 1) s (f t) (g t)) :
    Keeps all n s (Reader.expect kind fault >>= f) (Reader.expect kind fault >>= g) := by
  rw [expect_bind, expect_bind]
  exact accept? h (.fail fault) fun _ _ _ _ _ heq => nomatch heq

/-- A token on which a function has a value is taken. -/
theorem acceptBy? {γ : Type} {v : Token → Option γ} {f g : Option γ → Reader β}
    (h : ∀ a, Keeps all (n - 1) s (f (some a)) (g (some a)))
    (h' : Keeps all n s (f none) (g none)) (hend : all → FailsAtEnd (f none)) :
    Keeps all n s (Reader.acceptBy? v >>= f) (Reader.acceptBy? v >>= g) := by
  refine ⟨(Ensures.acceptBy? (fun a => (h a).goes) h'.goes).goes, ?_⟩
  intro c hc
  cases hv : c.rest.head?.bind v with
  | none =>
    have hat := h'.same c hc
    have hf : (Reader.acceptBy? v >>= f) c = f none c :=
      acceptBy?_bind_of_none (Option.bind_eq_none_iff.mp hv)
    -- The next token is the same with more tokens to follow, if there is one.
    have hg (hne : s.later ≠ [] → c.rest ≠ []) :
        (Reader.acceptBy? v >>= g) (c.within s) = g none (c.within s) := by
      refine acceptBy?_bind_of_none (Option.bind_eq_none_iff.mp ?_)
      rw [KeepsAt.head?_within hne, hv]
    refine ⟨fun heq hrest => ?_, fun heq hrest => ?_⟩
    · rw [hf] at heq
      refine (hg fun hs hnil => ?_).trans (hat.answer heq hrest)
      exact hend (hrest hs ((h'.goes.goesTo heq).rest_eq_nil hnil)) c _ _ hnil heq
    · rw [hf] at heq
      refine (hg fun hs hnil => ?_).trans (hat.failure heq hrest)
      exact hrest hs ((h'.goes.goesTo_error heq).rest_eq_nil hnil)
  | some a =>
    obtain ⟨t, ht, hv⟩ := Option.bind_eq_some_iff.mp hv
    obtain ⟨_ | ⟨_, rest⟩, errors, id⟩ := c
    · cases ht
    · cases ht
      exact .of_eq (acceptBy?_bind_of_some hv) (acceptBy?_bind_of_some hv)
        ((h a).same ⟨rest, errors, id⟩ (Nat.lt_sub_of_add_lt (by simpa using hc)))

end Keeps

end Reader

end Treewalk
