import Treewalk.Proofs.Syntax.Surrounded
import Treewalk.Proofs.Syntax.Texts

/-!
# Readers and the texts that may come

Before a reading certain texts may come, and after it others. A reader *expects* one language before
and another one after it if it keeps track of this: as long as there is no fault, what has been read
followed by what may come now is what might have come, and nothing else is, seen from the next token;
and at the first fault what has been read can still be completed, but not together with the next
token.

Faults that are only noted, about targets of assignments and about too many arguments or parameters,
are *tolerated*. Reading goes on as if they were none.

There is one rule for each way in which readers are put together.

## Main definitions

* `SyntaxFault.isTolerated`, `firstFault?`: the first fault that is not tolerated.
* `Passes`, `Sticks`: what is known after a reading without a fault, and at the first fault.
* `Reader.Expects`: a reader between two languages.

## Main results

* `Reader.Expects.bind`: one reader after another.
* `Reader.Expects.expect`, `Reader.Expects.accept?`: a token of a given kind.
* `Reader.Expects.orRecover`: going on after a fault.
-/

namespace Treewalk

/-! ### The first fault -/

/-- The faults at which reading goes on as if there were none. -/
def SyntaxFault.isTolerated : SyntaxFault → Bool
  | tooManyParameters | tooManyArguments | invalidTarget => true
  | _ => false

/-- The first fault that is not tolerated. -/
def firstFault? (errors : List SyntaxError) : Option SyntaxError :=
  errors.find? fun e => !e.fault.isTolerated

theorem firstFault?_append (errors errors' : List SyntaxError) :
    firstFault? (errors ++ errors') = (firstFault? errors).or (firstFault? errors') :=
  List.find?_append

/-- The sign of the next token. -/
def nextSign (ts : List Token) : Sign :=
  ts.head?.elim .endOfText Token.sign

/-- Tokens that are read begin with the next token. -/
theorem exists_eq_nextSign (before left : List Token) (w : List Sign) :
    ∃ w', before.map Token.sign ++ nextSign left :: w = nextSign (before ++ left) :: w' := by
  cases before with
  | nil => exact ⟨w, rfl⟩
  | cons t before => exact ⟨_, rfl⟩

/-! ### Expected texts -/

/-- Tokens that were read between two languages: what follows them is expected if and only if it is
expected after them together with these tokens, provided that it begins with the next token. -/
structure Passes (L K : Language Sign) (taken left : List Token) : Prop where
  sound : ∀ w ∈ K, taken.map Token.sign ++ w ∈ L
  exact : ∀ w, taken.map Token.sign ++ nextSign left :: w ∈ L → nextSign left :: w ∈ K

/-- The fault is at the first token with which the tokens are no beginning of an expected text. -/
def Sticks (L : Language Sign) (ts : List Token) (e : SyntaxError) : Prop :=
  ∃ before left, ts = before ++ left ∧ e.found = left.head? ∧
    (∃ w, before.map Token.sign ++ w ∈ L) ∧
    ∀ w, before.map Token.sign ++ nextSign left :: w ∉ L

section Reading

variable {L M K : Language Sign} {taken left : List Token}

theorem Passes.refl (K : Language Sign) (left : List Token) : Passes K K [] left :=
  ⟨fun _ h => h, fun _ h => h⟩

theorem Passes.trans {us : List Token} (h : Passes L M taken (us ++ left))
    (h' : Passes M K us left) : Passes L K (taken ++ us) left := by
  constructor
  · intro w hw
    rw [List.map_append, List.append_assoc]
    exact h.sound _ (h'.sound w hw)
  · intro w hw
    rw [List.map_append, List.append_assoc] at hw
    obtain ⟨w', heq⟩ := exists_eq_nextSign us left w
    rw [heq] at hw
    refine h'.exact w ?_
    rw [heq]
    exact h.exact w' hw

/-- A fault behind tokens that were read. -/
theorem Passes.sticks {e : SyntaxError} (h : Passes L M taken left) (h' : Sticks M left e) :
    Sticks L (taken ++ left) e := by
  obtain ⟨before, rest, rfl, hfound, ⟨w, hw⟩, hnone⟩ := h'
  refine ⟨taken ++ before, rest, (List.append_assoc _ _ _).symm, hfound, ⟨w, ?_⟩, fun w hw => ?_⟩
  · rw [List.map_append, List.append_assoc]
    exact h.sound _ hw
  · rw [List.map_append, List.append_assoc] at hw
    obtain ⟨w', heq⟩ := exists_eq_nextSign before rest w
    rw [heq] at hw
    refine hnone w ?_
    rw [heq]
    exact h.exact w' hw

/-- What may come decides only with the texts that begin with the next token. -/
theorem Passes.of_next (h : Passes M K taken left) (hle : ∀ w ∈ M, w ∈ L)
    (hnext : ∀ w, nextSign (taken ++ left) :: w ∈ L → nextSign (taken ++ left) :: w ∈ M) :
    Passes L K taken left := by
  refine ⟨fun w hw => hle _ (h.sound w hw), fun w hw => h.exact w ?_⟩
  obtain ⟨w', heq⟩ := exists_eq_nextSign taken left w
  rw [heq] at hw ⊢
  exact hnext w' hw

theorem Sticks.of_next {ts : List Token} {e : SyntaxError} (h : Sticks M ts e)
    (hle : ∀ w ∈ M, w ∈ L) (hnext : ∀ w, nextSign ts :: w ∈ L → nextSign ts :: w ∈ M) :
    Sticks L ts e := by
  obtain ⟨before, left, rfl, hfound, ⟨w, hw⟩, hnone⟩ := h
  refine ⟨before, left, rfl, hfound, ⟨w, hle _ hw⟩, fun w hw => hnone w ?_⟩
  obtain ⟨w', heq⟩ := exists_eq_nextSign before left w
  rw [heq] at hw ⊢
  exact hnext w' hw

/-- A token of which a text is expected together with what follows it. -/
theorem Passes.cons {t : Token} (h : Passes M K taken left)
    (ht : ∀ w, t.sign :: w ∈ L ↔ w ∈ M) : Passes L K (t :: taken) left :=
  ⟨fun w hw => (ht _).mpr (h.sound w hw), fun w hw => h.exact w ((ht _).mp hw)⟩

theorem Sticks.cons {t : Token} {ts : List Token} {e : SyntaxError} (h : Sticks M ts e)
    (ht : ∀ w, t.sign :: w ∈ L ↔ w ∈ M) : Sticks L (t :: ts) e := by
  obtain ⟨before, left, rfl, hfound, ⟨w, hw⟩, hnone⟩ := h
  exact ⟨t :: before, left, rfl, hfound, ⟨w, (ht _).mpr hw⟩, fun w hw => hnone w ((ht _).mp hw)⟩

end Reading

namespace Reader

variable {α β : Type}

/-- An outcome of a reading that began at a cursor, between two languages: the reader has gone on,
and without a fault the tokens that it took pass; otherwise the first fault is where the tokens
stick. -/
def Meets (L K : Language Sign) (c : Cursor) : EStateM.Result SyntaxError Cursor α → Prop
  | .ok _ d => ∃ taken noted, c.Leads taken noted d ∧
      ((firstFault? noted = none ∧ Passes L K taken d.rest) ∨
        ∃ e, firstFault? noted = some e ∧ Sticks L c.rest e)
  | .error e d => ∃ taken noted, c.Leads taken noted d ∧
      ∃ e', firstFault? (noted ++ [e]) = some e' ∧ Sticks L c.rest e'

/-- Where a reader finds fewer than `n` tokens, it keeps track of what may come: the texts of `L`
before it, and those of `K` after it. -/
structure Expects (r : Reader α) (n : Nat) (L K : Language Sign) : Prop where
  goes : Goes r
  nonempty : ∃ w, w ∈ L
  meets : ∀ c, c.rest.length < n → Meets L K c (r c)

variable {L M K : Language Sign} {c : Cursor}

/-! ### At one cursor -/

namespace Meets

protected theorem pure (a : α) : Meets K K c ((Pure.pure a : Reader α) c) :=
  ⟨[], [], .refl c, .inl ⟨rfl, .refl K c.rest⟩⟩

theorem of_next {o : EStateM.Result SyntaxError Cursor α} (h : Meets M K c o)
    (hle : ∀ w ∈ M, w ∈ L)
    (hnext : ∀ w, nextSign c.rest :: w ∈ L → nextSign c.rest :: w ∈ M) : Meets L K c o := by
  cases o with
  | ok a d =>
    obtain ⟨taken, noted, hl, hsettled⟩ := h
    refine ⟨taken, noted, hl, ?_⟩
    rcases hsettled with ⟨hnone, hpasses⟩ | ⟨e, hsome, hsticks⟩
    · rw [hl.rest] at hnext
      exact .inl ⟨hnone, hpasses.of_next hle hnext⟩
    · exact .inr ⟨e, hsome, hsticks.of_next hle hnext⟩
  | error e d =>
    obtain ⟨taken, noted, hl, e', hsome, hsticks⟩ := h
    exact ⟨taken, noted, hl, e', hsome, hsticks.of_next hle hnext⟩

/-- Other texts that may come do not matter if none of them begins with the next token. -/
theorem add_left {o : EStateM.Result SyntaxError Cursor α} (h : Meets L K c o)
    (hM : ∀ w, nextSign c.rest :: w ∉ M) : Meets (L + M) K c o :=
  h.of_next (fun _ => .inl) fun w hw => hw.resolve_right (hM w)

theorem add_right {o : EStateM.Result SyntaxError Cursor α} (h : Meets M K c o)
    (hL : ∀ w, nextSign c.rest :: w ∉ L) : Meets (L + M) K c o :=
  h.of_next (fun _ => .inr) fun w hw => hw.resolve_left (hL w)

/-- A reading that begins one token later. -/
theorem cons {t : Token} {rest : List Token} {errors : List SyntaxError} {id : Nat}
    {o : EStateM.Result SyntaxError Cursor α} (h : Meets M K ⟨rest, errors, id⟩ o)
    (ht : ∀ w, t.sign :: w ∈ L ↔ w ∈ M) : Meets L K ⟨t :: rest, errors, id⟩ o := by
  have leads {taken : List Token} {noted : List SyntaxError} {d : Cursor}
      (hl : Cursor.Leads ⟨rest, errors, id⟩ taken noted d) :
      Cursor.Leads ⟨t :: rest, errors, id⟩ (t :: taken) noted d :=
    ⟨congrArg (t :: ·) hl.rest, hl.errors, hl.nextId⟩
  cases o with
  | ok a d =>
    obtain ⟨taken, noted, hl, hsettled⟩ := h
    refine ⟨t :: taken, noted, leads hl, ?_⟩
    rcases hsettled with ⟨hnone, hpasses⟩ | ⟨e, hsome, hsticks⟩
    · exact .inl ⟨hnone, hpasses.cons ht⟩
    · exact .inr ⟨e, hsome, hsticks.cons ht⟩
  | error e d =>
    obtain ⟨taken, noted, hl, e', hsome, hsticks⟩ := h
    exact ⟨t :: taken, noted, leads hl, e', hsome, hsticks.cons ht⟩

/-- One reader after another. -/
theorem bind {x : Reader α} {f : α → Reader β} (hx : Meets L M c (x c))
    (hmeets : ∀ a d, x c = .ok a d → Meets M K d (f a d)) : Meets L K c ((x >>= f) c) := by
  rw [bind_apply]
  cases hr : x c with
  | error e d =>
    rw [hr] at hx
    exact hx
  | ok a d =>
    rw [hr] at hx
    obtain ⟨taken, noted, hl, hsettled⟩ := hx
    have hd := hmeets a d hr
    dsimp only
    cases hr' : f a d with
    | ok b d' =>
      rw [hr'] at hd
      obtain ⟨us, ms, hl', hsettled'⟩ := hd
      refine ⟨_, _, hl.trans hl', ?_⟩
      rw [firstFault?_append]
      rcases hsettled with ⟨hnone, hpasses⟩ | ⟨e, hsome, hsticks⟩
      · rw [hnone, Option.none_or, hl.rest]
        rw [hl'.rest] at hpasses
        rcases hsettled' with ⟨hnone', hpasses'⟩ | ⟨e, hsome', hsticks'⟩
        · exact .inl ⟨hnone', hpasses.trans hpasses'⟩
        · rw [hl'.rest] at hsticks' ⊢
          exact .inr ⟨e, hsome', hpasses.sticks hsticks'⟩
      · rw [hsome, Option.some_or]
        exact .inr ⟨e, rfl, hsticks⟩
    | error e d' =>
      rw [hr'] at hd
      obtain ⟨us, ms, hl', e', hsome', hsticks'⟩ := hd
      refine ⟨_, _, hl.trans hl', ?_⟩
      rw [List.append_assoc, firstFault?_append]
      rcases hsettled with ⟨hnone, hpasses⟩ | ⟨e, hsome, hsticks⟩
      · rw [hnone, Option.none_or, hl.rest]
        exact ⟨e', hsome', hpasses.sticks hsticks'⟩
      · rw [hsome, Option.some_or]
        exact ⟨e, rfl, hsticks⟩

end Meets

end Reader

/-! ### Kinds of tokens and terminals -/

/-- The terminal of a kind of tokens. -/
def TokenKind.terminal : TokenKind → Terminal
  | mark m => .mark m
  | keyword k => .keyword k
  | identifier => .identifier
  | string _ => .string
  | number _ => .number
  | endOfText => .endOfText

theorem Token.is_iff_fits {t : Token} {kind : TokenKind} :
    t.is kind ↔ t.sign.Fits kind.terminal := by
  obtain ⟨kind', lexeme, line⟩ := t
  cases kind' <;> cases kind <;>
    simp [is, sign, TokenKind.sameCategory, TokenKind.terminal, Sign.Fits]

theorem TokenKind.not_fits_endOfText {kind : TokenKind} (h : kind.isEnd = false) :
    ¬ Sign.endOfText.Fits kind.terminal := by
  cases kind <;> simp_all [isEnd, sameCategory, terminal, Sign.Fits]

theorem fits_nextSign {kind : TokenKind} {ts : List Token} {t : Token} (ht : t ∈ ts.head?)
    (his : t.is kind) : (nextSign ts).Fits kind.terminal := by
  rw [nextSign, ht]
  exact Token.is_iff_fits.mp his

/-- A kind other than the end is that of the next token if the next sign is one of it. -/
theorem nextSign_fits_iff {kind : TokenKind} (hk : kind.isEnd = false) {ts : List Token} :
    (nextSign ts).Fits kind.terminal ↔ ∃ t rest, ts = t :: rest ∧ t.is kind := by
  constructor
  · intro h
    cases ts with
    | nil => exact absurd h (TokenKind.not_fits_endOfText hk)
    | cons t rest => exact ⟨t, rest, rfl, Token.is_iff_fits.mpr h⟩
  · rintro ⟨t, rest, rfl, ht⟩
    exact fits_nextSign rfl ht

theorem Terminal.exists_fits (τ : Terminal) : ∃ s : Sign, s.Fits τ := by
  cases τ with
  | mark m => exact ⟨.mark m, rfl⟩
  | keyword k => exact ⟨.keyword k, rfl⟩
  | identifier => exact ⟨.name "", trivial⟩
  | number => exact ⟨.number 0, trivial⟩
  | string => exact ⟨.string "", trivial⟩
  | endOfText => exact ⟨.endOfText, trivial⟩

theorem Terminal.exists_mem_mul (τ : Terminal) {L : Language Sign} (h : ∃ w, w ∈ L) :
    ∃ w, w ∈ (Ebnf.terminal τ).texts * L := by
  obtain ⟨s, hs⟩ := τ.exists_fits
  obtain ⟨w, hw⟩ := h
  rw [Ebnf.texts_terminal]
  exact ⟨s :: w, cons_mem_single_mul.mpr ⟨hs, hw⟩⟩

/-! ### Below a number of tokens -/

namespace Reader.Expects

variable {α β : Type} {n m : Nat} {r x : Reader α} {f : α → Reader β}
  {L L' M K : Language Sign}

theorem of_le (h : Expects r n L K) (hle : m ≤ n) : Expects r m L K :=
  ⟨h.goes, h.nonempty, fun c hc => h.meets c (Nat.lt_of_lt_of_le hc hle)⟩

/-- Where no token can be found, nothing is asked for. -/
theorem of_goes (h : Goes r) (hne : ∃ w, w ∈ L) : Expects r 0 L K :=
  ⟨h, hne, fun _ hc => absurd hc (Nat.not_lt_zero _)⟩

protected theorem pure (a : α) (h : ∃ w, w ∈ K) : Expects (Pure.pure a) n K K :=
  ⟨(Ensures.pure a).goes, h, fun _ _ => .pure a⟩

/-- One reader after another. -/
protected theorem bind (hx : Expects x n L M) (hf : ∀ a, Expects (f a) n M K) :
    Expects (x >>= f) n L K := by
  refine ⟨(hx.goes.bind fun a => (hf a).goes).goes, hx.nonempty, fun c hc => ?_⟩
  refine (hx.meets c hc).bind fun a d hr => ?_
  exact (hf a).meets d (Nat.lt_of_le_of_lt (hx.goes.goesTo hr).length_le hc)

/-- A reader whose bound is the number of tokens left. -/
protected theorem bounded {r : Nat → Reader α}
    (h : ∀ {k m}, m ≤ k + 1 → m ≤ n → Expects (r k) m L K) : Expects (bounded r) n L K :=
  ⟨Ensures.bounded fun k => (h (Nat.zero_le (k + 1)) (Nat.zero_le n)).goes,
    (h (Nat.zero_le 1) (Nat.zero_le n)).nonempty,
    fun c hc => (h (Nat.le_refl _) hc).meets c (Nat.lt_succ_self _)⟩

/-- A number is drawn first. -/
theorem freshId {f : Nat → Reader β} (h : ∀ id, Expects (f id) n L K) :
    Expects (freshId >>= f) n L K := by
  refine ⟨(Ensures.freshId fun id => (h id).goes).goes, (h 0).nonempty, fun c hc => ?_⟩
  have hmeets := (h c.nextId).meets { c with nextId := c.nextId + 1 } hc
  have leads {taken : List Token} {noted : List SyntaxError} {d : Cursor}
      (hl : Cursor.Leads { c with nextId := c.nextId + 1 } taken noted d) : c.Leads taken noted d :=
    ⟨hl.rest, hl.errors, Nat.le_of_succ_le hl.nextId⟩
  change Meets L K c (f c.nextId { c with nextId := c.nextId + 1 })
  cases hr : f c.nextId { c with nextId := c.nextId + 1 } with
  | ok b d =>
    rw [hr] at hmeets
    obtain ⟨taken, noted, hl, hsettled⟩ := hmeets
    exact ⟨taken, noted, leads hl, hsettled⟩
  | error e d =>
    rw [hr] at hmeets
    obtain ⟨taken, noted, hl, hsticks⟩ := hmeets
    exact ⟨taken, noted, leads hl, hsticks⟩

/-- A tolerated fault is noted. -/
theorem note {error : SyntaxError} (htolerated : error.fault.isTolerated = true)
    (h : ∃ w, w ∈ K) : Expects (note error) n K K := by
  refine ⟨(Ensures.note error).goes, h, fun c _ => ?_⟩
  refine ⟨[], [error], ⟨rfl, rfl, Nat.le_refl _⟩, .inl ⟨?_, .refl K c.rest⟩⟩
  simp [firstFault?, htolerated]

/-- A tolerated fault is noted if as many parameters or arguments as are allowed stand before the
next token. -/
theorem noteBeyond {count : Nat} {fault : SyntaxFault} {f : Unit → Reader β}
    (htolerated : fault.isTolerated = true) (h : Expects (f ()) n L K) :
    Expects (noteBeyond count fault >>= f) n L K := by
  refine ⟨((Ensures.noteBeyond count fault).bind fun _ => h.goes).goes, h.nonempty, fun c hc => ?_⟩
  unfold Reader.noteBeyond
  split
  · have hnote : Expects (Reader.note ⟨c.rest.head?, fault⟩) n L L := note htolerated h.nonempty
    exact (hnote.bind fun _ => h).meets c hc
  · exact h.meets c hc

/-- A reading that fails notes its fault and goes on where a statement can begin. -/
theorem orRecover {r : Reader Stmt} (h : Expects r n L K) : Expects (orRecover r) n L K := by
  refine ⟨(Ensures.orRecover h.goes).goes, h.nonempty, fun c hc => ?_⟩
  have hmeets := h.meets c hc
  cases hr : r c with
  | ok s d =>
    rw [hr] at hmeets
    rw [orRecover_of_ok hr]
    exact hmeets
  | error e d =>
    rw [hr] at hmeets
    obtain ⟨taken, noted, hl, e', hsome, hsticks⟩ := hmeets
    obtain ⟨dropped, hdropped⟩ := recover_suffix d.rest
    rw [orRecover_of_error hr]
    refine ⟨taken ++ dropped, noted ++ [e], ⟨?_, ?_, hl.nextId⟩, .inr ⟨e', hsome, hsticks⟩⟩
    · rw [List.append_assoc, hdropped, hl.rest]
    · rw [hl.errors, List.append_assoc]

/-! ### The next token -/

section Accept

variable {kind : TokenKind} {f : Option Token → Reader β}

/-- The next token is taken if it has a given kind. Where texts without it begin with a token of the
kind, they are texts with it. -/
theorem accept?_of_absorbs (hk : kind.isEnd = false) (h : ∀ t, Expects (f (some t)) (n - 1) L K)
    (h' : Expects (f none) n L' K)
    (habsorbs : ∀ s w, s.Fits kind.terminal → s :: w ∈ L' → w ∈ L) :
    Expects (accept? kind >>= f) n ((Ebnf.terminal kind.terminal).texts * L + L') K := by
  rw [Ebnf.texts_terminal]
  refine ⟨(Ensures.accept? (fun t => (h t).goes) h'.goes).goes, ?_, fun c hc => ?_⟩
  · obtain ⟨w, hw⟩ := h'.nonempty
    exact ⟨w, .inr hw⟩
  by_cases hfits : (nextSign c.rest).Fits kind.terminal
  · obtain ⟨t, rest, hrest, ht⟩ := (nextSign_fits_iff hk).mp hfits
    obtain ⟨_, errors, id⟩ := c
    obtain rfl : _ = t :: rest := hrest
    rw [accept?_bind_of_is ht]
    refine Meets.cons ((h t).meets ⟨rest, errors, id⟩ (Nat.lt_sub_of_add_lt hc)) fun w => ?_
    constructor
    · rintro (hw | hw)
      · exact (cons_mem_single_mul.mp hw).2
      · exact habsorbs t.sign w hfits hw
    · exact fun hw => .inl (cons_mem_single_mul.mpr ⟨hfits, hw⟩)
  · rw [accept?_bind_of_not fun t ht his => hfits (fits_nextSign ht his)]
    exact (h'.meets c hc).add_right fun w hw => hfits (cons_mem_single_mul.mp hw).1

/-- The next token is taken if it has a given kind, with which the texts without it do not begin. -/
theorem accept? (hk : kind.isEnd = false) (h : ∀ t, Expects (f (some t)) (n - 1) L K)
    (h' : Expects (f none) n L' K) (hbegins : Begins L' fun s => ¬ s.Fits kind.terminal) :
    Expects (accept? kind >>= f) n ((Ebnf.terminal kind.terminal).texts * L + L') K :=
  accept?_of_absorbs hk h h' fun _ _ hs hw => absurd hs (hbegins.cons hw)

/-- The next token is taken and must have a given kind. -/
theorem expect {fault : SyntaxFault} {f : Token → Reader β} (hk : kind.isEnd = false)
    (hfault : fault.isTolerated = false) (h : ∀ t, Expects (f t) (n - 1) L K) :
    Expects (expect kind fault >>= f) n ((Ebnf.terminal kind.terminal).texts * L) K := by
  have hne := kind.terminal.exists_mem_mul (h ⟨.endOfText, "", 0⟩).nonempty
  rw [Ebnf.texts_terminal] at hne ⊢
  refine ⟨(Ensures.expect fun t => (h t).goes).goes, hne, fun c hc => ?_⟩
  rw [expect_bind]
  by_cases hfits : (nextSign c.rest).Fits kind.terminal
  · obtain ⟨t, rest, hrest, ht⟩ := (nextSign_fits_iff hk).mp hfits
    obtain ⟨_, errors, id⟩ := c
    obtain rfl : _ = t :: rest := hrest
    rw [accept?_bind_of_is ht]
    refine Meets.cons ((h t).meets ⟨rest, errors, id⟩ (Nat.lt_sub_of_add_lt hc)) fun w => ?_
    rw [cons_mem_single_mul]
    exact and_iff_right hfits
  · rw [accept?_bind_of_not fun t ht his => hfits (fits_nextSign ht his)]
    refine ⟨[], [], .refl c, ⟨c.rest.head?, fault⟩, ?_, [], c.rest, rfl, rfl, hne, fun w hw => ?_⟩
    · simp [firstFault?, hfault]
    · exact hfits (cons_mem_single_mul.mp hw).1

end Accept

/-- The next token is taken if it has a given kind, and it is known whether it was. Where texts
without it begin with a token of the kind, they are texts with it. -/
theorem accept_of_absorbs {kind : TokenKind} {f : Bool → Reader β} (hk : kind.isEnd = false)
    (h : Expects (f true) (n - 1) L K) (h' : Expects (f false) n L' K)
    (habsorbs : ∀ s w, s.Fits kind.terminal → s :: w ∈ L' → w ∈ L) :
    Expects (Reader.accept kind >>= f) n ((Ebnf.terminal kind.terminal).texts * L + L') K := by
  rw [accept_bind]
  exact accept?_of_absorbs hk (fun _ => h) h' habsorbs

/-- The next token is taken if it has a given kind, and it is known whether it was. -/
theorem accept {kind : TokenKind} {f : Bool → Reader β} (hk : kind.isEnd = false)
    (h : Expects (f true) (n - 1) L K) (h' : Expects (f false) n L' K)
    (hbegins : Begins L' fun s => ¬ s.Fits kind.terminal) :
    Expects (accept kind >>= f) n ((Ebnf.terminal kind.terminal).texts * L + L') K := by
  exact accept_of_absorbs hk h h' fun _ _ hs hw => absurd hs (hbegins.cons hw)

/-- The next token must have a given kind, or the reader fails. -/
theorem acceptOrFail {kind : TokenKind} {fault : SyntaxFault} {f : Bool → Reader β}
    (hk : kind.isEnd = false) (hfault : fault.isTolerated = false) (hfail : f false = fail fault)
    (h : Expects (f true) (n - 1) L K) :
    Expects (Reader.accept kind >>= f) n ((Ebnf.terminal kind.terminal).texts * L) K := by
  have heq : Reader.accept kind >>= f = Reader.expect kind fault >>= fun _ => f true := by
    rw [accept_bind, expect_bind]
    congr 1
    funext t
    cases t with
    | none => exact hfail
    | some t => rfl
  rw [heq]
  exact expect hk hfault fun _ => h

/-- The next token is looked at for its kind, with which only some of the texts begin. -/
theorem check {kind : TokenKind} {f : Bool → Reader β} (hk : kind.isEnd = false)
    (h : Expects (f true) n L K) (h' : Expects (f false) n L' K)
    (hbegins : Begins L (·.Fits kind.terminal))
    (hbegins' : Begins L' fun s => ¬ s.Fits kind.terminal) :
    Expects (check kind >>= f) n (L + L') K := by
  have hgoes (b : Bool) : Goes (f b) := by
    cases b
    · exact h'.goes
    · exact h.goes
  refine ⟨(Ensures.check hgoes).goes, ?_, fun c hc => ?_⟩
  · obtain ⟨w, hw⟩ := h.nonempty
    exact ⟨w, .inl hw⟩
  have hrun : (Reader.check kind >>= f) c = f (c.rest.head?.any (·.is kind)) c := rfl
  rw [hrun]
  by_cases hfits : (nextSign c.rest).Fits kind.terminal
  · obtain ⟨t, rest, hrest, ht⟩ := (nextSign_fits_iff hk).mp hfits
    have htrue : c.rest.head?.any (·.is kind) = true := by simp [hrest, ht]
    rw [htrue]
    exact (h.meets c hc).add_left fun w hw => hbegins'.cons hw hfits
  · have hfalse : c.rest.head?.any (·.is kind) = false := by
      refine Bool.eq_false_iff.mpr fun hany => ?_
      obtain ⟨t, ht, his⟩ := (Option.any_eq_true _ _).mp hany
      exact hfits (fits_nextSign ht his)
    rw [hfalse]
    exact (h'.meets c hc).add_right fun w hw => hfits (hbegins.cons hw)

/-- A token on which a function has a value is taken, if there is one. -/
theorem acceptBy? {γ : Type} {v : Token → Option γ} {p : Sign → Prop} {f : Option γ → Reader β}
    (hv : ∀ t, (v t).isSome ↔ p t.sign) (hend : ¬ p .endOfText)
    (h : ∀ a, Expects (f (some a)) (n - 1) L K) (h' : Expects (f none) n L' K)
    (hbegins : Begins L' fun s => ¬ p s) :
    Expects (acceptBy? v >>= f) n (single p * L + L') K := by
  refine ⟨(Ensures.acceptBy? (fun a => (h a).goes) h'.goes).goes, ?_, fun c hc => ?_⟩
  · obtain ⟨w, hw⟩ := h'.nonempty
    exact ⟨w, .inr hw⟩
  by_cases hp : p (nextSign c.rest)
  · obtain ⟨_ | ⟨t, rest⟩, errors, id⟩ := c
    · exact absurd hp hend
    obtain ⟨a, ha⟩ := Option.isSome_iff_exists.mp ((hv t).mpr hp)
    rw [acceptBy?_bind_of_some ha]
    refine Meets.cons ((h a).meets ⟨rest, errors, id⟩ (Nat.lt_sub_of_add_lt hc)) fun w => ?_
    constructor
    · rintro (hw | hw)
      · exact (cons_mem_single_mul.mp hw).2
      · exact absurd hp (hbegins.cons hw)
    · exact fun hw => .inl (cons_mem_single_mul.mpr ⟨hp, hw⟩)
  · have hnone : ∀ t ∈ c.rest.head?, v t = none := by
      intro t ht
      rw [← Option.not_isSome_iff_eq_none, hv t]
      rwa [nextSign, ht] at hp
    rw [acceptBy?_bind_of_none hnone]
    exact (h'.meets c hc).add_right fun w hw => hp (cons_mem_single_mul.mp hw).1

end Reader.Expects

end Treewalk
