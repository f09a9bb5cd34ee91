import Treewalk.Proofs.Syntax.Drafts.Drawing
import Treewalk.Proofs.Syntax.Drafts.Trails
import Treewalk.Proofs.Syntax.Reader

/-!
# Drafters that mirror readers

A drafter mirrors a reader if both answer or fail with the same fault, with the same tokens left, the
same faults noted and the same numbers drawn, and if what the drafter answers is as it should be for
what the reader answers. All the while it keeps its trail in order, whether it answers or fails.

Mirroring passes from parts to the whole, so that it is shown of a drafter by going along its
definition and that of the reader at once. Where a list of arguments or parameters begins the trail has
to be looked at; everywhere else it is enough to know which calls and declarations are listed.

## Main definitions

* `MirrorsAt`: a drafter that mirrors a reader from a trail.
* `Mirrors`: a drafter that mirrors a reader from wherever some calls and declarations are listed.

## Main results

* `Mirrors.bind`, `Mirrors.accept`, `Mirrors.expect`: drafters one after another.
* `MirrorsAt.noteBeyond`, `MirrorsAt.list`: members of lists, and listings.
* `Mirrors.orRecover`: going on after a fault.
-/

namespace Treewalk

/-! ### Readers at a cursor -/

namespace Reader

variable {γ : Type} {c : Cursor} {kind : TokenKind} {fault : SyntaxFault} {t : Token}
  {rest : List Token}

/-- The next token has a property, or there is none with it. -/
theorem head_cases (p : Token → Prop) (c : Cursor) :
    (∃ t rest, c.rest = t :: rest ∧ p t) ∨ ∀ t ∈ c.rest.head?, ¬ p t := by
  cases hrest : c.rest with
  | nil => exact .inr (by simp)
  | cons t rest =>
    by_cases ht : p t
    · exact .inl ⟨t, rest, rfl, ht⟩
    · exact .inr (by simpa using ht)

theorem acceptBy?_of_some {g : Token → Option γ} {a : γ} (hrest : c.rest = t :: rest)
    (ht : g t = some a) : acceptBy? g c = .ok (some a) { c with rest := rest } := by
  obtain ⟨_, errors, id⟩ := c
  obtain rfl := hrest
  rw [← bind_pure (acceptBy? g), acceptBy?_bind_of_some ht]
  rfl

theorem acceptBy?_of_none {g : Token → Option γ} (h : ∀ t ∈ c.rest.head?, g t = none) :
    acceptBy? g c = .ok none c := by
  rw [← bind_pure (acceptBy? g), acceptBy?_bind_of_none h]
  rfl

theorem accept?_of_is (hrest : c.rest = t :: rest) (ht : t.is kind) :
    accept? kind c = .ok (some t) { c with rest := rest } := by
  simp [accept?, hrest, ht]

theorem accept?_of_not (h : ∀ t ∈ c.rest.head?, ¬ t.is kind) : accept? kind c = .ok none c := by
  rw [← bind_pure (accept? kind), accept?_bind_of_not h]
  rfl

theorem accept_of_is (hrest : c.rest = t :: rest) (ht : t.is kind) :
    accept kind c = .ok true { c with rest := rest } := by
  rw [accept, bind_apply, accept?_of_is hrest ht]
  rfl

theorem accept_of_not (h : ∀ t ∈ c.rest.head?, ¬ t.is kind) : accept kind c = .ok false c := by
  rw [accept, bind_apply, accept?_of_not h]
  rfl

theorem expect_of_is (hrest : c.rest = t :: rest) (ht : t.is kind) :
    expect kind fault c = .ok t { c with rest := rest } := by
  rw [expect, bind_apply, accept?_of_is hrest ht]
  rfl

theorem expect_of_not (h : ∀ t ∈ c.rest.head?, ¬ t.is kind) :
    expect kind fault c = .error ⟨c.rest.head?, fault⟩ c := by
  rw [expect, bind_apply, accept?_of_not h]
  rfl

end Reader

/-! ### Drafters at a trail -/

namespace Drafter

variable {α β : Type} {s : Trail}

theorem bind_apply (x : Drafter α) (f : α → Drafter β) (s : Trail) :
    (x >>= f) s = match x s with
      | .ok a s' => f a s'
      | .error e s' => .error e s' := by
  change EStateM.bind x f s = _
  rw [EStateM.bind]
  cases x s <;> rfl

theorem lift_apply_of_ok {r : Reader α} {a : α} {c : Cursor} (hr : r s.cursor = .ok a c)
    (herrors : c.errors = s.cursor.errors) :
    (liftM r : Drafter α) s = .ok a (s.onward c.rest c.nextId) := by
  change lift r s = _
  rw [lift, hr, ← Trail.moveTo_of_errors herrors]

theorem lift_apply_of_error {r : Reader α} {e : SyntaxError} (hr : r s.cursor = .error e s.cursor) :
    (liftM r : Drafter α) s = .error e s := by
  have hstays : s.moveTo s.cursor = s := Trail.moveTo_of_errors rfl
  change lift r s = _
  rw [lift, hr]
  exact congrArg _ hstays

theorem lift_congr {r r' : Reader α} (h : r s.cursor = r' s.cursor) :
    (liftM r : Drafter α) s = (liftM r' : Drafter α) s := by
  change lift r s = lift r' s
  rw [lift, lift, h]

theorem lift_note (e : SyntaxError) (s : Trail) :
    (liftM (Reader.note e) : Drafter Unit) s = .ok () (s.noting e) := by
  change EStateM.Result.ok () (s.moveTo _) = _
  simp [Trail.moveTo, Trail.noting, Trail.place]

end Drafter

/-! ### Drafters and readers -/

section Mirrors

variable {α β γ δ : Type} {tokens : List Token}

/-- What a drafter does from a trail, where a reader does the same from the cursor. -/
inductive MirrorsAt (tokens : List Token) (bound : Nat) (Q : α → β → Trail → Prop) (x : Drafter α)
    (y : Reader β) (s : Trail) : Prop
  /-- Both answer. -/
  | answer {a : α} {b : β} {s' : Trail} (hx : x s = .ok a s') (hy : y s.cursor = .ok b s'.cursor)
    (hsound : s'.Sound tokens s'.place) (hleads : s.Leads bound s') (hq : Q a b s')
  /-- Both fail, but not because a list is too long. -/
  | failure {e : SyntaxError} {s' : Trail} (hx : x s = .error e s')
    (hy : y s.cursor = .error e s'.cursor) (hsound : s'.Sound tokens s'.place)
    (hleads : s.Leads bound s') (hfault : e.fault.isTooMany = false)

/-- A drafter mirrors a reader from wherever some calls and declarations are listed. What is said of
the answers depends on all the calls and declarations that are listed in the end. -/
def Mirrors (tokens : List Token) (listings : List Listing) (Q : α → β → List Listing → Prop)
    (x : Drafter α) (y : Reader β) : Prop :=
  ∀ s : Trail, s.Sound tokens s.place → listings ⊆ s.listings →
    MirrorsAt tokens s.place (fun a b s' => Q a b s'.listings) x y s

namespace MirrorsAt

variable {bound bound' : Nat} {s s' : Trail} {x x' : Drafter α} {y y' : Reader β}
  {Q : α → β → Trail → Prop} {R : γ → δ → Trail → Prop} {f : α → Drafter γ} {g : β → Reader δ}
  {kind : TokenKind} {fault : SyntaxFault}

/-- A drafter that stays below a place stays below a higher one. -/
theorem mono (h : MirrorsAt tokens bound Q x y s) (hbound : bound ≤ bound') :
    MirrorsAt tokens bound' Q x y s := by
  cases h with
  | answer hx hy hsound hleads hq => exact .answer hx hy hsound (hleads.mono hbound) hq
  | failure hx hy hsound hleads hfault => exact .failure hx hy hsound (hleads.mono hbound) hfault

/-- How the drafter leads on is part of what is known of its answer. -/
theorem with_leads (h : MirrorsAt tokens bound Q x y s) :
    MirrorsAt tokens bound (fun a b s' => s.Leads bound s' ∧ Q a b s') x y s := by
  cases h with
  | answer hx hy hsound hleads hq => exact .answer hx hy hsound hleads ⟨hleads, hq⟩
  | failure hx hy hsound hleads hfault => exact .failure hx hy hsound hleads hfault

/-- A drafting and a reading that go on as others do. -/
theorem of_eq (hx : x s = x' s') (hy : y s.cursor = y' s'.cursor) (hleads : s.Leads bound s')
    (h : MirrorsAt tokens bound Q x' y' s') : MirrorsAt tokens bound Q x y s := by
  cases h with
  | answer hx' hy' hsound hleads' hq =>
    exact .answer (hx.trans hx') (hy.trans hy') hsound (hleads.trans hleads') hq
  | failure hx' hy' hsound hleads' hfault =>
    exact .failure (hx.trans hx') (hy.trans hy') hsound (hleads.trans hleads') hfault

/-- One after another. -/
protected theorem bind (h : MirrorsAt tokens bound Q x y s)
    (hf : ∀ a b s', s'.Sound tokens s'.place → s.Leads bound s' → Q a b s' →
      MirrorsAt tokens bound R (f a) (g b) s') :
    MirrorsAt tokens bound R (x >>= f) (y >>= g) s := by
  cases h with
  | @answer a b s' hx hy hsound hleads hq =>
    refine (hf a b s' hsound hleads hq).of_eq ?_ ?_ hleads
    · rw [Drafter.bind_apply, hx]
    · rw [Reader.bind_apply, hy]
  | @failure e s' hx hy hsound hleads hfault =>
    refine .failure (e := e) ?_ ?_ hsound hleads hfault
    · rw [Drafter.bind_apply, hx]
    · rw [Reader.bind_apply, hy]

/-- Something is looked at. -/
theorem look {ι κ : Type} {r : Reader ι} {r' : Reader κ} {f : ι → Drafter γ} {g : κ → Reader δ}
    {i : ι} {k : κ} (hr : r s.cursor = .ok i s.cursor) (hr' : r' s.cursor = .ok k s.cursor)
    (h : MirrorsAt tokens bound R (f i) (g k) s) :
    MirrorsAt tokens bound R (liftM r >>= f) (r' >>= g) s := by
  refine h.of_eq ?_ ?_ (.refl s)
  · rw [Drafter.bind_apply, Drafter.lift_apply_of_ok hr rfl]
    rfl
  · rw [Reader.bind_apply, hr']

/-- A token is taken. -/
theorem take {ι κ : Type} {r : Reader ι} {r' : Reader κ} {f : ι → Drafter γ} {g : κ → Reader δ}
    {i : ι} {k : κ} {t : Token} {rest : List Token} (hrest : s.cursor.rest = t :: rest)
    (hr : r s.cursor = .ok i { s.cursor with rest := rest })
    (hr' : r' s.cursor = .ok k { s.cursor with rest := rest })
    (h : MirrorsAt tokens bound R (f i) (g k) (s.onward rest s.cursor.nextId)) :
    MirrorsAt tokens bound R (liftM r >>= f) (r' >>= g) s := by
  refine h.of_eq ?_ ?_ (.taken hrest)
  · rw [Drafter.bind_apply, Drafter.lift_apply_of_ok hr rfl]
  · rw [Reader.bind_apply, hr']
    rfl

/-- A token is taken or not, and it is known whether it was. -/
theorem accept {f : Bool → Drafter γ} {g : Bool → Reader δ}
    (h : ∀ t rest, s.cursor.rest = t :: rest →
      MirrorsAt tokens bound R (f true) (g true) (s.onward rest s.cursor.nextId))
    (h' : MirrorsAt tokens bound R (f false) (g false) s) :
    MirrorsAt tokens bound R (liftM (Reader.accept kind) >>= f) (Reader.accept kind >>= g) s := by
  rcases Reader.head_cases (·.is kind) s.cursor with ⟨t, rest, hrest, ht⟩ | hnone
  · have haccept := Reader.accept_of_is hrest ht
    exact .take hrest haccept haccept (h t rest hrest)
  · have haccept := Reader.accept_of_not hnone
    exact .look haccept haccept h'

/-- A token must come next. -/
theorem expect {f : Token → Drafter γ} {g : Token → Reader δ} (hs : s.Sound tokens s.place)
    (hfault : fault.isTooMany = false)
    (h : ∀ t rest, s.cursor.rest = t :: rest → t.is kind →
      MirrorsAt tokens bound R (f t) (g t) (s.onward rest s.cursor.nextId)) :
    MirrorsAt tokens bound R (liftM (Reader.expect kind fault) >>= f)
      (Reader.expect kind fault >>= g) s := by
  rcases Reader.head_cases (·.is kind) s.cursor with ⟨t, rest, hrest, ht⟩ | hnone
  · have hexpect : Reader.expect kind fault s.cursor = .ok t { s.cursor with rest := rest } :=
      Reader.expect_of_is hrest ht
    exact .take hrest hexpect hexpect (h t rest hrest ht)
  · have hexpect : Reader.expect kind fault s.cursor = .error ⟨s.cursor.rest.head?, fault⟩ s.cursor :=
      Reader.expect_of_not hnone
    refine .failure (e := ⟨s.cursor.rest.head?, fault⟩) ?_ ?_ hs (.refl s) hfault
    · rw [Drafter.bind_apply, Drafter.lift_apply_of_error hexpect]
    · rw [Reader.bind_apply, hexpect]

/-- A token must come next, and no list begins after it. -/
theorem expect_on {f : Token → Drafter γ} {g : Token → Reader δ} (hs : s.Sound tokens s.place)
    (hfault : fault.isTooMany = false)
    (h : ∀ t s', s'.Sound tokens s'.place → s.Leads s.place s' →
      MirrorsAt tokens bound R (f t) (g t) s') :
    MirrorsAt tokens bound R (liftM (Reader.expect kind fault) >>= f)
      (Reader.expect kind fault >>= g) s :=
  .expect hs hfault fun t _ hrest _ =>
    h t _ ((hs.taken hrest).mono (Trail.place_onward_lt hrest).le) (.taken hrest)

/-- The number of tokens left is looked at. -/
theorem place {f : Nat → Drafter α} (h : MirrorsAt tokens bound Q (f s.place) y s) :
    MirrorsAt tokens bound Q (Drafter.place >>= f) y s := by
  refine h.of_eq ?_ ?_ (.refl s) <;> rfl

/-- A fault is noted where a list is too long. A token has just been taken. -/
theorem noteBeyond (hs : s.Sound tokens bound) (hplace : s.place < bound) (hfault : fault.isTooMany)
    (count : Nat) :
    MirrorsAt tokens bound (fun _ _ s' => s'.place = s.place ∧ s'.listings = s.listings ∧
        faultsAt s'.noted s.place = if maxArguments ≤ count then [fault] else [])
      (liftM (Reader.noteBeyond count fault)) (Reader.noteBeyond count fault) s := by
  have hnone : faultsAt s.noted s.place = [] := hs.ahead s.place hplace
  by_cases hcount : maxArguments ≤ count
  · let e : SyntaxError := ⟨s.cursor.rest.head?, fault⟩
    have hnote : Reader.noteBeyond count fault s.cursor = Reader.note e s.cursor := by
      rw [Reader.noteBeyond, if_pos hcount]
      rfl
    have hbehind (place : Nat) (h : bound ≤ place) :
        faultsAt (s.noting e).noted place = faultsAt s.noted place :=
      faultsAt_append_of_ne (Nat.ne_of_gt (hplace.trans_le h))
    refine .answer ((Drafter.lift_congr hnote).trans (Drafter.lift_note e s)) hnote
      (hs.noting_here hplace) ⟨List.suffix_refl _, List.Subset.refl _, hbehind, fun _ => .inl⟩
      ⟨rfl, rfl, ?_⟩
    rw [if_pos hcount, Trail.noting, faultsAt_append, hnone, faultsAt_singleton,
      if_pos ⟨rfl, hfault⟩]
    rfl
  · have hread : Reader.noteBeyond count fault s.cursor = .ok () s.cursor := by
      rw [Reader.noteBeyond, if_neg hcount]
      rfl
    refine .answer (Drafter.lift_apply_of_ok hread rfl) hread (hs.mono hplace.le) (.refl s)
      ⟨rfl, rfl, ?_⟩
    rw [if_neg hcount]
    exact hnone

/-- A list that has been read is listed. -/
theorem list {node : DraftNode} {starts : List Nat} {f : Unit → Drafter α}
    (hs : s.Sound tokens s.place) (hmarks : Trail.Marks bound fault 0 starts s)
    (hlist : node.list? = some (fault, starts.length))
    (h : ∀ s' : Trail, s'.Sound tokens s'.place → s.listings ⊆ s'.listings →
      (∃ l ∈ s'.listings, l.node = node) → MirrorsAt tokens bound Q (f ()) y s') :
    MirrorsAt tokens bound Q (Drafter.list node starts >>= f) y s := by
  have hlisted : ∃ l ∈ (s.listing node starts).listings, l.node = node :=
    ⟨⟨node, starts⟩, by simp [Trail.listing], rfl⟩
  have hleads : s.Leads bound (s.listing node starts) := hmarks.leads_listing
  refine (h _ (hmarks.sound_listing hs hlist) hleads.listings hlisted).of_eq ?_ ?_ hleads <;> rfl

end MirrorsAt

namespace Mirrors

variable {listings : List Listing} {x : Drafter α} {y : Reader β} {bound : Nat} {s : Trail}
  {Q : α → β → List Listing → Prop} {R : γ → δ → List Listing → Prop} {kind : TokenKind}
  {fault : SyntaxFault}

theorem from_trail (h : Mirrors tokens listings Q x y) (hs : s.Sound tokens s.place)
    (hsub : listings ⊆ s.listings) (hbound : s.place ≤ bound) :
    MirrorsAt tokens bound (fun a b s' => Q a b s'.listings) x y s :=
  (h s hs hsub).mono hbound

/-- After a token has been taken. -/
theorem from_taken {t : Token} {rest : List Token} (h : Mirrors tokens listings Q x y)
    (hs : s.Sound tokens s.place) (hsub : listings ⊆ s.listings) (hrest : s.cursor.rest = t :: rest) :
    MirrorsAt tokens s.place (fun a b s' => Q a b s'.listings) x y
      (s.onward rest s.cursor.nextId) :=
  have hplace := (Trail.place_onward_lt hrest).le
  h.from_trail ((hs.taken hrest).mono hplace) hsub hplace

protected theorem pure {a : α} {b : β} (h : ∀ listings', listings ⊆ listings' → Q a b listings') :
    Mirrors tokens listings Q (pure a) (pure b) :=
  fun s hs hsub => .answer rfl rfl hs (.refl s) (h s.listings hsub)

/-- One after another. -/
protected theorem bind {f : α → Drafter γ} {g : β → Reader δ} (hx : Mirrors tokens listings Q x y)
    (hf : ∀ a b listings', listings ⊆ listings' → Q a b listings' →
      Mirrors tokens listings' R (f a) (g b)) :
    Mirrors tokens listings R (x >>= f) (y >>= g) :=
  fun s hs hsub => (hx s hs hsub).bind fun a b s' hs' hleads hq =>
    (hf a b s'.listings (List.Subset.trans hsub hleads.listings) hq).from_trail hs'
      (List.Subset.refl _) hleads.place_le

theorem bounded {r : Nat → Drafter α} {r' : Nat → Reader β}
    (h : ∀ n, Mirrors tokens listings Q (r n) (r' n)) :
    Mirrors tokens listings Q (Drafter.bounded r) (Reader.bounded r') := by
  intro s hs hsub
  refine (h s.place s hs hsub).of_eq ?_ ?_ (.refl s) <;> rfl

protected theorem fail (hfault : fault.isTooMany = false) :
    Mirrors tokens listings Q (liftM (Reader.fail fault : Reader α)) (Reader.fail fault) :=
  fun s hs _ => .failure (Drafter.lift_apply_of_error rfl) rfl hs (.refl s) hfault

/-- A token is taken or not. -/
theorem accept? {f : Option Token → Drafter γ} {g : Option Token → Reader δ}
    (h : ∀ t, t.is kind → t ∈ tokens → Mirrors tokens listings R (f (some t)) (g (some t)))
    (h' : Mirrors tokens listings R (f none) (g none)) :
    Mirrors tokens listings R (liftM (Reader.accept? kind) >>= f) (Reader.accept? kind >>= g) := by
  intro s hs hsub
  rcases Reader.head_cases (·.is kind) s.cursor with ⟨t, rest, hrest, ht⟩ | hnone
  · have haccept := Reader.accept?_of_is hrest ht
    exact .take hrest haccept haccept ((h t ht (hs.mem_tokens hrest)).from_taken hs hsub hrest)
  · have haccept := Reader.accept?_of_not hnone
    exact .look haccept haccept (h' s hs hsub)

/-- A token on which a function has a value is taken, where another function has a value too. -/
theorem acceptBy? {ι κ : Type} {v : Token → Option ι} {w : Token → Option κ}
    {f : Option ι → Drafter γ} {g : Option κ → Reader δ}
    (hvw : ∀ t, v t = none ↔ w t = none)
    (h : ∀ t i k, v t = some i → w t = some k → t ∈ tokens →
      Mirrors tokens listings R (f (some i)) (g (some k)))
    (h' : Mirrors tokens listings R (f none) (g none)) :
    Mirrors tokens listings R (liftM (Reader.acceptBy? v) >>= f) (Reader.acceptBy? w >>= g) := by
  intro s hs hsub
  rcases Reader.head_cases (v · ≠ none) s.cursor with ⟨t, rest, hrest, ht⟩ | hnone
  · obtain ⟨i, hi⟩ := Option.ne_none_iff_exists'.mp ht
    obtain ⟨k, hk⟩ := Option.ne_none_iff_exists'.mp (mt (hvw t).mpr ht)
    exact .take hrest (Reader.acceptBy?_of_some hrest hi) (Reader.acceptBy?_of_some hrest hk)
      ((h t i k hi hk (hs.mem_tokens hrest)).from_taken hs hsub hrest)
  · have hnone' : ∀ t ∈ s.cursor.rest.head?, v t = none := fun t ht => not_not.mp (hnone t ht)
    exact .look (Reader.acceptBy?_of_none hnone')
      (Reader.acceptBy?_of_none fun t ht => (hvw t).mp (hnone' t ht)) (h' s hs hsub)

/-- A token is taken or not, and it is known whether it was. -/
theorem accept {f : Bool → Drafter γ} {g : Bool → Reader δ}
    (h : Mirrors tokens listings R (f true) (g true))
    (h' : Mirrors tokens listings R (f false) (g false)) :
    Mirrors tokens listings R (liftM (Reader.accept kind) >>= f) (Reader.accept kind >>= g) :=
  fun _ hs hsub => .accept (fun _ _ hrest => h.from_taken hs hsub hrest) (h' _ hs hsub)

/-- A token must come next. -/
theorem expect {f : Token → Drafter γ} {g : Token → Reader δ} (hfault : fault.isTooMany = false)
    (h : ∀ t, t.is kind → t ∈ tokens → Mirrors tokens listings R (f t) (g t)) :
    Mirrors tokens listings R (liftM (Reader.expect kind fault) >>= f)
      (Reader.expect kind fault >>= g) :=
  fun _ hs hsub => .expect hs hfault fun t _ hrest ht =>
    (h t ht (hs.mem_tokens hrest)).from_taken hs hsub hrest

/-- The next token is looked at for its kind. -/
theorem check {f : Bool → Drafter γ} {g : Bool → Reader δ}
    (h : ∀ b, Mirrors tokens listings R (f b) (g b)) :
    Mirrors tokens listings R (liftM (Reader.check kind) >>= f) (Reader.check kind >>= g) :=
  fun s hs hsub => .look rfl rfl (h _ s hs hsub)

/-- The next token is looked at. -/
theorem peek? {f : Option Token → Drafter γ} {g : Option Token → Reader δ}
    (h : ∀ t, Mirrors tokens listings R (f t) (g t)) :
    Mirrors tokens listings R (liftM Reader.peek? >>= f) (Reader.peek? >>= g) :=
  fun s hs hsub => .look rfl rfl (h _ s hs hsub)

/-- A node number is drawn. -/
theorem freshId {f : Nat → Drafter γ} {g : Nat → Reader δ}
    (h : ∀ id, Mirrors tokens listings R (f id) (g id)) :
    Mirrors tokens listings R (liftM Reader.freshId >>= f) (Reader.freshId >>= g) := by
  intro s hs hsub
  have hsuffix := List.suffix_refl s.cursor.rest
  refine (h s.cursor.nextId (s.onward s.cursor.rest (s.cursor.nextId + 1)) (hs.onward hsuffix)
    hsub).of_eq ?_ ?_ (.onward hsuffix)
  · rw [Drafter.bind_apply, Drafter.lift_apply_of_ok (r := Reader.freshId) rfl rfl]
  · rfl

/-- A fault is noted that is not that of a list. -/
theorem note {e : SyntaxError} {f : Unit → Drafter γ} {g : Unit → Reader δ}
    (he : e.fault.isTooMany = false) (h : Mirrors tokens listings R (f ()) (g ())) :
    Mirrors tokens listings R (liftM (Reader.note e) >>= f) (Reader.note e >>= g) := by
  intro s hs hsub
  refine (h (s.noting e) (hs.noting he) hsub).of_eq ?_ ?_ (.noting he)
  · rw [Drafter.bind_apply, Drafter.lift_note]
  · rfl

/-- A statement that cannot be read is given up. -/
theorem orRecover {x : Drafter StmtDraft} {y : Reader Stmt}
    (h : Mirrors tokens listings (Draws tokens) x y) :
    Mirrors tokens listings (Draws tokens) (Drafter.orRecover x) (Reader.orRecover y) := by
  intro s hs hsub
  cases h s hs hsub with
  | @answer a b s' hx hy hsound hleads hq =>
    refine .answer ?_ (Reader.orRecover_of_ok hy) hsound hleads hq.some
    rw [Drafter.orRecover, hx]
  | @failure e s' hx hy hsound hleads hfault =>
    have hsuffix : recover s'.cursor.rest <:+ (s'.noting e).cursor.rest :=
      Reader.recover_suffix s'.cursor.rest
    let s'' : Trail := (s'.noting e).onward (recover s'.cursor.rest) s'.cursor.nextId
    have hsound' : s''.Sound tokens s''.place :=
      ((hsound.noting hfault).onward hsuffix).mono hsuffix.length_le
    refine .answer ?_ (Reader.orRecover_of_error hy) hsound'
      (hleads.trans ((Trail.Leads.noting hfault).trans (.onward hsuffix))) .none
    rw [Drafter.orRecover, hx]
    rfl

end Mirrors

end Mirrors

end Treewalk
