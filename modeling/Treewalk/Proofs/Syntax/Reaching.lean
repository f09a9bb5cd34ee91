import Treewalk.Proofs.Syntax.Reader

/-!
# What readers make of given tokens

A reader that takes the first of some given tokens goes on as another reader on the others. What has
been read in between is known only by a property, since lines and node numbers are not.

There is one rule for each way in which readers are put together, as there is for what a reader does
on any tokens.

## Main definitions

* `Reader.Reaches`: a reader that goes on as another one after some tokens.
* `Reader.Takes`: a reader that takes some tokens and answers.

## Main results

* `Reader.Reaches.trans`: going on twice.
* `Reader.Takes.bind`: one reader after another.
-/

namespace Treewalk

namespace Reader

variable {α β γ δ : Type}

/-- With some tokens before others, a reader goes on as another one that depends on what was read
and finds the other tokens. No fault is noted. -/
def Reaches (r : Reader α) (taken left : List Token) (P : β → Prop) (k : β → Reader α) : Prop :=
  ∀ errors n, ∃ b n', P b ∧ r ⟨taken ++ left, errors, n⟩ = k b ⟨left, errors, n'⟩

/-- With some tokens before others, a reader takes the first ones and answers. -/
abbrev Takes (r : Reader α) (taken left : List Token) (P : α → Prop) : Prop :=
  Reaches r taken left P Pure.pure

variable {taken left us : List Token} {P : β → Prop} {k : β → Reader α}

theorem Reaches.trans {r : Reader α} {Q : γ → Prop} {k' : γ → Reader α}
    (h : Reaches r us (taken ++ left) P k) (h' : ∀ b, P b → Reaches (k b) taken left Q k') :
    Reaches r (us ++ taken) left Q k' := by
  intro errors n
  obtain ⟨b, n', hb, hr⟩ := h errors n
  obtain ⟨c, n'', hc, hr'⟩ := h' b hb errors n'
  exact ⟨c, n'', hc, by rw [List.append_assoc, hr, hr']⟩

/-- Going on twice, where no further token is taken. -/
theorem Reaches.trans_last {r : Reader α} {Q : γ → Prop} {k' : γ → Reader α}
    (h : Reaches r us left P k) (h' : ∀ b, P b → Reaches (k b) [] left Q k') :
    Reaches r us left Q k' := by
  rw [← List.append_nil us]
  exact Reaches.trans h h'

/-- Going on without taking a token. -/
theorem Reaches.refl {b : β} (h : P b) : Reaches (k b) [] left P k :=
  fun _ n => ⟨b, n, h, rfl⟩

theorem Takes.pure {a : α} {P : α → Prop} (h : P a) : Takes (Pure.pure a) [] left P :=
  Reaches.refl (k := Pure.pure) h

/-- What comes after a reader that answers. -/
theorem Takes.reaches {x : Reader β} {f : β → Reader α} (h : Takes x taken left P) :
    Reaches (x >>= f) taken left P f := by
  intro errors n
  obtain ⟨b, n', hb, hr⟩ := h errors n
  exact ⟨b, n', hb, by rw [bind_apply, hr]; rfl⟩

/-- One reader after another. -/
theorem Takes.bind {x : Reader γ} {f : γ → Reader α} {R : γ → Prop}
    (h : Takes x us (taken ++ left) R) (h' : ∀ c, R c → Reaches (f c) taken left P k) :
    Reaches (x >>= f) (us ++ taken) left P k :=
  h.reaches.trans h'

/-- One reader after another, where the second one takes no token. -/
theorem Takes.bind_last {x : Reader γ} {f : γ → Reader α} {R : γ → Prop}
    (h : Takes x taken left R) (h' : ∀ c, R c → Reaches (f c) [] left P k) :
    Reaches (x >>= f) taken left P k :=
  h.reaches.trans_last h'

/-- A reader whose bound is the number of tokens left. -/
theorem Reaches.bounded {r : Nat → Reader α}
    (h : Reaches (r (taken ++ left).length) taken left P k) :
    Reaches (Reader.bounded r) taken left P k :=
  h

/-- A number is drawn first. -/
theorem Reaches.freshId {f : Nat → Reader α} (h : ∀ id, Reaches (f id) taken left P k) :
    Reaches (Reader.freshId >>= f) taken left P k :=
  fun errors n => h n errors (n + 1)

/-- Fewer parameters or arguments than are allowed stand before. -/
theorem Reaches.noteBeyond {count : Nat} {fault : SyntaxFault} {f : Unit → Reader α}
    (hc : count < maxArguments) (h : Reaches (f ()) taken left P k) :
    Reaches (Reader.noteBeyond count fault >>= f) taken left P k := by
  rw [Reader.noteBeyond, if_neg (Nat.not_le_of_lt hc)]
  exact h

/-! ### The next token -/

/-- The next token is looked at first. -/
theorem Reaches.peek? {f : Option Token → Reader α}
    (h : Reaches (f (taken ++ left).head?) taken left P k) :
    Reaches (Reader.peek? >>= f) taken left P k :=
  h

/-- The kind of the next token is looked at first. -/
theorem Reaches.check {kind : TokenKind} {f : Bool → Reader α}
    (h : Reaches (f ((taken ++ left).head?.any (·.is kind))) taken left P k) :
    Reaches (Reader.check kind >>= f) taken left P k :=
  h

variable {t : Token} {kind : TokenKind}

/-- The next token has the given kind. -/
theorem Reaches.accept? {f : Option Token → Reader α} (ht : t.is kind)
    (h : Reaches (f (some t)) taken left P k) :
    Reaches (Reader.accept? kind >>= f) (t :: taken) left P k := by
  intro errors n
  obtain ⟨b, n', hb, hr⟩ := h errors n
  refine ⟨b, n', hb, ?_⟩
  rw [← hr, bind_apply, List.cons_append, Reader.accept?]
  simp [ht]

/-- The next token has another kind. -/
theorem Reaches.accept?_none {f : Option Token → Reader α}
    (ht : ∀ t ∈ (taken ++ left).head?, ¬ t.is kind) (h : Reaches (f none) taken left P k) :
    Reaches (Reader.accept? kind >>= f) taken left P k := by
  intro errors n
  obtain ⟨b, n', hb, hr⟩ := h errors n
  refine ⟨b, n', hb, ?_⟩
  rw [← hr, bind_apply, Reader.accept?]
  cases hts : taken ++ left with
  | nil => rfl
  | cons t ts =>
    rw [hts] at ht
    simp [ht t rfl]

/-- The next token has the given kind. -/
theorem Reaches.accept {f : Bool → Reader α} (ht : t.is kind)
    (h : Reaches (f true) taken left P k) :
    Reaches (Reader.accept kind >>= f) (t :: taken) left P k := by
  rw [accept_bind]
  exact .accept? ht h

/-- The next token has another kind. -/
theorem Reaches.decline {f : Bool → Reader α} (ht : ∀ t ∈ (taken ++ left).head?, ¬ t.is kind)
    (h : Reaches (f false) taken left P k) :
    Reaches (Reader.accept kind >>= f) taken left P k := by
  rw [accept_bind]
  exact .accept?_none ht h

/-- The next token has the kind that it must have. -/
theorem Reaches.expect {fault : SyntaxFault} {f : Token → Reader α} (ht : t.is kind)
    (h : Reaches (f t) taken left P k) :
    Reaches (Reader.expect kind fault >>= f) (t :: taken) left P k := by
  rw [Reader.expect, bind_assoc]
  exact .accept? ht h

/-- A function has a value on the next token. -/
theorem Reaches.acceptBy? {g : Token → Option γ} {f : Option γ → Reader α} {c : γ}
    (ht : g t = some c) (h : Reaches (f (some c)) taken left P k) :
    Reaches (Reader.acceptBy? g >>= f) (t :: taken) left P k := by
  rw [acceptBy?_bind]
  refine .peek? ?_
  have hg : (t :: taken ++ left).head?.bind g = some c := ht
  rw [hg]
  exact h

/-- A function has no value on the next token. -/
theorem Reaches.acceptBy?_none {g : Token → Option γ} {f : Option γ → Reader α}
    (ht : ∀ t ∈ (taken ++ left).head?, g t = none) (h : Reaches (f none) taken left P k) :
    Reaches (Reader.acceptBy? g >>= f) taken left P k := by
  rw [acceptBy?_bind]
  refine .peek? ?_
  rw [Option.bind_eq_none_iff.mpr ht]
  exact h

/-- A reading that does not fail needs no recovery. -/
theorem Takes.orRecover {r : Reader Stmt} {P : Stmt → Prop} (h : Takes r taken left P) :
    Takes (Reader.orRecover r) taken left fun s => ∃ s', s = some s' ∧ P s' := by
  intro errors n
  obtain ⟨s, n', hs, hr⟩ := h errors n
  refine ⟨some s, n', ⟨s, rfl, hs⟩, ?_⟩
  rw [Reader.orRecover, hr]
  rfl

end Reader

end Treewalk
