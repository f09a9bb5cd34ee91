import Treewalk.Proofs.Relocation.Reading
import Treewalk.Proofs.Syntax.Closing

/-!
# Statements one after the other

What is read from tokens one after the other is read in one go as well, with the same node numbers and
with the faults of both in order, provided that reading the first tokens comes to their end without
asking for more. So it does if they have no fault, and so it does, whatever faults they have, if a
semicolon ends them and nothing opens in them that goes on behind a semicolon.

## Main definitions

* `Relocation.renumber`: node numbers that are drawn from another one on.

## Main results

* `Program.ofTokens_append`: programs from tokens one after the other.
* `Program.ofTokens_closed_append`: faults before a semicolon do not matter behind it.
-/

namespace Treewalk

namespace Reader

variable {s : Surroundings} {bound bound' : Nat}

/-- Items end where no token is left. -/
theorem items_nil (bound : Nat) (errors : List SyntaxError) (id : Nat) :
    items bound false ⟨[], errors, id⟩ = .ok [] ⟨[], errors, id⟩ := by
  cases bound <;> rfl

theorem items_cons (bound : Nat) (t : Token) (rest : List Token) (errors : List SyntaxError)
    (id : Nat) : items (bound + 1) false ⟨t :: rest, errors, id⟩ =
      (item bound >>= fun first => items bound false >>= fun others =>
        pure (first.toList ++ others)) ⟨t :: rest, errors, id⟩ :=
  rfl

/-- Items never fail: each of them notes its own fault. -/
theorem items_answers (bound : Nat) (inBlock : Bool) (c : Cursor) :
    ∃ ss d, items bound inBlock c = .ok ss d := by
  induction bound generalizing c with
  | zero => exact ⟨[], c, rfl⟩
  | succ bound ih =>
    have hitem (c : Cursor) : ∃ s d, item bound c = .ok s d := by
      cases bound with
      | zero => exact ⟨none, c, rfl⟩
      | succ bound =>
        rw [item_succ]
        cases hr : declaration bound c with
        | ok s d => exact ⟨some s, d, orRecover_of_ok hr⟩
        | error e d => exact ⟨none, _, orRecover_of_error hr⟩
    obtain ⟨first, c', hfirst⟩ := hitem c
    obtain ⟨others, d, hothers⟩ := ih c'
    rw [items, bind_apply, peek?]
    dsimp only
    rw [bind_apply, check]
    dsimp only
    split
    · exact ⟨[], c, rfl⟩
    · refine ⟨first.toList ++ others, d, ?_⟩
      rw [bind_apply, hfirst]
      dsimp only
      rw [bind_apply, hothers]
      rfl

/-- The items of some tokens before more of them: after them come the items of the others. -/
theorem items_before (hs : NoElse s.later) (hle : bound ≤ bound') {c d : Cursor} {ss : List Stmt}
    (hread : items bound false c = .ok ss d) (hbound : 3 * c.rest.length + 3 ≤ bound)
    (hc : d.errors = c.errors ∨ c.rest = [] ∨ Closed c.rest) :
    ∃ k, bound' ≤ k + c.rest.length ∧ items bound' false (c.within s) =
      (items k false >>= fun others => pure (ss ++ others))
        ⟨s.later, s.earlier ++ d.errors, d.nextId⟩ := by
  induction bound generalizing bound' c ss with
  | zero => exact absurd hbound (Nat.not_succ_le_zero _)
  | succ bound ih =>
    obtain ⟨bound', rfl⟩ : ∃ k, bound' = k + 1 := ⟨bound' - 1, by omega⟩
    have hle : bound ≤ bound' := Nat.le_of_succ_le_succ hle
    obtain ⟨_ | ⟨t, rest⟩, errors, id⟩ := c
    · cases hread
      refine ⟨bound' + 1, Nat.le_add_right _ _, ?_⟩
      simp [Cursor.within]
    · simp only [List.length_cons] at hbound
      rw [items_cons] at hread
      obtain ⟨first, c', hfirst, hrest⟩ := exists_of_bind hread
      obtain ⟨others, c'', hothers, hpure⟩ := exists_of_bind hrest
      cases hpure
      obtain ⟨bound, rfl⟩ : ∃ k, bound = k + 1 := ⟨bound - 1, by omega⟩
      have hgoes := ((StatementYields.all _).item.goes).goesTo hfirst
      have hitems : Goes (items (bound + 1) false) :=
        ((StatementYields.all _).items false).goes
      have hlt : c'.rest.length < rest.length + 1 :=
        StatementsKeep.item_length_lt (List.cons_ne_nil t rest) hfirst
      -- What holds of all tokens holds of the first item and of the others.
      have hboth : (c'.errors = errors ∨ Closed (t :: rest)) ∧
          (d.errors = c'.errors ∨ c'.rest = [] ∨ Closed c'.rest) := by
        rcases hc with hd | ⟨⟨⟩⟩ | hclosed
        · obtain ⟨hc', hd'⟩ := hgoes.errors_eq (hitems.goesTo hothers) hd
          exact ⟨.inl hc', .inl hd'⟩
        · refine ⟨.inr hclosed, .inr ?_⟩
          by_cases hnil : c'.rest = []
          · exact .inl hnil
          · exact .inr (hclosed.of_suffix hgoes.suffix hnil)
      obtain ⟨k, hk, heq⟩ := ih hle hothers (by omega) hboth.2
      refine ⟨k, by simp only [List.length_cons]; omega, ?_⟩
      have hsame := item_within hs hle (by simp only [List.length_cons]; omega) hfirst hboth.1
      have hwithin : Cursor.within ⟨t :: rest, errors, id⟩ s =
          ⟨t :: (rest ++ s.later), s.earlier ++ errors, id⟩ := rfl
      rw [hwithin, items_cons, ← hwithin]
      cases hk : items k false ⟨s.later, s.earlier ++ d.errors, d.nextId⟩ with
      | ok ss c => simp only [bind_apply, hsame, heq, hk, pure_apply, List.append_assoc]
      | error e c => simp only [bind_apply, hsame, heq, hk]

/-- The items of some tokens with a larger bound, and with more faults noted before. -/
theorem items_of_le (hle : bound ≤ bound') {c d : Cursor} {ss : List Stmt} (inBlock : Bool)
    (hread : items bound inBlock c = .ok ss d) (hbound : 3 * c.rest.length + 3 ≤ bound)
    (errors : List SyntaxError) :
    items bound' inBlock (c.within ⟨errors, []⟩) = .ok ss (d.within ⟨errors, []⟩) := by
  have hnone : NoElse (Surroundings.mk errors []).later := fun _ ht => nomatch ht
  have hkeeps := (StatementsKeep.all hnone bound).items (n := c.rest.length + 1) inBlock hle
    (by omega)
  exact (hkeeps.same c (Nat.lt_succ_self _)).answer hread fun hne => absurd rfl hne

end Reader

/-- A text that reads as statements does not begin with an `else`. -/
theorem ReadsItems.noElse {us : List Token} {ss : List Stmt}
    (h : ReadsItems (us.map Token.sign) ss) : NoElse us := by
  obtain ⟨body, hsigns, -, hreads⟩ := h
  cases body with
  | nil =>
    obtain rfl := List.map_eq_nil_iff.mp hsigns
    exact fun _ ht => nomatch ht
  | cons p body =>
    obtain ⟨sign, signs, hp, hopens⟩ := (hreads p List.mem_cons_self).opens
    rw [List.map_cons, List.flatten_cons, hp, List.cons_append] at hsigns
    obtain ⟨t, us, rfl, rfl, -⟩ := List.map_eq_cons_iff.mp hsigns
    exact .of_opens hopens

namespace Program

variable {nextId : Nat} {tokens us all : List Token}

/-- What is read from tokens. -/
theorem items_ofTokens (nextId : Nat) (tokens : List Token) :
    ∃ d, Reader.items (3 * (tokensBeforeEnd tokens).length + 3) false
        ⟨tokensBeforeEnd tokens, [], nextId⟩ = .ok (ofTokens nextId tokens).body d ∧
      d.errors = (ofTokens nextId tokens).errors ∧ d.nextId = (ofTokens nextId tokens).nextId := by
  obtain ⟨ss, d, hread⟩ := Reader.items_answers (3 * (tokensBeforeEnd tokens).length + 3) false
    ⟨tokensBeforeEnd tokens, [], nextId⟩
  rw [ofTokens, hread]
  exact ⟨d, rfl, rfl, rfl⟩

/-- Tokens one after the other: the statements that are read from them follow each other, and so do
the faults. The second statements get the numbers that the first ones leave. -/
theorem ofTokens_append (hall : tokensBeforeEnd all = tokensBeforeEnd tokens ++ tokensBeforeEnd us)
    (hus : NoElse (tokensBeforeEnd us))
    (h : (ofTokens nextId tokens).errors = [] ∨ Closed (tokensBeforeEnd tokens)) :
    ofTokens nextId all = ⟨(ofTokens nextId tokens).body ++
        (ofTokens (ofTokens nextId tokens).nextId us).body,
      (ofTokens nextId tokens).errors ++ (ofTokens (ofTokens nextId tokens).nextId us).errors,
      (ofTokens (ofTokens nextId tokens).nextId us).nextId⟩ := by
  obtain ⟨d, hread, hd, hid⟩ := items_ofTokens nextId tokens
  obtain ⟨d', hread', hd', hid'⟩ := items_ofTokens (ofTokens nextId tokens).nextId us
  have hlength : (tokensBeforeEnd all).length =
      (tokensBeforeEnd tokens).length + (tokensBeforeEnd us).length := by
    rw [hall, List.length_append]
  have hle : 3 * (tokensBeforeEnd tokens).length + 3 ≤ 3 * (tokensBeforeEnd all).length + 3 := by
    omega
  rw [← hd] at h
  obtain ⟨k, hk, heq⟩ := Reader.items_before (s := ⟨[], tokensBeforeEnd us⟩) hus hle hread
    (Nat.le_refl _) (h.imp_right .inr)
  have hle' : 3 * (tokensBeforeEnd us).length + 3 ≤ k := by
    simp only at hk
    omega
  have hlater := Reader.items_of_le hle' false hread' (Nat.le_refl _) d.errors
  simp only [Cursor.within, List.append_nil, List.nil_append] at heq hlater
  rw [← hall, hid, Reader.bind_apply, hlater, hid', hd', hd] at heq
  rw [ofTokens, heq]
  rfl

end Program

/-! ### Faults before a semicolon -/

/-- Node numbers that were drawn from `n` on, drawn from `n'` on. -/
def Relocation.renumber (n n' : Nat) : Relocation :=
  .ofId fun id => id - n + n'

theorem tokensBeforeEnd_eq_self {ts : List Token} (hts : ∀ t ∈ ts, t.kind.isEnd = false) :
    tokensBeforeEnd ts = ts := by
  rw [tokensBeforeEnd, ← List.append_nil ts, List.takeWhile_append_of_pos fun t ht => by simp [hts t ht],
    List.takeWhile_nil]

theorem tokensBeforeEnd_append {ts : List Token} {t : Token}
    (hts : ∀ t ∈ ts, t.kind.isEnd = false) (ht : t.kind.isEnd = true) :
    tokensBeforeEnd (ts ++ [t]) = ts := by
  rw [tokensBeforeEnd, List.takeWhile_append_of_pos fun t ht => by simp [hts t ht]]
  simp [ht]

namespace Program

/-- Which number is the first one to be drawn matters only to the node numbers. -/
theorem ofTokens_renumber (n n' : Nat) (tokens : List Token) :
    (ofTokens n' tokens).body =
        (ofTokens n tokens).body.map (Stmt.relocate (.renumber n n')) ∧
      (ofTokens n' tokens).errors = (ofTokens n tokens).errors ∧
      (ofTokens n' tokens).nextId = (ofTokens n tokens).nextId - n + n' := by
  have hlines : (Relocation.renumber n n').KeepsLines := fun _ => rfl
  have hmoved := @ofTokens_relocate (.renumber n n') n n'
    (fun k => by simp [Relocation.renumber, Relocation.ofId, Nat.add_comm]) tokens
  rw [List.map_congr_left fun t _ => congrFun (Token.relocate_eq_id hlines) t, List.map_id] at hmoved
  refine ⟨hmoved.body, ?_, (hmoved.id 0).symm⟩
  rw [hmoved.errors, SyntaxError.relocate_eq_id hlines, List.map_id]

/-- Faults before a semicolon do not matter behind it: if a semicolon ends the first tokens, and no
brace and no loop with clauses opens in them, then whatever faults they have, the statements that are
read from them and from the tokens that follow are read in one go, up to the node numbers, and so are
the faults. Only an `else` could go on with the first tokens. -/
theorem ofTokens_closed_append {first second : List Token} {ending : Token} (hclosed : Closed first)
    (hfirst : ∀ t ∈ first, t.kind.isEnd = false) (hsecond : ∀ t ∈ second, t.kind.isEnd = false)
    (helse : NoElse second) (hending : ending.kind.isEnd = true) (n m k : Nat) :
    (ofTokens k (first ++ second ++ [ending])).errors =
        (ofTokens n (first ++ [ending])).errors ++ (ofTokens m (second ++ [ending])).errors ∧
      (ofTokens k (first ++ second ++ [ending])).body =
        (ofTokens n (first ++ [ending])).body.map (Stmt.relocate (.renumber n k)) ++
        (ofTokens m (second ++ [ending])).body.map
          (Stmt.relocate (.renumber m ((ofTokens n (first ++ [ending])).nextId - n + k))) := by
  have hboth : ∀ t ∈ first ++ second, t.kind.isEnd = false := fun t ht =>
    (List.mem_append.mp ht).elim (hfirst t) (hsecond t)
  obtain ⟨hbody, herrors, hnext⟩ := ofTokens_renumber n k (first ++ [ending])
  obtain ⟨hbody', herrors', -⟩ := ofTokens_renumber m
    (ofTokens k (first ++ [ending])).nextId (second ++ [ending])
  have hjoined := @ofTokens_append k (first ++ [ending]) (second ++ [ending])
    (first ++ second ++ [ending])
    (by rw [tokensBeforeEnd_append hboth hending, tokensBeforeEnd_append hfirst hending,
      tokensBeforeEnd_append hsecond hending])
    (by rwa [tokensBeforeEnd_append hsecond hending])
    (.inr (by rwa [tokensBeforeEnd_append hfirst hending]))
  rw [hjoined, herrors', herrors, hbody', hbody, hnext]
  exact ⟨rfl, rfl⟩

/-- The faults of `var = nil; f(x;` are noted before the statements `class C {} x;` are read. -/
theorem ofTokens_closed_append_twoFaults :
    let first : List Token := [.keyword .varWord, .mark .equal, .keyword .nilWord, .mark .semicolon,
      .name "f", .mark .leftParen, .name "x", .mark .semicolon].map Sign.token
    let second : List Token := [.keyword .classWord, .name "C", .mark .leftBrace, .mark .rightBrace,
      .name "x", .mark .semicolon].map Sign.token
    let ending := Sign.endOfText.token
    Closed first ∧ NoElse second ∧
      (ofTokens 5 (first ++ second ++ [ending])).errors.map SyntaxError.fault =
        [.variableName, .argumentsClosing] ∧
      (ofTokens 5 (first ++ second ++ [ending])).body.length = 2 := by
  intro first second ending
  have hclosed : Closed first := ⟨⟨_, rfl, rfl⟩, by decide⟩
  have helse : NoElse second := by
    rintro _ ⟨⟩
    decide
  obtain ⟨herrors, hbody⟩ := ofTokens_closed_append hclosed (by decide) (by decide) helse
    (by decide : ending.kind.isEnd = true) 0 3 5
  refine ⟨hclosed, helse, ?_, ?_⟩
  · rw [herrors]
    decide +kernel
  · rw [hbody]
    decide +kernel

end Program

end Treewalk
