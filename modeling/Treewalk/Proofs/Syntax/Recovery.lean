import Treewalk.Proofs.Syntax.Joining

/-!
# Where reading goes on after a fault

A statement can begin behind a semicolon, at a statement word, and nowhere before the end otherwise.
When an item cannot be read, its fault is noted at the token that does not fit, and reading goes on
at the first of these places behind that token. So what is lost is never more than the rest of one
statement, except in one case: where the token that does not fit is itself a statement word, the
statement that it opens could be read, but reading goes on behind that word. A semicolon that is
missing before a statement hides what is wrong with the statement.

## Main definitions

* `IsBoundary`: the places among tokens where a statement can begin.
* `FirstBoundary`: the first of them from a place on.

## Main results

* `FirstBoundary.recover`: where reading goes on.
* `Reader.item_resumes`: what becomes of the tokens behind a fault.
-/

namespace Treewalk

/-- A statement can begin at a place among tokens: at their end, at a statement word, or behind a
semicolon. -/
def IsBoundary (ts : List Token) (n : Nat) : Prop :=
  n = ts.length ∨ (∃ t ∈ ts[n]?, t.opensStatement) ∨
    ∃ m, n = m + 1 ∧ ∃ t ∈ ts[m]?, t.is (.mark .semicolon)

/-- The first place from a given one on where a statement can begin. -/
structure FirstBoundary (start : Nat) (ts : List Token) (n : Nat) : Prop where
  boundary : IsBoundary ts n
  le : start ≤ n
  first : ∀ m, start ≤ m → m < n → ¬ IsBoundary ts m

/-- Behind the first token, places are counted from the next one. -/
theorem isBoundary_cons {t : Token} {ts : List Token} {n : Nat} :
    IsBoundary (t :: ts) (n + 2) ↔ IsBoundary ts (n + 1) := by
  simp [IsBoundary]

namespace FirstBoundary

variable {ts : List Token} {start m n : Nat}

theorem unique (hm : FirstBoundary start ts m) (hn : FirstBoundary start ts n) : m = n := by
  rcases Nat.lt_trichotomy m n with hlt | heq | hlt
  · exact absurd hm.boundary (hn.first m hm.le hlt)
  · exact heq
  · exact absurd hn.boundary (hm.first n hn.le hlt)

theorem le_length (h : FirstBoundary start ts n) (hstart : start ≤ ts.length) : n ≤ ts.length := by
  by_contra hlt
  exact h.first ts.length hstart (Nat.lt_of_not_le hlt) (.inl rfl)

/-- Reading goes on at the first place behind the token that does not fit. -/
theorem recover (ts : List Token) :
    ∃ n, FirstBoundary (min 1 ts.length) ts n ∧ Treewalk.recover ts = ts.drop n := by
  fun_induction Treewalk.recover ts with
  | case1 => exact ⟨0, ⟨.inl rfl, Nat.le_refl 0, fun m _ hm => absurd hm (Nat.not_lt_zero m)⟩, rfl⟩
  | case2 t rest ht =>
    refine ⟨1, ⟨.inr (.inr ⟨0, rfl, t, rfl, ht⟩), by simp, fun m hle hlt => ?_⟩, rfl⟩
    simp at hle
    omega
  | case3 t ht =>
    refine ⟨1, ⟨.inl rfl, by simp, fun m hle hlt => ?_⟩, rfl⟩
    simp at hle
    omega
  | case4 t ht next rest hnext =>
    refine ⟨1, ⟨.inr (.inl ⟨next, rfl, hnext⟩), by simp, fun m hle hlt => ?_⟩, rfl⟩
    simp at hle
    omega
  | case5 t ht next rest hnext ih =>
    obtain ⟨n, hn, hdrop⟩ := ih
    have hpos : 1 ≤ n := by simpa using hn.le
    obtain ⟨n, rfl⟩ : ∃ k, n = k + 1 := ⟨n - 1, by omega⟩
    refine ⟨n + 2, ⟨isBoundary_cons.mpr hn.boundary, by simp, fun m hle hlt => ?_⟩, hdrop⟩
    have hm : 1 ≤ m := by simpa using hle
    obtain rfl | ⟨m, rfl⟩ : m = 1 ∨ ∃ k, m = k + 2 := by
      rcases Nat.lt_or_ge m 2 with hlt | hge
      · exact .inl (by omega)
      · exact .inr ⟨m - 2, by omega⟩
    · simp [IsBoundary, hnext, ht]
    · exact fun hb => hn.first (m + 1) (by simp) (by omega) (isBoundary_cons.mp hb)

/-- The first place behind the token that does not fit is the first place of all, unless this token
is a statement word. -/
theorem eq_iff (hm : FirstBoundary 0 ts m) (hn : FirstBoundary (min 1 ts.length) ts n) :
    n = m ↔ ∀ t ∈ ts.head?, ¬ t.opensStatement := by
  cases ts with
  | nil =>
    have hm' := hm.le_length (Nat.zero_le _)
    have hn' := hn.le_length (Nat.min_le_right _ _)
    simp only [List.length_nil] at hm' hn'
    simp
    omega
  | cons t ts =>
    have hpos : 1 ≤ n := by simpa using hn.le
    constructor
    · rintro rfl _ ⟨⟩ ht
      exact hm.first 0 (Nat.le_refl 0) hpos (.inr (.inl ⟨t, rfl, ht⟩))
    · intro ht
      refine hn.unique ⟨hm.boundary, ?_, fun k _ hk => hm.first k (Nat.zero_le k) hk⟩
      have hne : m ≠ 0 := by
        rintro rfl
        rcases hm.boundary with hlen | ⟨t', ⟨⟩, ht'⟩ | ⟨k, ⟨⟩, -⟩
        · cases hlen
        · exact ht t rfl ht'
      simp
      omega

theorem drop_eq_iff (hm : m ≤ ts.length) (hn : n ≤ ts.length) : ts.drop n = ts.drop m ↔ n = m := by
  constructor
  · intro h
    have hlength := congrArg List.length h
    simp only [List.length_drop] at hlength
    omega
  · rintro rfl
    rfl

end FirstBoundary

namespace Reader

variable {bound : Nat} {c d : Cursor}

/-- What an item leaves that cannot be read. -/
theorem exists_of_item_none (h : item (bound + 1) c = .ok none d) : ∃ e c',
    declaration bound c = .error e c' ∧
      d = { c' with rest := recover c'.rest, errors := c'.errors ++ [e] } := by
  rw [item_succ] at h
  cases hr : declaration bound c with
  | ok s c' =>
    rw [orRecover_of_ok hr] at h
    cases h
  | error e c' =>
    rw [orRecover_of_error hr] at h
    cases h
    exact ⟨e, c', rfl, rfl⟩

/-- Outside of blocks, what is read behind an item is what is read from the tokens that it leaves. -/
theorem items_after {first : Option Stmt} (h : item (bound + 1) c = .ok first d) (hc : c.rest ≠ [])
    (hend : ∀ t ∈ c.rest, t.kind.isEnd = false) (hbound : 3 * c.rest.length ≤ bound) :
    ∃ d', items (bound + 2) false c =
        .ok (first.toList ++ (Program.ofTokens d.nextId d.rest).body) d' ∧
      d'.errors = d.errors ++ (Program.ofTokens d.nextId d.rest).errors := by
  have hlt := StatementsKeep.item_length_lt hc h
  have hsuffix := ((StatementYields.all (bound + 1)).item.goes.goesTo h).suffix
  have htokens : tokensBeforeEnd d.rest = d.rest :=
    tokensBeforeEnd_eq_self fun t ht => hend t (hsuffix.subset ht)
  obtain ⟨d', hread, hd', -⟩ := Program.items_ofTokens d.nextId d.rest
  rw [htokens] at hread
  have hle : 3 * d.rest.length + 3 ≤ bound + 1 := by omega
  have hlater := items_of_le hle false hread (Nat.le_refl _) d.errors
  simp only [Cursor.within, List.append_nil] at hlater
  refine ⟨⟨d'.rest, d.errors ++ d'.errors, d'.nextId⟩, ?_, congrArg (d.errors ++ ·) hd'⟩
  obtain ⟨_ | ⟨t, rest⟩, errors, id⟩ := c
  · exact absurd rfl hc
  · rw [items_cons]
    simp only [bind_apply, h, hlater, pure_apply]

/-- An item that cannot be read: its last fault is noted at the token that does not fit, and reading
goes on at the first place behind this token where a statement can begin. This is the first such
place of all if and only if the token is no statement word. Outside of blocks, the faults that are
noted from there on are all the faults of the tokens that are left. -/
theorem item_resumes (h : item (bound + 1) c = .ok none d) :
    ∃ pending noted e n, pending <:+ c.rest ∧ e.found = pending.head? ∧
      d.errors = c.errors ++ noted ++ [e] ∧ d.rest = pending.drop n ∧
      FirstBoundary (min 1 pending.length) pending n ∧
      (∀ m, FirstBoundary 0 pending m →
        (d.rest = pending.drop m ↔ ∀ t ∈ pending.head?, ¬ t.opensStatement)) ∧
      (c.rest ≠ [] → (∀ t ∈ c.rest, t.kind.isEnd = false) → 3 * c.rest.length ≤ bound →
        ∃ d', items (bound + 2) false c = .ok (Program.ofTokens d.nextId d.rest).body d' ∧
          d'.errors = d.errors ++ (Program.ofTokens d.nextId d.rest).errors) := by
  obtain ⟨e, c', hfails, rfl⟩ := exists_of_item_none h
  have hgoes := (StatementsKeep.declaration_takes bound).goes
  obtain ⟨taken, noted, hleads⟩ := hgoes.goesTo_error hfails
  obtain ⟨n, hn, hdrop⟩ := FirstBoundary.recover c'.rest
  refine ⟨c'.rest, noted, e, n, (hgoes.goesTo_error hfails).suffix, hgoes.found_eq hfails, ?_,
    hdrop, hn, fun m hm => ?_, fun hc hend hbound => items_after h hc hend hbound⟩
  · rw [hleads.errors]
  · rw [← hm.eq_iff hn, ← FirstBoundary.drop_eq_iff (hm.le_length (Nat.zero_le _))
      (hn.le_length (Nat.min_le_right _ _))]
    exact Eq.congr_left hdrop

/-- The tokens of `var a = nil var b = ;`, in which the first semicolon is missing. -/
def missingSemicolon : List Token :=
  [.keyword .varWord, .name "a", .mark .equal, .keyword .nilWord, .keyword .varWord, .name "b",
    .mark .equal, .mark .semicolon].map Sign.token

/-- Behind the first fault of these tokens reading goes on after the second `var`, and there is
nothing left. -/
theorem item_resumes_missingSemicolon : ∃ d, item 31 ⟨missingSemicolon, [], 0⟩ = .ok none d ∧
    d.rest = [] ∧ ∃ e, d.errors = [e] ∧ e.found = missingSemicolon[4]? ∧
      ∃ d', items 32 false ⟨missingSemicolon, [], 0⟩ = .ok [] d' ∧ d'.errors = [e] := by
  have h : item 31 ⟨missingSemicolon, [], 0⟩ =
      .ok none ⟨[], [⟨missingSemicolon[4]?, .variableEnd⟩], 0⟩ := rfl
  obtain ⟨-, -, -, -, -, -, -, -, -, -, hlater⟩ := item_resumes h
  obtain ⟨d', hitems, hd'⟩ := hlater (List.cons_ne_nil _ _) (by decide) (by decide)
  exact ⟨_, h, rfl, _, rfl, rfl, d', hitems, hd'⟩

/-- But a statement could begin at that `var`, and there is a fault in this statement, which would be
noted if reading went on there. -/
theorem ofTokens_missingSemicolon :
    FirstBoundary 0 (missingSemicolon.drop 4) 0 ∧
      (Program.ofTokens 0 (missingSemicolon.drop 4)).errors.map SyntaxError.fault = [.expression] ∧
      (Program.ofTokens 0 missingSemicolon).errors.map SyntaxError.fault = [.variableEnd] := by
  refine ⟨⟨.inr (.inl ⟨_, rfl, rfl⟩), Nat.le_refl 0, fun m _ hm => absurd hm (Nat.not_lt_zero m)⟩,
    ?_, ?_⟩
  · decide +kernel
  · decide +kernel

end Reader

end Treewalk
