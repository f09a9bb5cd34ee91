import Treewalk.Diagnostics
import Treewalk.Proofs.Syntax.Prediction.Program

/-!
# The place of the first fault

The first fault of a text, apart from those that are only noted, is at the first token with which the
text is no beginning of a program any more: what stands before it can be continued to a program of the
documented grammar, and what goes up to it cannot. So the reader never goes on after a text has become
hopeless, and never gives one up that is not.

## Main definitions

* `Viable`: beginnings of programs.

## Main results

* `Program.firstFault_located`: where the first fault is.
-/

namespace Treewalk

/-- What can be continued to a program of the documented grammar, without what is only noted. -/
def Viable (ts : List Sign) : Prop :=
  ∃ later, DerivesFrom Rule.relaxed (.rule .program) (ts ++ later)

/-- A beginning of what can be continued can be continued. -/
theorem Viable.of_prefix {ts us : List Sign} (h : Viable us) (hts : ts <+: us) : Viable ts := by
  obtain ⟨later, h⟩ := h
  obtain ⟨vs, rfl⟩ := hts
  rw [List.append_assoc] at h
  exact ⟨vs ++ later, h⟩

/-- The beginnings of the programs of the documented grammar can be continued. -/
theorem Viable.of_derives {ts later : List Sign} (h : Derives (.rule .program) (ts ++ later)) :
    Viable ts :=
  ⟨later, h.mem_texts⟩

namespace Program

/-- The first fault of a program is where its tokens stick. -/
theorem sticks_of_firstFault? {nextId : Nat} {tokens : List Token} {e : SyntaxError}
    (h : firstFault? (ofTokens nextId tokens).errors = some e) :
    Sticks Rule.program.texts (tokensBeforeEnd tokens) e := by
  have hend : ∀ t ∈ tokensBeforeEnd tokens, t.kind.isEnd = false := fun t ht => by
    simpa using List.mem_takeWhile_imp ht
  obtain ⟨d, hread, herrors, -⟩ := items_ofTokens nextId tokens
  have hmeets := Reader.items_meets (3 * (tokensBeforeEnd tokens).length + 3)
    ⟨tokensBeforeEnd tokens, [], nextId⟩ (Nat.le_refl _) hend
  rw [hread] at hmeets
  obtain ⟨taken, noted, hleads, hsettled⟩ := hmeets
  rw [← herrors, hleads.errors, List.nil_append] at h
  rcases hsettled with ⟨hnone, -⟩ | ⟨e', hsome, hsticks⟩
  · rw [hnone] at h
    cases h
  · rw [hsome] at h
    cases h
    exact hsticks

/-- **The place of the first fault.** If a text with its only end at its end has a fault other than
those that are only noted, then the first one is reported at the first token with which the text
cannot be continued to a program any more: it can be continued before this token, and not from it
on. -/
theorem firstFault_located {tokens : List Token} {last : Token} {e : SyntaxError}
    (ht : ∀ t ∈ tokens, t.kind.isEnd = false) (hlast : last.kind.isEnd = true) (nextId : Nat)
    (h : firstFault? (ofTokens nextId (tokens ++ [last])).errors = some e) :
    ∃ before t after, tokens ++ [last] = before ++ t :: after ∧
      e.found = (if t.kind.isEnd then none else some t) ∧
      e.report last.line = .syntactic t.place e.fault.message ∧
      ∀ n, Viable (((tokens ++ [last]).take n).map Token.sign) ↔ n ≤ before.length := by
  have hsticks := sticks_of_firstFault? h
  rw [tokensBeforeEnd_append ht hlast] at hsticks
  obtain ⟨before, left, htokens, hfound, hbefore, hnext⟩ := hsticks
  obtain ⟨t, after, hafter, hsign, hfound, hplace⟩ : ∃ t after, left ++ [last] = t :: after ∧
      t.sign = nextSign left ∧ e.found = (if t.kind.isEnd then none else some t) ∧
      e.found.elim ⟨none, last.line⟩ Token.place = t.place := by
    cases left with
    | nil =>
      refine ⟨last, [], rfl, Token.isEnd_iff.mp hlast, ?_, ?_⟩
      · rw [hfound, if_pos hlast]
        rfl
      · rw [hfound, Token.place, if_pos hlast]
        rfl
    | cons t left =>
      have htend : t.kind.isEnd = false := ht t (by simp [htokens])
      exact ⟨t, left ++ [last], rfl, rfl, by rw [hfound, htend]; rfl, by rw [hfound]; rfl⟩
  have hwhole : tokens ++ [last] = before ++ t :: after := by
    rw [htokens, List.append_assoc, hafter]
  refine ⟨before, t, after, hwhole, hfound, congrArg (Report.syntactic · _) hplace,
    fun n => ⟨fun hviable => ?_, fun hle => ?_⟩⟩
  · -- A longer beginning would go on from the token that does not fit.
    by_contra hlt
    have hlonger : before ++ [t] <+: (tokens ++ [last]).take n := by
      rw [hwhole, List.prefix_take_iff]
      exact ⟨⟨after, by simp⟩, by simpa [Nat.succ_le_iff] using Nat.lt_of_not_le hlt⟩
    obtain ⟨w, hw⟩ := hviable.of_prefix (hlonger.map Token.sign)
    rw [List.map_append, List.append_assoc, List.map_singleton, hsign] at hw
    exact hnext w hw
  · refine Viable.of_prefix hbefore (.map Token.sign ?_)
    rw [hwhole, List.take_append_of_le_length hle]
    exact List.take_prefix n before

/-- The target of `nil = nil;` is only noted; the first fault behind it is at the parenthesis of
`var (`, where a name is missing. -/
theorem firstFault_located_variableName :
    let tokens := [.keyword .nilWord, .mark .equal, .keyword .nilWord, .mark .semicolon,
      .keyword .varWord, .mark .leftParen].map Sign.token
    let all := tokens ++ [Sign.endOfText.token]
    (ofTokens 0 all).errors.map SyntaxError.fault = [.invalidTarget, .variableName] ∧
      ∃ before after, all = before ++ (Sign.mark .leftParen).token :: after ∧
        ∀ n, Viable ((all.take n).map Token.sign) ↔ n ≤ before.length := by
  intro tokens all
  refine ⟨rfl, ?_⟩
  have hend : ∀ t ∈ tokens, t.kind.isEnd = false := by decide
  have hfault : firstFault? (ofTokens 0 all).errors =
      some ⟨some (Sign.mark .leftParen).token, .variableName⟩ := rfl
  obtain ⟨before, t, after, hall, hfound, -, hviable⟩ := firstFault_located hend rfl 0 hfault
  obtain rfl : (Sign.mark .leftParen).token = t := by
    split at hfound
    · cases hfound
    · exact Option.some.inj hfound
  exact ⟨before, after, hall, hviable⟩

end Program

end Treewalk
