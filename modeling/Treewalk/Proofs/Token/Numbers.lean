import Treewalk.Machine
import Treewalk.Proofs.Decimal.Layouts
import Treewalk.Proofs.Token.Spacing

/-!
# Number literals and how numbers are written

A number literal is read as the number nearest to its decimal, and a number is written as a decimal
that is read as that number again. So a literal keeps its number when it is scanned and written,
however many digits it has. A whole number that is small enough to be a number itself is written by its
digits.

## Main definitions

* `Token.numberLiteral`: the text of a number literal.

## Main results

* `Binary64.toBits_ofPattern`, `Binary64.parts_ofPattern`: the float of a pattern.
* `exists_ofText?_numberText`: what is written for a number is read as that number.
* `Token.number_literals_kept`: literals keep their numbers.
-/

namespace Treewalk

namespace Binary64

variable {p n : Nat}

/-! ### Floats of patterns -/

theorem toNat_ofNat (hp : p ≤ infinity) : (UInt64.ofNat p).toNat = p :=
  UInt64.toNat_ofNat_of_lt' (hp.trans_lt (by decide))

/-- A pattern up to infinity is not one of those that are no numbers. -/
theorem valid_ofNat (hp : p ≤ infinity) :
    Float.Model.Format.binary64.Valid (UInt64.ofNat p).toBitVec where
  eq_packedNaN hexponent hmantissa := by
    have hbits : (UInt64.ofNat p).toBitVec.toNat = p := toNat_ofNat hp
    have hones := congrArg BitVec.toNat hexponent
    simp only [Float.Model.UnpackedFloat.unpackExponent, BitVec.toNat_cast,
      BitVec.extractLsb_toNat, hbits, Nat.shiftRight_eq_div_pow] at hones
    replace hones : p / 2 ^ 52 % 2 ^ 11 = 2047 := hones
    refine absurd (BitVec.eq_of_toNat_eq ?_) hmantissa
    simp only [Float.Model.UnpackedFloat.unpackMantissa, BitVec.toNat_cast,
      BitVec.extractLsb_toNat, hbits, Nat.shiftRight_eq_div_pow, BitVec.toNat_ofNat]
    unfold infinity at hp
    omega

theorem toBits_ofPattern (hp : p ≤ infinity) : (ofPattern p).toBits = UInt64.ofNat p :=
  congrArg Float.toBits (Float.ofBits_toBits ⟨⟨UInt64.ofNat p, valid_ofNat hp⟩⟩)

theorem toNat_toBits_ofPattern (hp : p ≤ infinity) : (ofPattern p).toBits.toNat = p := by
  rw [toBits_ofPattern hp, toNat_ofNat hp]

/-- The float of a finite pattern. -/
theorem parts_ofPattern (hp : p < infinity) : parts (ofPattern p) = .finite false p := by
  have hsmall : p < Nat.pow 2 63 := hp.trans (by decide)
  rw [parts]
  simp only [toNat_toBits_ofPattern hp.le, Nat.mod_eq_of_lt hsmall, if_pos hp,
    decide_eq_false (Nat.not_le.mpr hsmall)]

/-! ### Whole numbers -/

theorem units_of_value (h : value p = n) : units p = n * one := by
  have hone : (one : ℚ) ≠ 0 := Nat.cast_ne_zero.mpr one_pos.ne'
  rw [value, div_eq_iff hone] at h
  exact_mod_cast h

theorem wholePart_of_value (h : value p = n) : isWhole p ∧ wholePart p = n := by
  have hunits := units_of_value h
  constructor
  · rw [isWhole, hunits, Nat.mul_mod_left]
    rfl
  · rw [wholePart, hunits, Nat.mul_div_cancel n one_pos]

theorem value_of_isWhole (h : isWhole p) : value p = wholePart p := by
  have hone : (one : ℚ) ≠ 0 := Nat.cast_ne_zero.mpr one_pos.ne'
  have hdvd : one ∣ units p := Nat.dvd_of_mod_eq_zero (of_decide_eq_true h)
  rw [value, wholePart, Nat.cast_div hdvd hone]

/-- Whole numbers below `2 ^ 53` are values of patterns. -/
theorem exists_value_eq (hn : n < 2 ^ 53) : ∃ p < infinity, value p = n := by
  have hone : (one : ℚ) ≠ 0 := Nat.cast_ne_zero.mpr one_pos.ne'
  by_cases hzero : n = 0
  · refine ⟨0, by decide, ?_⟩
    rw [hzero, value, units_zero, Nat.cast_zero, zero_div]
  have hlog : n.log2 < 53 := (Nat.log2_lt hzero).mpr hn
  -- the leading bit of the fraction is the first of fifty-three
  have hlow : 2 ^ 52 ≤ n * 2 ^ (52 - n.log2) := by
    calc 2 ^ 52 = 2 ^ n.log2 * 2 ^ (52 - n.log2) := by
          rw [← Nat.pow_add, Nat.add_sub_cancel' (Nat.le_of_lt_succ hlog)]
      _ ≤ n * 2 ^ (52 - n.log2) := Nat.mul_le_mul_right _ (Nat.log2_self_le hzero)
  have hhigh : n * 2 ^ (52 - n.log2) < 2 ^ 53 := by
    calc n * 2 ^ (52 - n.log2) < 2 ^ (n.log2 + 1) * 2 ^ (52 - n.log2) :=
          Nat.mul_lt_mul_of_pos_right Nat.lt_log2_self (Nat.two_pow_pos _)
      _ = 2 ^ 53 := by
          rw [← Nat.pow_add]
          exact congrArg (2 ^ ·) (by omega)
  have hexponent : 52 - n.log2 + (1022 + n.log2) = unitExponent := by
    unfold unitExponent
    omega
  refine ⟨(1022 + n.log2) * Nat.pow 2 fractionBits + n * 2 ^ (52 - n.log2), ?_, ?_⟩
  · generalize n * 2 ^ (52 - n.log2) = m at hhigh
    rw [Nat.pow_eq, fractionBits, infinity]
    omega
  · rw [value_scale hhigh.le (.inr hlow), Nat.mul_assoc, ← Nat.pow_add, hexponent, ← one_eq,
      Nat.cast_mul, mul_div_cancel_right₀ _ hone]

end Binary64

open Binary64

variable {p n : Nat}

/-! ### What is written -/

/-- A finite number as a program writes it. -/
theorem numberText_ofPattern (hp : p < infinity) : numberText (ofPattern p) = String.ofList
    (if Nat.pow 10 exponentFrom ≤ wholePart p then (Decimal.shortest .up p).scientific false
      else if isWhole p then Decimal.digits (wholePart p)
      else (Decimal.shortest .up p).positional) := by
  rw [numberText, parts_ofPattern hp]
  rfl

/-- What is written for a finite number is read as that number. -/
theorem exists_ofText?_numberText (hp : p < infinity) :
    ∃ d, Decimal.ofText? (numberText (ofPattern p)).toList = some d ∧ d.pattern = p := by
  have hshortest := Decimal.pattern_shortest .up hp.le
  rw [numberText_ofPattern hp, String.toList_ofList]
  split
  · exact ⟨_, Decimal.ofText?_scientific _, hshortest⟩
  split
  · next hwhole =>
    refine ⟨_, Decimal.ofText?_digits _, Decimal.pattern_of_value hp.le ?_⟩
    rw [value_of_isWhole hwhole, Decimal.value, zpow_zero, mul_one]
  · obtain ⟨d, htext, hvalue⟩ := Decimal.exists_ofText?_positional (Decimal.shortest .up p)
    exact ⟨d, htext, (Decimal.pattern_congr hvalue).trans hshortest⟩

/-- A small whole number is written by its digits. -/
theorem numberText_of_value (hp : p < infinity) (h : value p = n) (hn : n < 2 ^ 53) :
    numberText (ofPattern p) = toString n := by
  obtain ⟨hwhole, hpart⟩ := wholePart_of_value h
  have hsmall : ¬ Nat.pow 10 exponentFrom ≤ n := Nat.not_le.mpr (hn.trans (by decide))
  rw [numberText_ofPattern hp, hpart, if_neg hsmall, if_pos hwhole]
  rfl

namespace Token

/-! ### Literals -/

/-- The text of a number literal: digits, and a point with more digits or none. -/
def numberLiteral (whole fraction : List Char) : List Char :=
  match fraction with
  | [] => whole
  | _ :: _ => whole ++ '.' :: fraction

variable {whole fraction : List Char}

theorem isDigit_eq (c : Char) : isDigit c = c.isDigit := by
  simp only [isDigit, Char.isDigit, Char.le_def]

/-- A literal can be a token, with the number that its digits stand for. -/
theorem spells_numberLiteral (hwhole : Decimal.IsNumeral whole)
    (hfraction : ∀ c ∈ fraction, c.isDigit) :
    Spells (.number (numberValue whole fraction)) (numberLiteral whole fraction) := by
  obtain ⟨hne, hwhole⟩ := hwhole
  simp only [← isDigit_eq] at hwhole hfraction
  obtain ⟨c, digits, rfl⟩ := List.exists_cons_of_ne_nil hne
  obtain ⟨hc, hdigits⟩ := List.forall_mem_cons.mp hwhole
  cases fraction with
  | nil => exact .whole hc hdigits
  | cons d fraction =>
    obtain ⟨hd, hfraction⟩ := List.forall_mem_cons.mp hfraction
    exact .decimal hc hdigits hd hfraction

/-- A literal is read as the decimal that its digits stand for. -/
theorem ofText?_numberLiteral (hwhole : Decimal.IsNumeral whole)
    (hfraction : ∀ c ∈ fraction, c.isDigit) : Decimal.ofText? (numberLiteral whole fraction) =
      some (Decimal.read whole fraction) := by
  cases fraction with
  | nil =>
    rw [numberLiteral, Decimal.ofText?_plain (hwhole.ne_of_mem rfl),
      Decimal.significand?_whole hwhole]
  | cons d fraction => exact Decimal.ofText?_point hwhole ⟨List.cons_ne_nil _ _, hfraction⟩

/-- A token of a text has a kind that its lexeme spells. -/
theorem spells_of_mem_scan {source : String} {t : Token} (ht : t ∈ tokensOf (scan source)) :
    Spells t.kind t.lexeme.toList ∨ t.kind = .endOfText ∧ t.lexeme = "" := by
  have hcontent := content_itemsFrom 1 (pieces source.toList)
  rw [← scanFrom_eq_itemsFrom] at hcontent
  have hmem : content t ∈ (tokensOf (scan source)).map content := List.mem_map_of_mem ht
  rw [scan, hcontent] at hmem
  rcases List.mem_append.mp hmem with hmem | hmem
  · obtain ⟨token, htoken, heq⟩ := List.mem_map.mp hmem
    obtain ⟨rest, hfits⟩ := (cuts_pieces source.toList).placeable token htoken
    have hspells : Spells token.1 token.2 := by
      generalize hp : (⟨.token token.1, token.2, rest⟩ : Piece) = p at hfits
      cases hfits with
      | token hspells =>
        cases hp
        exact hspells
      | _ => cases hp
    obtain ⟨hkind, hlexeme⟩ := Prod.mk.inj heq
    refine .inl ?_
    rw [← hkind, ← hlexeme, lexemeOf, String.toList_ofList]
    exact hspells
  · exact .inr (Prod.mk.inj (List.mem_singleton.mp hmem))

/-- The tokens of a text that is one token, and then the end of the text. -/
theorem scan_of_spells {kind : TokenKind} {text : List Char} (h : Spells kind text)
    (hline : '\n' ∉ text) (hcomment : ¬ OpensComment text) :
    scan (String.ofList text) =
      [.ok ⟨kind, String.ofList text, 1⟩, .ok ⟨.endOfText, "", 1⟩] := by
  have hfits : Piece.Fits ⟨.token kind, text, []⟩ := by
    refine .token h (fun kind' taken' _ hpre => ?_) ?_
    · rw [List.append_nil] at hpre
      exact hpre.length_le
    · rwa [List.append_nil]
  have hpieces := hfits.pieces_eq
  rw [List.append_nil] at hpieces
  rw [scan, scanFrom_eq_itemsFrom, String.toList_ofList, hpieces]
  simp [pieces, itemsFrom, Piece.item?, List.count_eq_zero_of_not_mem hline]

/-- No literal has a line break or a comment in it. -/
theorem plain_numberLiteral (hwhole : Decimal.IsNumeral whole)
    (hfraction : ∀ c ∈ fraction, c.isDigit) : '\n' ∉ numberLiteral whole fraction ∧
      ¬ OpensComment (numberLiteral whole fraction) := by
  have hall : ∀ c ∈ numberLiteral whole fraction, c.isDigit ∨ c = '.' := by
    cases fraction with
    | nil => exact fun c hc => .inl (hwhole.2 c hc)
    | cons d fraction =>
      intro c hc
      rcases List.mem_append.mp hc with hc | hc
      · exact .inl (hwhole.2 c hc)
      · exact (List.mem_cons.mp hc).symm.imp_left (hfraction c)
  refine ⟨fun hline => ?_, fun hcomment => ?_⟩
  · exact absurd (hall '\n' hline) (by decide)
  · have hslash : '/' ∈ numberLiteral whole fraction := by
      rcases hcomment with h | h <;> exact h.subset List.mem_cons_self
    exact absurd (hall '/' hslash) (by decide)

/-- Literals keep their numbers. The scanner takes a literal as one token, wherever it is a lexeme,
with the number nearest to its decimal. If this number is finite, then what a program writes for it is
a decimal that rounds to this number alone. A literal whose decimal is a whole number below `2 ^ 53` is
written by the digits of that number. -/
theorem number_literals_kept (hwhole : Decimal.IsNumeral whole)
    (hfraction : ∀ c ∈ fraction, c.isDigit) (m : Machine) : ∃ x,
    scan (String.ofList (numberLiteral whole fraction)) =
      [.ok ⟨.number x, String.ofList (numberLiteral whole fraction), 1⟩,
        .ok ⟨.endOfText, "", 1⟩] ∧
    (∀ source, ∀ t ∈ tokensOf (scan source),
      t.lexeme = String.ofList (numberLiteral whole fraction) → t.kind = .number x) ∧
    Decimal.ofText? (numberLiteral whole fraction) = some (Decimal.read whole fraction) ∧
    Rounds (Decimal.read whole fraction).value x.toBits.toNat ∧
    (x.toBits.toNat < infinity → ∃ d, Decimal.ofText? (m.text (.number x)).toList = some d ∧
      ∀ p, Rounds d.value p ↔ p = x.toBits.toNat) ∧
    ∀ n : Nat, n < 2 ^ 53 → (Decimal.read whole fraction).value = n →
      m.text (.number x) = toString n := by
  have hspells := spells_numberLiteral hwhole hfraction
  obtain ⟨hline, hcomment⟩ := plain_numberLiteral hwhole hfraction
  have hrounds := (Decimal.read whole fraction).rounds_pattern
  have hbits : (numberValue whole fraction).toBits.toNat = (Decimal.read whole fraction).pattern :=
    toNat_toBits_ofPattern hrounds.le
  refine ⟨_, scan_of_spells hspells hline hcomment, fun source t ht hlexeme => ?_,
    ofText?_numberLiteral hwhole hfraction, hbits ▸ hrounds, fun hfinite => ?_, fun n hn hvalue => ?_⟩
  · rcases spells_of_mem_scan ht with h | ⟨-, hempty⟩
    · rw [hlexeme, String.toList_ofList] at h
      exact h.unique hspells
    · obtain ⟨c, rest, hcons, -⟩ := hspells.exists_cons
      rw [hempty, hcons] at hlexeme
      exact absurd (congrArg String.toList hlexeme) (by simp)
  · rw [hbits] at hfinite ⊢
    obtain ⟨d, htext, hpattern⟩ := exists_ofText?_numberText hfinite
    refine ⟨d, htext, fun p => ?_⟩
    rw [← Decimal.pattern_eq_iff, hpattern]
    exact eq_comm
  · obtain ⟨p, hp, hn'⟩ := exists_value_eq hn
    have hpattern : (Decimal.read whole fraction).pattern = p :=
      Decimal.pattern_of_value hp.le (hvalue.trans hn'.symm)
    change numberText (ofPattern (Decimal.read whole fraction).pattern) = _
    rw [hpattern]
    exact numberText_of_value hp hn' hn

/-- Leading zeros and a fraction of zeros are not written. -/
theorem number_literals_kept_padded : ∃ x,
    scan "007.0" = [.ok ⟨.number x, "007.0", 1⟩, .ok ⟨.endOfText, "", 1⟩] ∧
      (Machine.start (fun _ => 0) []).text (.number x) = "7" := by
  have hwhole : Decimal.IsNumeral ['0', '0', '7'] := ⟨List.cons_ne_nil _ _, by simp⟩
  have hvalue : (Decimal.read ['0', '0', '7'] ['0']).value = (7 : Nat) := by
    have hread : Decimal.read ['0', '0', '7'] ['0'] = ⟨70, -1⟩ := by decide
    rw [hread]
    norm_num [Decimal.value]
  obtain ⟨x, hscan, -, -, -, -, hwritten⟩ := @number_literals_kept _ ['0'] hwhole (by simp)
    (Machine.start (fun _ => 0) [])
  exact ⟨x, hscan, hwritten 7 (by decide) hvalue⟩

end Token

end Treewalk
