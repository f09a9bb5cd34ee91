import Mathlib.Algebra.Order.Field.Basic
import Mathlib.Data.Rat.Cast.Order
import Mathlib.Tactic.Linarith
import Mathlib.Tactic.Positivity
import Mathlib.Tactic.Ring
import Treewalk.Decimal.Shortest

/-!
# Rounding to binary64

Among the finite patterns and infinity, which stands for `2 ^ 1024` here, one is nearest to a rational
number; of two patterns that are equally near the even one is taken. This determines the pattern, so
what a decimal is read as depends on its value only.

The values of consecutive patterns are equally spaced as long as the scale stays the same, and the
first value of the next scale follows the last one. So a number lies between the values of two
consecutive patterns, and the rounded fraction says which of them is nearer.

## Main definitions

* `Binary64.value`, `Decimal.value`: the rational values of patterns and decimals.
* `Binary64.Rounds`: the pattern nearest to a rational number.

## Main results

* `Binary64.strictMono_units`: patterns are ordered as their values are.
* `Binary64.Rounds.unique`: a number rounds to one pattern.
* `Binary64.rounds_ofRatio`, `Decimal.rounds_pattern`: what is computed is the nearest pattern.
-/

namespace Treewalk

namespace Binary64

/-! ### Values of patterns -/

theorem one_eq : one = 2 ^ unitExponent := by
  unfold one
  generalize unitExponent = n
  exact Nat.pow_eq

theorem one_pos : 0 < one := by
  rw [one_eq]
  generalize unitExponent = n
  exact Nat.two_pow_pos n

/-- The value of a pattern that is given by a scale and a fraction, leading bit included. A fraction
may have carried into the next power of two. -/
theorem units_scale {scale m : Nat} (hm : m ≤ 2 ^ 53) (hscale : scale = 0 ∨ 2 ^ 52 ≤ m) :
    units (scale * Nat.pow 2 fractionBits + m) = m * 2 ^ scale := by
  have hfraction : Nat.pow 2 fractionBits = 2 ^ 52 := Nat.pow_eq
  rw [units, hfraction]
  rcases Nat.lt_or_ge m (2 ^ 52) with hlt | hge
  · obtain rfl : scale = 0 := hscale.resolve_right (Nat.not_le.mpr hlt)
    have hdiv : (0 * 2 ^ 52 + m) / 2 ^ 52 = 0 := by omega
    have hmod : (0 * 2 ^ 52 + m) % 2 ^ 52 = m := by omega
    simp only [hdiv, hmod, Nat.pow_zero, Nat.mul_one]
  rcases Nat.lt_or_ge m (2 ^ 53) with hlt | hge'
  · have hdiv : (scale * 2 ^ 52 + m) / 2 ^ 52 = scale + 1 := by omega
    have hsum : 2 ^ 52 + (scale * 2 ^ 52 + m) % 2 ^ 52 = m := by omega
    simp only [hdiv, hsum, Nat.pow_eq]
  · have hdiv : (scale * 2 ^ 52 + m) / 2 ^ 52 = scale + 1 + 1 := by omega
    have hmod : (scale * 2 ^ 52 + m) % 2 ^ 52 = 0 := by omega
    have htwice : m = 2 ^ 52 * 2 := by omega
    simp only [hdiv, hmod, Nat.pow_eq, Nat.add_zero]
    rw [htwice, Nat.mul_assoc, ← Nat.pow_succ']

theorem units_zero : units 0 = 0 := by
  have h := @units_scale 0 0 (Nat.zero_le _) (.inl rfl)
  rwa [Nat.zero_mul, Nat.zero_mul] at h

/-- A pattern is even if its fraction is. -/
theorem scale_mod_two (scale m : Nat) :
    (scale * Nat.pow 2 fractionBits + m) % 2 = m % 2 := by
  rw [Nat.pow_eq, fractionBits]
  omega

/-- Every pattern has a scale and a fraction that does not carry. -/
theorem exists_scale (p : Nat) : ∃ scale m, p = scale * Nat.pow 2 fractionBits + m ∧ m < 2 ^ 53 ∧
    (scale = 0 ∨ 2 ^ 52 ≤ m) := by
  simp only [fractionBits, Nat.pow_eq]
  rcases Nat.lt_or_ge p (2 ^ 52) with hlt | hge
  · exact ⟨0, p, by omega, by omega, .inl rfl⟩
  · exact ⟨p / 2 ^ 52 - 1, p % 2 ^ 52 + 2 ^ 52, by omega, by omega, .inr (by omega)⟩

/-- Patterns are ordered as their values are. -/
theorem strictMono_units : StrictMono units := by
  refine strictMono_nat_of_lt_succ fun p => ?_
  obtain ⟨scale, m, rfl, hm, hscale⟩ := exists_scale p
  have hnext : scale = 0 ∨ 2 ^ 52 ≤ m + 1 := hscale.imp_right Nat.le_succ_of_le
  rw [Nat.add_assoc, units_scale hm.le hscale, units_scale hm hnext]
  exact Nat.mul_lt_mul_of_pos_right (Nat.lt_succ_self m) (Nat.two_pow_pos scale)

/-- The value of a finite pattern; that of infinity is `2 ^ 1024`. -/
def value (pattern : Nat) : ℚ :=
  units pattern / one

/-- The fraction of a number counts steps of its scale. -/
theorem value_scale {scale m : Nat} (hm : m ≤ 2 ^ 53) (hscale : scale = 0 ∨ 2 ^ 52 ≤ m) :
    value (scale * Nat.pow 2 fractionBits + m) = (m * 2 ^ scale : Nat) / one := by
  rw [value, units_scale hm hscale]

theorem strictMono_value : StrictMono value := fun _ _ h =>
  div_lt_div_of_pos_right (Nat.cast_lt.mpr (strictMono_units h)) (Nat.cast_pos.mpr one_pos)

/-! ### The nearest pattern -/

/-- A pattern is the one nearest to a number. If another one is equally near, then it is even. -/
structure Rounds (q : ℚ) (p : Nat) : Prop where
  le : p ≤ infinity
  nearest : ∀ p' ≤ infinity, p' ≠ p →
    |q - value p| < |q - value p'| ∨ |q - value p| = |q - value p'| ∧ p % 2 = 0

namespace Rounds

variable {q : ℚ} {p p' a : Nat}

/-- Between two patterns that are equally near there is no other one. -/
theorem eq_succ_of_lt (h : Rounds q p) (h' : Rounds q p') (hlt : p < p') : p' = p + 1 := by
  by_contra hne
  have hbetween : p + 1 < p' := by omega
  have hlow := strictMono_value (Nat.lt_succ_self p)
  have hhigh := strictMono_value hbetween
  have hp := h.nearest (p + 1) (hbetween.le.trans h'.le) (by omega)
  have hp' := h'.nearest (p + 1) (hbetween.le.trans h'.le) (by omega)
  rcases abs_cases (q - value p) with ⟨h₁, h₁'⟩ | ⟨h₁, h₁'⟩ <;>
    rcases abs_cases (q - value p') with ⟨h₂, h₂'⟩ | ⟨h₂, h₂'⟩ <;>
    rcases abs_cases (q - value (p + 1)) with ⟨h₃, h₃'⟩ | ⟨h₃, h₃'⟩ <;>
    rcases hp with hp | ⟨hp, -⟩ <;> rcases hp' with hp' | ⟨hp', -⟩ <;> linarith

theorem not_lt (h : Rounds q p) (h' : Rounds q p') : ¬ p < p' := by
  intro hlt
  have hsucc := h.eq_succ_of_lt h' hlt
  have hp := h.nearest p' h'.le (by omega)
  have hp' := h'.nearest p h.le (by omega)
  rcases hp with hp | ⟨hp, heven⟩ <;> rcases hp' with hp' | ⟨hp', heven'⟩
  · exact absurd hp' hp.not_gt
  · exact absurd hp'.symm hp.ne
  · exact absurd hp.symm hp'.ne
  · omega

/-- A number rounds to one pattern. -/
theorem unique (h : Rounds q p) (h' : Rounds q p') : p = p' :=
  Nat.le_antisymm (Nat.not_lt.mp (h'.not_lt h)) (Nat.not_lt.mp (h.not_lt h'))

/-- A value rounds to its pattern. -/
theorem self (h : p ≤ infinity) : Rounds (value p) p where
  le := h
  nearest p' _ hne := by
    have hother : value p - value p' ≠ 0 := sub_ne_zero.mpr fun heq =>
      hne (strictMono_value.injective heq).symm
    rw [sub_self, abs_zero]
    exact .inl (abs_pos.mpr hother)

/-- What is too large rounds to infinity. -/
theorem infinity_of_le (h : value infinity ≤ q) : Rounds q infinity where
  le := Nat.le_refl _
  nearest p' hp' hne := by
    have hlt := strictMono_value (lt_of_le_of_ne hp' hne)
    rw [abs_of_nonneg (sub_nonneg.mpr h), abs_of_nonneg (by linarith)]
    exact .inl (by linarith)

/-- A number between the values of two consecutive patterns rounds to the nearer one, and to the even
one if it is in the middle. -/
theorem of_between (ha : a + 1 ≤ infinity) (hlow : value a ≤ q) (hhigh : q < value (a + 1))
    (hp : p = a ∧ (2 * q < value a + value (a + 1) ∨
        2 * q = value a + value (a + 1) ∧ a % 2 = 0) ∨
      p = a + 1 ∧ (value a + value (a + 1) < 2 * q ∨
        2 * q = value a + value (a + 1) ∧ a % 2 = 1)) : Rounds q p := by
  have hnear : |q - value a| = q - value a := abs_of_nonneg (sub_nonneg.mpr hlow)
  have hnear' : |q - value (a + 1)| = value (a + 1) - q := by
    rw [abs_sub_comm]
    exact abs_of_pos (sub_pos.mpr hhigh)
  have hbelow {p' : Nat} (h : p' < a) : |q - value a| < |q - value p'| := by
    have hvalue := strictMono_value h
    rw [hnear, abs_of_nonneg (by linarith)]
    linarith
  have habove {p' : Nat} (h : a + 1 < p') : |q - value (a + 1)| < |q - value p'| := by
    have hvalue := strictMono_value h
    rw [hnear', abs_sub_comm, abs_of_nonneg (by linarith)]
    linarith
  rcases hp with ⟨rfl, hp⟩ | ⟨rfl, hp⟩
  · refine ⟨by omega, fun p' _ hne => ?_⟩
    have hle : |q - value p| ≤ |q - value (p + 1)| := by
      rw [hnear, hnear']
      rcases hp with hp | ⟨hp, -⟩ <;> linarith
    rcases Nat.lt_trichotomy p' (p + 1) with h | rfl | h
    · exact .inl (hbelow (by omega))
    · rw [hnear, hnear']
      rcases hp with hp | ⟨hp, heven⟩
      · exact .inl (by linarith)
      · exact .inr ⟨by linarith, heven⟩
    · exact .inl (hle.trans_lt (habove h))
  · refine ⟨ha, fun p' _ hne => ?_⟩
    have hle : |q - value (a + 1)| ≤ |q - value a| := by
      rw [hnear, hnear']
      rcases hp with hp | ⟨hp, -⟩ <;> linarith
    rcases Nat.lt_trichotomy p' a with h | rfl | h
    · exact .inl (hle.trans_lt (hbelow h))
    · rw [hnear, hnear']
      rcases hp with hp | ⟨hp, hodd⟩
      · exact .inl (by linarith)
      · exact .inr ⟨by linarith, by omega⟩
    · exact .inl (habove (by omega))

/-- The same for any two consecutive patterns: the nearer one of those that are too large is
infinity. -/
theorem min_infinity (hlow : value a ≤ q) (hhigh : q < value (a + 1))
    (hp : p = a ∧ (2 * q < value a + value (a + 1) ∨
        2 * q = value a + value (a + 1) ∧ a % 2 = 0) ∨
      p = a + 1 ∧ (value a + value (a + 1) < 2 * q ∨
        2 * q = value a + value (a + 1) ∧ a % 2 = 1)) : Rounds q (min infinity p) := by
  have hle : a ≤ p ∧ p ≤ a + 1 := by
    rcases hp with ⟨rfl, -⟩ | ⟨rfl, -⟩ <;> omega
  by_cases hcap : a + 1 ≤ infinity
  · rw [min_eq_right (hle.2.trans hcap)]
    exact of_between hcap hlow hhigh hp
  · have ha : infinity ≤ a := by omega
    rw [min_eq_left (ha.trans hle.1)]
    exact infinity_of_le ((strictMono_value.monotone ha).trans hlow)

end Rounds

/-! ### What is computed -/

/-- Half-even rounding of a whole quotient. -/
theorem roundHalfEven_cases (num den : Nat) :
    roundHalfEven num den = num / den ∧ (2 * num < (2 * (num / den) + 1) * den ∨
        2 * num = (2 * (num / den) + 1) * den ∧ num / den % 2 = 0) ∨
      roundHalfEven num den = num / den + 1 ∧ ((2 * (num / den) + 1) * den < 2 * num ∨
        2 * num = (2 * (num / den) + 1) * den ∧ num / den % 2 = 1) := by
  have hnum := Nat.div_add_mod num den
  have hmiddle : (2 * (num / den) + 1) * den = 2 * (den * (num / den)) + den := by ring
  unfold roundHalfEven
  rw [hmiddle]
  generalize den * (num / den) = whole at *
  generalize num / den = quotient at *
  dsimp only
  split_ifs <;> omega

/-- A scale that leaves fifty-three bits, or fewer of a number that has fewer. -/
theorem log2_bounds (n : Nat) : n / 2 ^ (n.log2 - fractionBits) < 2 ^ 53 ∧
    (n.log2 - fractionBits = 0 ∨ 2 ^ 52 ≤ n / 2 ^ (n.log2 - fractionBits)) := by
  have hfraction : fractionBits = 52 := rfl
  rw [hfraction]
  constructor
  · rw [Nat.div_lt_iff_lt_mul (Nat.two_pow_pos _), ← Nat.pow_add]
    exact Nat.lt_log2_self.trans_le (Nat.pow_le_pow_right Nat.two_pos (by omega))
  · by_cases hscale : n.log2 - 52 = 0
    · exact .inl hscale
    · have hne : n ≠ 0 := by
        rintro rfl
        exact hscale (by simp)
      right
      rw [Nat.le_div_iff_mul_le (Nat.two_pow_pos _), ← Nat.pow_add]
      exact (Nat.pow_le_pow_right Nat.two_pos (by omega)).trans (Nat.log2_self_le hne)

/-- Counts of units are compared with a quotient without dividing. -/
theorem div_one_lt_iff {count num den : Nat} (hden : 0 < den) :
    ((count : ℚ) / one < num / den ↔ count * den < num * one) ∧
      ((num : ℚ) / den < count / one ↔ num * one < count * den) := by
  have hone : (0 : ℚ) < one := Nat.cast_pos.mpr one_pos
  have hden : (0 : ℚ) < den := Nat.cast_pos.mpr hden
  rw [div_lt_div_iff₀ hone hden, div_lt_div_iff₀ hden hone]
  exact ⟨by exact_mod_cast Iff.rfl, by exact_mod_cast Iff.rfl⟩

theorem div_one_eq_iff {count num den : Nat} (hden : 0 < den) :
    (num : ℚ) / den = count / one ↔ num * one = count * den := by
  rw [div_eq_div_iff (Nat.cast_ne_zero.mpr hden.ne') (Nat.cast_ne_zero.mpr one_pos.ne')]
  exact_mod_cast Iff.rfl

/-- The computed pattern is the nearest one. -/
theorem rounds_ofRatio (num : Nat) {den : Nat} (hden : 0 < den) :
    Rounds (num / den) (ofRatio num den) := by
  obtain ⟨hlt, hscale⟩ := log2_bounds (num * one / den)
  unfold ofRatio
  dsimp only
  generalize (num * one / den).log2 - fractionBits = scale at *
  rw [@Nat.pow_eq 2 scale]
  rw [Nat.div_div_eq_div_mul] at hlt hscale
  have hstep : 0 < den * 2 ^ scale := Nat.mul_pos hden (Nat.two_pow_pos scale)
  have hrounded := roundHalfEven_cases (num * one) (den * 2 ^ scale)
  have hlow := Nat.div_mul_le_self (num * one) (den * 2 ^ scale)
  have hhigh := Nat.lt_mul_div_succ (num * one) hstep
  generalize num * one / (den * 2 ^ scale) = m at *
  -- the number lies between the values of two patterns, `m` and `m + 1` steps on the scale
  have hvalue := value_scale hlt.le hscale
  have hnext := value_scale (m := m + 1) hlt (hscale.imp_right Nat.le_succ_of_le)
  have hmiddle : value (scale * Nat.pow 2 fractionBits + m) +
      value (scale * Nat.pow 2 fractionBits + m + 1) = ((2 * m + 1) * 2 ^ scale : Nat) / one := by
    rw [Nat.add_assoc, hvalue, hnext, ← add_div]
    push_cast
    ring
  have htwice : 2 * ((num : ℚ) / den) = (2 * num : Nat) / den := by
    push_cast
    ring
  have hmul (k : Nat) : k * 2 ^ scale * den = k * (den * 2 ^ scale) := by ring
  refine .min_infinity (a := scale * Nat.pow 2 fractionBits + m) ?_ ?_ ?_
  · rw [hvalue, ← not_lt, (div_one_lt_iff hden).2, hmul]
    exact hlow.not_gt
  · rw [Nat.add_assoc, hnext, (div_one_lt_iff hden).2, hmul]
    exact hhigh.trans_eq (Nat.mul_comm _ _)
  · rw [hmiddle, htwice, scale_mod_two, Nat.add_assoc, Nat.add_right_inj, Nat.add_right_inj,
      (div_one_lt_iff hden).1, (div_one_lt_iff hden).2, div_one_eq_iff hden, hmul, Nat.mul_assoc 2]
    exact hrounded

end Binary64

/-! ### Decimals -/

namespace Decimal

open Binary64 (Rounds infinity)

/-- The value of a decimal. -/
def value (d : Decimal) : ℚ :=
  d.coefficient * 10 ^ d.exponent

theorem num_div_den (d : Decimal) : (d.num : ℚ) / d.den = d.value := by
  obtain ⟨coefficient, exponent⟩ := d
  simp only [num, den, value, Nat.pow_eq]
  cases exponent with
  | ofNat n => simp
  | negSucc n => simp [zpow_negSucc, div_eq_mul_inv]

/-- A decimal is read as the pattern nearest to its value. -/
theorem rounds_pattern (d : Decimal) : Rounds d.value d.pattern := by
  have hden : 0 < d.den := Nat.pow_pos (by decide)
  rw [← d.num_div_den]
  exact Binary64.rounds_ofRatio d.num hden

theorem pattern_eq_iff {d : Decimal} {p : Nat} : d.pattern = p ↔ Rounds d.value p :=
  ⟨fun h => h ▸ d.rounds_pattern, d.rounds_pattern.unique⟩

/-- Decimals of the same value are read as the same pattern. -/
theorem pattern_congr {d d' : Decimal} (h : d.value = d'.value) : d.pattern = d'.pattern :=
  pattern_eq_iff.mpr (h ▸ d'.rounds_pattern)

/-- A decimal that has the value of a pattern is read as that pattern. -/
theorem pattern_of_value {d : Decimal} {p : Nat} (hp : p ≤ infinity)
    (h : d.value = Binary64.value p) : d.pattern = p :=
  pattern_eq_iff.mpr (h ▸ .self hp)

end Decimal

end Treewalk
