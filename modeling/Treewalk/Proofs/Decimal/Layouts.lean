import Mathlib.Tactic.FieldSimp
import Treewalk.Decimal.Layout
import Treewalk.Proofs.Decimal.Rounding
import Treewalk.Proofs.Token.Pieces

/-!
# Reading decimals back

The shortest decimal of a pattern rounds to that pattern, whichever grid it was found on: every hit of
the search was tried, and what closes the search is the exact value.

Each layout of a decimal can be read back. What is read is a decimal of the same value, so it rounds to
the same pattern.

## Main definitions

* `Decimal.ofText?`: the decimal that a text denotes.

## Main results

* `Decimal.pattern_shortest`: the shortest decimal rounds to its pattern.
* `Decimal.exists_ofText?_digits`, `Decimal.exists_ofText?_positional`,
  `Decimal.exists_ofText?_scientific`: what the layouts denote.
-/

namespace Treewalk.Decimal

open Binary64 (infinity one units unitExponent)

variable {tie : Tie} {target : Nat} {place : Int} {d : Decimal}

/-! ### Shortest decimals -/

theorem value_tenth {coefficient : Nat} (h : coefficient % 10 = 0) (exponent : Int) :
    value ⟨coefficient / 10, exponent + 1⟩ = value ⟨coefficient, exponent⟩ := by
  obtain ⟨k, rfl⟩ : ∃ k, coefficient = 10 * k := Nat.dvd_of_mod_eq_zero h
  simp only [value]
  rw [Nat.mul_div_cancel_left k (by decide), zpow_add_one₀ (by norm_num)]
  push_cast
  ring

theorem value_dropZeros (count : Nat) (d : Decimal) : (dropZeros count d).value = d.value := by
  induction count generalizing d with
  | zero => rw [dropZeros]
  | succ count ih =>
    rw [dropZeros]
    split
    · next hzero =>
      rw [ih]
      exact value_tenth hzero.1 d.exponent
    · rfl

theorem value_normalize (d : Decimal) : d.normalize.value = d.value :=
  value_dropZeros _ d

/-- What is taken from a grid rounds to the target. -/
theorem pattern_of_onGrid? (h : onGrid? tie target place = some d) : d.pattern = target := by
  unfold onGrid? at h
  extract_lets num den low high at h
  clear_value num den low high
  split_ifs at h with hlow hhigh hupper hhigh <;> obtain rfl := Option.some.inj h
  · exact hhigh
  · exact hlow
  · exact hlow
  · exact hhigh

theorem value_exact (target : Nat) : (exact target).value = Binary64.value target := by
  rw [exact, value, Binary64.value, Binary64.one_eq]
  dsimp only
  generalize unitExponent = n
  have hten : (10 : ℚ) ^ n = 2 ^ n * 5 ^ n := by
    rw [← mul_pow]
    norm_num
  rw [Nat.pow_eq, zpow_neg, zpow_natCast, hten]
  push_cast
  field_simp

theorem pattern_search (htarget : target ≤ infinity) (place : Int) (count : Nat) :
    (search tie target place count).pattern = target := by
  induction count generalizing place with
  | zero => exact pattern_of_value htarget (value_exact target)
  | succ count ih =>
    rw [search]
    cases h : onGrid? tie target place with
    | none => exact ih (place - 1)
    | some d => exact pattern_of_onGrid? h

/-- The shortest decimal of a pattern rounds to that pattern. -/
theorem pattern_shortest (tie : Tie) (htarget : target ≤ infinity) :
    (shortest tie target).pattern = target := by
  unfold shortest
  split
  · next hzero =>
    refine pattern_of_value htarget ?_
    rw [hzero, Binary64.value, Binary64.units_zero, value]
    simp only [Nat.cast_zero, zero_mul, zero_div]
  · exact (pattern_congr (value_normalize _)).trans (pattern_search htarget _ _)

/-! ### Digits -/

/-- One or more digits. -/
def IsNumeral (ds : List Char) : Prop :=
  ds ≠ [] ∧ ∀ c ∈ ds, c.isDigit

instance (ds : List Char) : Decidable (IsNumeral ds) :=
  inferInstanceAs (Decidable (ds ≠ [] ∧ ∀ c ∈ ds, c.isDigit))

theorem ofDigits_digits (n : Nat) : ofDigits (digits n) = n :=
  Nat.ofDigitChars_ten_toDigits

theorem isNumeral_digits (n : Nat) : IsNumeral (digits n) :=
  ⟨Nat.toDigits_ne_nil, fun _ hc => Nat.isDigit_of_mem_toDigits (by decide) (by decide) hc⟩

theorem isNumeral_zero : IsNumeral ['0'] :=
  isNumeral_digits 0

theorem ofDigits_zeros_append (k : Nat) (ds : List Char) :
    ofDigits (List.replicate k '0' ++ ds) = ofDigits ds := by
  change Nat.ofDigitChars 10 _ 0 = Nat.ofDigitChars 10 ds 0
  rw [Nat.ofDigitChars_append, Nat.ofDigitChars_replicate_zero, Nat.mul_zero]

theorem ofDigits_append_zeros (ds : List Char) (k : Nat) :
    ofDigits (ds ++ List.replicate k '0') = ofDigits ds * 10 ^ k := by
  change Nat.ofDigitChars 10 _ 0 = Nat.ofDigitChars 10 ds 0 * 10 ^ k
  rw [Nat.ofDigitChars_append, Nat.ofDigitChars_replicate_zero, Nat.mul_comm]

namespace IsNumeral

variable {xs ys : List Char}

theorem append_zeros (h : IsNumeral xs) (k : Nat) : IsNumeral (xs ++ List.replicate k '0') := by
  refine ⟨List.append_ne_nil_of_left_ne_nil h.1 _, fun c hc => ?_⟩
  rcases List.mem_append.mp hc with hc | hc
  · exact h.2 c hc
  · rw [List.eq_of_mem_replicate hc]
    rfl

theorem zeros_append (h : IsNumeral xs) (k : Nat) : IsNumeral (List.replicate k '0' ++ xs) := by
  refine ⟨List.append_ne_nil_of_right_ne_nil _ h.1, fun c hc => ?_⟩
  rcases List.mem_append.mp hc with hc | hc
  · rw [List.eq_of_mem_replicate hc]
    rfl
  · exact h.2 c hc

theorem of_subset (h : IsNumeral xs) (hys : ys ≠ []) (hsubset : ys ⊆ xs) : IsNumeral ys :=
  ⟨hys, fun c hc => h.2 c (hsubset hc)⟩

theorem ne_of_mem (h : IsNumeral xs) {a : Char} (ha : a.isDigit = false) :
    ∀ c ∈ xs, (c != a) = true := by
  intro c hc
  rw [bne_iff_ne]
  rintro rfl
  exact absurd (h.2 c hc) (by simp [ha])

end IsNumeral

/-! ### Texts of decimals -/

/-- The decimal that digits denote, with a point between them or without one. -/
def significand? (text : List Char) : Option Decimal :=
  let whole := text.takeWhile (· != '.')
  match text.dropWhile (· != '.') with
  | [] => if IsNumeral whole then some (read whole []) else none
  | _ :: fraction =>
    if IsNumeral whole ∧ IsNumeral fraction then some (read whole fraction) else none

/-- The power of ten that digits denote, with a sign before them or without one. -/
def exponent? : List Char → Option Int
  | '-' :: ds => if IsNumeral ds then some (-Int.ofNat (ofDigits ds)) else none
  | ds => if IsNumeral ds then some (Int.ofNat (ofDigits ds)) else none

/-- The decimal that a text denotes: digits, perhaps with a point between them, and perhaps with a
power of ten after them. -/
def ofText? (text : List Char) : Option Decimal :=
  match text.dropWhile (· != 'e') with
  | [] => significand? text
  | _ :: power => do
    let d ← significand? (text.takeWhile (· != 'e'))
    let exponent ← exponent? power
    return ⟨d.coefficient, d.exponent + exponent⟩

section Texts

variable {whole fraction ds text power : List Char}

theorem significand?_whole (h : IsNumeral ds) : significand? ds = some (read ds []) := by
  have hspan := @Token.span_append [] (· != '.') ds (h.ne_of_mem rfl) (by simp)
  rw [List.append_nil] at hspan
  simp only [significand?, hspan, if_pos h]

theorem significand?_point (hwhole : IsNumeral whole) (hfraction : IsNumeral fraction) :
    significand? (whole ++ '.' :: fraction) = some (read whole fraction) := by
  have hspan := @Token.span_append ('.' :: fraction) (· != '.') whole (hwhole.ne_of_mem rfl) (by simp)
  simp only [significand?, hspan, if_pos (And.intro hwhole hfraction)]

theorem exponent?_plain (h : IsNumeral ds) : exponent? ds = some (Int.ofNat (ofDigits ds)) := by
  unfold exponent?
  split
  · exact absurd (h.2 '-' List.mem_cons_self) (by decide)
  · rw [if_pos h]

theorem exponent?_minus (h : IsNumeral ds) : exponent? ('-' :: ds) = some (-Int.ofNat (ofDigits ds)) := by
  rw [exponent?, if_pos h]

/-- A text without an exponent. -/
theorem ofText?_plain (h : ∀ c ∈ text, (c != 'e') = true) : ofText? text = significand? text := by
  have hspan := @Token.span_append [] (· != 'e') text h (by simp)
  rw [List.append_nil] at hspan
  rw [ofText?, hspan.2]

/-- A text with an exponent. -/
theorem ofText?_power {exponent : Int} (h : ∀ c ∈ text, (c != 'e') = true)
    (hd : significand? text = some d) (hpower : exponent? power = some exponent) :
    ofText? (text ++ 'e' :: power) = some ⟨d.coefficient, d.exponent + exponent⟩ := by
  have hspan := @Token.span_append ('e' :: power) (· != 'e') text h (by simp)
  simp only [ofText?, hspan, hd, hpower, Option.bind_eq_bind, Option.bind_some]
  rfl

/-- Digits are read as the whole number that they denote. -/
theorem ofText?_digits (n : Nat) : ofText? (digits n) = some ⟨n, 0⟩ := by
  have h := isNumeral_digits n
  rw [ofText?_plain (h.ne_of_mem rfl), significand?_whole h, read, List.append_nil, ofDigits_digits]
  rfl

end Texts

/-! ### Layouts -/

theorem ne_of_mem_point {whole fraction : List Char} (hwhole : IsNumeral whole)
    (hfraction : IsNumeral fraction) : ∀ c ∈ whole ++ '.' :: fraction, (c != 'e') = true := by
  intro c hc
  rcases List.mem_append.mp hc with hc | hc
  · exact hwhole.ne_of_mem rfl c hc
  · rcases List.mem_cons.mp hc with rfl | hc
    · rfl
    · exact hfraction.ne_of_mem rfl c hc

theorem ofText?_point {whole fraction : List Char} (hwhole : IsNumeral whole)
    (hfraction : IsNumeral fraction) :
    ofText? (whole ++ '.' :: fraction) = some (read whole fraction) := by
  rw [ofText?_plain (ne_of_mem_point hwhole hfraction), significand?_point hwhole hfraction]

/-- The positional layout denotes a decimal of the same value. -/
theorem exists_ofText?_positional (d : Decimal) :
    ∃ d', ofText? d.positional = some d' ∧ d'.value = d.value := by
  obtain ⟨coefficient, exponent⟩ := d
  have hdigits := isNumeral_digits coefficient
  cases exponent with
  | ofNat zeros =>
    have hnumeral := hdigits.append_zeros zeros
    refine ⟨read (digits coefficient ++ List.replicate zeros '0') [], ?_, ?_⟩
    · change ofText? (digits coefficient ++ List.replicate zeros '0') = _
      rw [ofText?_plain (hnumeral.ne_of_mem rfl), significand?_whole hnumeral]
    · rw [read, List.append_nil, ofDigits_append_zeros, ofDigits_digits]
      simp [value]
  | negSucc n =>
    simp only [positional]
    generalize hlength : (digits coefficient).length = length
    split
    · next hplaces =>
      have hwhole : IsNumeral ((digits coefficient).take (length - (n + 1))) :=
        hdigits.of_subset (List.ne_nil_of_length_pos (by rw [List.length_take]; omega))
          (List.take_subset _ _)
      have hfraction : IsNumeral ((digits coefficient).drop (length - (n + 1))) :=
        hdigits.of_subset (List.ne_nil_of_length_pos (by rw [List.length_drop]; omega))
          (List.drop_subset _ _)
      refine ⟨_, ofText?_point hwhole hfraction, ?_⟩
      have hplace : length - (length - (n + 1)) = n + 1 := by omega
      rw [read, List.take_append_drop, ofDigits_digits, List.length_drop, hlength, hplace]
      rfl
    · next hplaces =>
      have hfraction := hdigits.zeros_append (n + 1 - length)
      refine ⟨_, ofText?_point isNumeral_zero hfraction, ?_⟩
      have hplace : n + 1 - length + length = n + 1 := by omega
      rw [read, List.singleton_append, ← List.cons_append, ← List.replicate_succ,
        ofDigits_zeros_append, ofDigits_digits, List.length_append, List.length_replicate, hlength,
        hplace]
      rfl

/-- The power of ten of the first digit, with its sign. -/
theorem exponent?_digits (e : Int) :
    exponent? ((if e < 0 then ['-'] else []) ++ digits e.natAbs) = some e := by
  have hdigits := isNumeral_digits e.natAbs
  split
  · next hneg =>
    have habs : -Int.ofNat e.natAbs = e := by
      rw [Int.ofNat_eq_natCast]
      omega
    rw [List.singleton_append, exponent?_minus hdigits, ofDigits_digits, habs]
  · next hneg =>
    have habs : Int.ofNat e.natAbs = e := by
      rw [Int.ofNat_eq_natCast]
      omega
    rw [List.nil_append, exponent?_plain hdigits, ofDigits_digits, habs]

/-- The scientific layout denotes the decimal itself. -/
theorem ofText?_scientific (d : Decimal) : ofText? (d.scientific false) = some d := by
  obtain ⟨coefficient, exponent⟩ := d
  have hdigits := isNumeral_digits coefficient
  have hcoefficient := ofDigits_digits coefficient
  have hmagnitude : magnitude ⟨coefficient, exponent⟩ =
    exponent + ((digits coefficient).length - 1 : Nat) := rfl
  simp only [scientific, Bool.false_eq_true, if_false]
  generalize magnitude ⟨coefficient, exponent⟩ = e at *
  have hpower := exponent?_digits e
  generalize digits coefficient = ds at *
  rcases ds with _ | ⟨c, _ | ⟨c', rest⟩⟩
  · exact absurd rfl hdigits.1
  · rw [ofText?_power (hdigits.ne_of_mem rfl) (significand?_whole hdigits) hpower]
    simp [read, hcoefficient, hmagnitude]
  · have hwhole : IsNumeral [c] := hdigits.of_subset (List.cons_ne_nil _ _) (by simp)
    have hfraction : IsNumeral (c' :: rest) :=
      hdigits.of_subset (List.cons_ne_nil _ _) (List.subset_cons_self _ _)
    have htext := ofText?_power (ne_of_mem_point hwhole hfraction)
      (significand?_point hwhole hfraction) hpower
    refine htext.trans ?_
    rw [read, List.singleton_append, hcoefficient, hmagnitude]
    simp only [List.length_cons, Nat.add_sub_cancel, Option.some.injEq, mk.injEq, true_and]
    omega

end Treewalk.Decimal
