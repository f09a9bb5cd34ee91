import Mathlib
import Treewalk.Token.Scan

/-!
# Forms of tokens and comments

What a token of a kind can look like and what a nested comment looks like, said without reading a
text from left to right: the texts of a kind of token, and the texts in which every opening of a
comment has its closing.

No text has two kinds, and the first character of a text decides which kinds it can have.

## Main definitions

* `Token.Spells`: the texts of a kind of token.
* `Token.Nested`: the texts from just after an opening of a comment to its closing.

## Main results

* `Token.Spells.unique`: a text has at most one kind.
* `Token.afterComment_append`, `Token.exists_nested`: what the reader of comments takes is a nested
  comment.
-/

namespace Treewalk

/-! ### First characters -/

namespace Token

/-- What a piece of text can begin with. -/
inductive Opening
  | blank | quote | digit | letter | other
  deriving DecidableEq

/-- Which of them a character is. -/
def opening (c : Char) : Opening :=
  if isBlank c then .blank
  else if c = '"' then .quote
  else if isDigit c then .digit
  else if isNameStart c then .letter
  else .other

theorem opening_of_isBlank {c : Char} (h : isBlank c) : opening c = .blank :=
  if_pos h

theorem opening_of_isDigit {c : Char} (h : isDigit c) : opening c = .digit := by
  have hblank : isBlank c = false := by
    by_contra hblank
    simp only [Bool.not_eq_false, isBlank, Bool.or_eq_true, beq_iff_eq] at hblank
    rcases hblank with ((rfl | rfl) | rfl) | rfl <;> exact absurd h (by decide)
  have hquote : c ≠ '"' := by
    rintro rfl
    exact absurd h (by decide)
  simp [opening, hblank, hquote, h]

theorem opening_of_isNameStart {c : Char} (h : isNameStart c) : opening c = .letter := by
  have hblank : isBlank c = false := by
    by_contra hblank
    simp only [Bool.not_eq_false, isBlank, Bool.or_eq_true, beq_iff_eq] at hblank
    rcases hblank with ((rfl | rfl) | rfl) | rfl <;> exact absurd h (by decide)
  have hquote : c ≠ '"' := by
    rintro rfl
    exact absurd h (by decide)
  have hdigit : isDigit c = false := by
    by_contra hdigit
    simp only [Bool.not_eq_false, isDigit, Bool.and_eq_true, decide_eq_true_eq] at hdigit
    have hupper : c < 'A' := lt_of_le_of_lt hdigit.2 (by decide)
    have hlower : c < 'a' := lt_of_le_of_lt hdigit.2 (by decide)
    have hne : c ≠ '_' := by
      rintro rfl
      exact absurd hdigit (by decide)
    simp [isNameStart, hne, not_le_of_gt hupper, not_le_of_gt hlower] at h
  simp [opening, hblank, hquote, hdigit, h]

end Token

/-! ### Fixed texts -/

theorem Mark.exists_cons (m : Mark) :
    ∃ c rest, m.text.toList = c :: rest ∧ Token.opening c = .other := by
  cases m <;> exact ⟨_, _, rfl, by decide⟩

theorem Mark.text_injective {m m' : Mark} (h : m.text.toList = m'.text.toList) : m = m' := by
  revert m m'
  have hall : ∀ m ∈ Mark.all, ∀ m' ∈ Mark.all, m.text.toList = m'.text.toList → m = m' := by decide
  exact fun {m m'} h => hall m (by cases m <;> decide) m' (by cases m' <;> decide) h

/-- A reserved word looks like a name. -/
theorem Keyword.exists_cons (k : Keyword) : ∃ c rest, k.text.toList = c :: rest ∧
    Token.isNameStart c ∧ ∀ d ∈ rest, Token.isNamePart d := by
  cases k <;> exact ⟨_, _, rfl, by decide, List.all_eq_true.mp (by decide)⟩

theorem Keyword.text_injective {k k' : Keyword} (h : k.text.toList = k'.text.toList) : k = k' := by
  have hall : ∀ k ∈ Keyword.all, ∀ k' ∈ Keyword.all, k.text.toList = k'.text.toList → k = k' := by
    decide
  exact hall k (by cases k <;> decide) k' (by cases k' <;> decide) h

namespace Token

/-! ### Tokens -/

/-- A text can be a token of a kind. -/
inductive Spells : TokenKind → List Char → Prop
  /-- A mark has one text. -/
  | mark (m : Mark) : Spells (.mark m) m.text.toList
  /-- A reserved word has one text. -/
  | keyword (k : Keyword) : Spells (.keyword k) k.text.toList
  /-- A name begins with a letter, goes on with letters and digits and is not reserved. -/
  | identifier {c : Char} {rest : List Char} (hstart : isNameStart c)
      (hrest : ∀ d ∈ rest, isNamePart d) (hfree : ∀ k : Keyword, k.text.toList ≠ c :: rest) :
    Spells .identifier (c :: rest)
  /-- A text literal stands in quotes and has none inside. -/
  | string {text : List Char} (hquote : '"' ∉ text) :
    Spells (.string (String.ofList text)) ('"' :: (text ++ ['"']))
  /-- Digits are a number. -/
  | whole {c : Char} {digits : List Char} (hc : isDigit c) (hdigits : ∀ d ∈ digits, isDigit d) :
    Spells (.number (numberValue (c :: digits) [])) (c :: digits)
  /-- Digits on both sides of a point are a number. -/
  | decimal {c d : Char} {digits fraction : List Char} (hc : isDigit c)
      (hdigits : ∀ d ∈ digits, isDigit d) (hd : isDigit d) (hfraction : ∀ d ∈ fraction, isDigit d) :
    Spells (.number (numberValue (c :: digits) (d :: fraction)))
      (c :: (digits ++ '.' :: d :: fraction))

/-- What the tokens of a kind begin with. -/
def firstOf : TokenKind → Opening
  | .mark _ => .other
  | .keyword _ => .letter
  | .identifier => .letter
  | .string _ => .quote
  | .number _ => .digit
  | .endOfText => .other

namespace Spells

variable {kind kind' : TokenKind} {c : Char} {rest text : List Char}

/-- The first character of a token decides which kinds it can have. -/
theorem exists_cons (h : Spells kind text) :
    ∃ c rest, text = c :: rest ∧ opening c = firstOf kind := by
  cases h with
  | mark m => exact m.exists_cons
  | keyword k =>
    obtain ⟨c, rest, heq, hc, -⟩ := k.exists_cons
    exact ⟨c, rest, heq, opening_of_isNameStart hc⟩
  | identifier hstart => exact ⟨_, _, rfl, opening_of_isNameStart hstart⟩
  | string => exact ⟨_, _, rfl, rfl⟩
  | whole hc => exact ⟨_, _, rfl, opening_of_isDigit hc⟩
  | decimal hc => exact ⟨_, _, rfl, opening_of_isDigit hc⟩

theorem opening_eq (h : Spells kind (c :: rest)) : opening c = firstOf kind := by
  obtain ⟨_, _, heq, hopening⟩ := h.exists_cons
  cases heq
  exact hopening

/-- No token begins with a blank. -/
theorem opening_ne_blank (h : Spells kind (c :: rest)) : opening c ≠ .blank := by
  rw [h.opening_eq]
  cases kind <;> exact nofun

/-- What begins with a quote is a text literal. -/
theorem of_quote (h : Spells kind ('"' :: rest)) :
    ∃ text, '"' ∉ text ∧ rest = text ++ ['"'] ∧ kind = .string (String.ofList text) := by
  have hopening := h.opening_eq
  generalize htext : '"' :: rest = text at h
  cases h with
  | string hquote =>
    cases htext
    exact ⟨_, hquote, rfl, rfl⟩
  | _ => cases hopening

/-- What begins with a digit is a number. -/
theorem of_digit (h : Spells kind (c :: rest)) (hc : isDigit c) :
    ((∀ d ∈ rest, isDigit d) ∧ kind = .number (numberValue (c :: rest) [])) ∨
      ∃ digits d fraction, rest = digits ++ '.' :: d :: fraction ∧ (∀ d ∈ digits, isDigit d) ∧
        isDigit d ∧ (∀ d ∈ fraction, isDigit d) ∧
        kind = .number (numberValue (c :: digits) (d :: fraction)) := by
  have hopening := h.opening_eq
  rw [opening_of_isDigit hc] at hopening
  generalize htext : c :: rest = text at h
  cases h with
  | whole _ hdigits =>
    cases htext
    exact .inl ⟨hdigits, rfl⟩
  | decimal _ hdigits hd hfraction =>
    cases htext
    exact .inr ⟨_, _, _, rfl, hdigits, hd, hfraction, rfl⟩
  | _ => cases hopening

/-- What begins with a letter is a reserved word or a name. -/
theorem of_letter (h : Spells kind (c :: rest)) (hc : isNameStart c) :
    (∀ d ∈ rest, isNamePart d) ∧ ((∃ k : Keyword, k.text.toList = c :: rest ∧ kind = .keyword k) ∨
      (∀ k : Keyword, k.text.toList ≠ c :: rest) ∧ kind = .identifier) := by
  have hopening := h.opening_eq
  rw [opening_of_isNameStart hc] at hopening
  generalize htext : c :: rest = text at h
  cases h with
  | keyword k =>
    obtain ⟨_, _, heq, -, hrest⟩ := k.exists_cons
    rw [← htext] at heq
    cases heq
    exact ⟨hrest, .inl ⟨k, rfl, rfl⟩⟩
  | identifier _ hrest hfree =>
    cases htext
    exact ⟨hrest, .inr ⟨hfree, rfl⟩⟩
  | _ => cases hopening

/-- What begins with any other character is a mark. -/
theorem of_other (h : Spells kind (c :: rest)) (hc : opening c = .other) :
    ∃ m : Mark, m.text.toList = c :: rest ∧ kind = .mark m := by
  have hopening := h.opening_eq
  rw [hc] at hopening
  generalize htext : c :: rest = text at h
  cases h with
  | mark m => exact ⟨m, rfl, rfl⟩
  | _ => cases hopening

end Spells

/-- Digits before a point are all the digits that there are. -/
theorem append_point_inj {p : Char → Bool} {xs ys us vs : List Char} {a : Char} (ha : ¬ p a)
    (hxs : ∀ x ∈ xs, p x) (hys : ∀ y ∈ ys, p y) (h : xs ++ a :: us = ys ++ a :: vs) :
    xs = ys ∧ us = vs := by
  induction xs generalizing ys with
  | nil =>
    cases ys with
    | nil => exact ⟨rfl, (List.cons.inj h).2⟩
    | cons y ys =>
      obtain rfl := (List.cons.inj h).1
      exact absurd (hys _ List.mem_cons_self) ha
  | cons x xs ih =>
    cases ys with
    | nil =>
      obtain rfl := (List.cons.inj h).1
      exact absurd (hxs _ List.mem_cons_self) ha
    | cons y ys =>
      obtain ⟨rfl, htail⟩ := List.cons.inj h
      obtain ⟨rfl, rfl⟩ := ih (List.forall_mem_cons.mp hxs).2 (List.forall_mem_cons.mp hys).2 htail
      exact ⟨rfl, rfl⟩

/-- A text has at most one kind. -/
theorem Spells.unique {kind kind' : TokenKind} {text : List Char} (h : Spells kind text)
    (h' : Spells kind' text) : kind = kind' := by
  cases h with
  | mark m =>
    obtain ⟨c, rest, heq, hc⟩ := m.exists_cons
    rw [heq] at h'
    obtain ⟨m', heq', rfl⟩ := h'.of_other hc
    rw [Mark.text_injective (heq.trans heq'.symm)]
  | keyword k =>
    obtain ⟨c, rest, heq, hc, -⟩ := k.exists_cons
    rw [heq] at h'
    rcases (h'.of_letter hc).2 with ⟨k', heq', rfl⟩ | ⟨hfree, -⟩
    · rw [Keyword.text_injective (heq.trans heq'.symm)]
    · exact absurd heq (hfree k)
  | identifier hstart _ hfree =>
    rcases (h'.of_letter hstart).2 with ⟨k', heq', -⟩ | ⟨-, rfl⟩
    · exact absurd heq' (hfree k')
    · rfl
  | string =>
    obtain ⟨text', -, heq, rfl⟩ := h'.of_quote
    rw [List.append_cancel_right heq]
  | whole hc hdigits =>
    rcases h'.of_digit hc with ⟨-, rfl⟩ | ⟨digits', d, fraction, rfl, -⟩
    · rfl
    · exact absurd (hdigits '.' (by simp)) (by decide)
  | decimal hc hdigits _ _ =>
    rcases h'.of_digit hc with ⟨hall, -⟩ | ⟨digits', d, fraction, heq, hall, -, -, rfl⟩
    · exact absurd (hall '.' (by simp)) (by decide)
    · obtain ⟨rfl, hfraction⟩ := append_point_inj (by decide) hdigits hall heq
      rw [hfraction]

/-! ### Nested comments -/

/-- A text that begins just after an opening of a comment and ends with the closing of that
comment. -/
inductive Nested : List Char → Prop
  /-- The closing. -/
  | closing : Nested ['*', '/']
  /-- A character with which neither an opening nor a closing begins. -/
  | plain {c : Char} {rest : List Char} (hopening : ¬ ['/', '*'] <+: c :: rest)
      (hclosing : ¬ ['*', '/'] <+: c :: rest) (h : Nested rest) : Nested (c :: rest)
  /-- A comment within the comment. -/
  | inner {body rest : List Char} (hbody : Nested body) (h : Nested rest) :
    Nested ('/' :: '*' :: (body ++ rest))

theorem Nested.ne_nil {body : List Char} (h : Nested body) : body ≠ [] := by
  cases h <;> exact List.cons_ne_nil _ _

/-- A character with which neither an opening nor a closing begins changes no depth. -/
theorem afterComment_plain {depth : Nat} {c : Char} {rest : List Char}
    (hopening : ¬ ['/', '*'] <+: c :: rest) (hclosing : ¬ ['*', '/'] <+: c :: rest) :
    afterComment (depth + 1) (c :: rest) = afterComment (depth + 1) rest := by
  rw [afterComment]
  · rintro tail rfl rfl
    exact hopening (by simp)
  · rintro tail rfl rfl
    exact hclosing (by simp)

/-- The reader of comments takes a nested comment. -/
theorem afterComment_append {body : List Char} (h : Nested body) (depth : Nat)
    (rest : List Char) : afterComment (depth + 1) (body ++ rest) = afterComment depth rest := by
  induction h generalizing depth rest with
  | closing => rfl
  | @plain c tail hopening hclosing h ih =>
    obtain ⟨d, tail, rfl⟩ := List.exists_cons_of_ne_nil h.ne_nil
    rw [List.cons_append, afterComment_plain, ih]
    · simpa using hopening
    · simpa using hclosing
  | @inner body tail _ _ ihbody ih =>
    rw [List.cons_append, List.cons_append, afterComment, List.append_assoc, ihbody, ih]

/-- What the reader of comments takes is a nested comment. -/
theorem exists_nested {depth : Nat} {text rest : List Char}
    (h : afterComment (depth + 1) text = some rest) :
    ∃ body mid, text = body ++ mid ∧ Nested body ∧ afterComment depth mid = some rest := by
  induction hn : text.length using Nat.strong_induction_on generalizing depth text with
  | _ n ih =>
    subst hn
    cases text with
    | nil => cases h
    | cons c tail =>
      by_cases hopening : ['/', '*'] <+: c :: tail
      · obtain ⟨tail, heq⟩ := hopening
        simp only [List.cons_append, List.nil_append] at heq
        obtain ⟨rfl, rfl⟩ := List.cons.inj heq
        change afterComment (depth + 2) tail = some rest at h
        obtain ⟨inner, mid, rfl, hinner, hmid⟩ := ih _ (by simp only [List.length_cons]; omega) h rfl
        obtain ⟨outer, mid, rfl, houter, hmid⟩ := ih _ (by simp only [List.length_append, List.length_cons]; omega)
          hmid rfl
        exact ⟨_, mid, by simp, .inner hinner houter, hmid⟩
      by_cases hclosing : ['*', '/'] <+: c :: tail
      · obtain ⟨tail, heq⟩ := hclosing
        obtain ⟨rfl, rfl⟩ := List.cons.inj heq
        exact ⟨['*', '/'], tail, rfl, .closing, h⟩
      rw [afterComment_plain hopening hclosing] at h
      obtain ⟨body, mid, rfl, hbody, hmid⟩ := ih _ (by simp) h rfl
      refine ⟨c :: body, mid, rfl, .plain (fun hp => ?_) (fun hp => ?_) hbody, hmid⟩
      · exact hopening (hp.trans (List.prefix_append (c :: body) mid))
      · exact hclosing (hp.trans (List.prefix_append (c :: body) mid))

end Token

end Treewalk
