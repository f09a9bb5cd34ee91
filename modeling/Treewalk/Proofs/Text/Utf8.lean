import Mathlib
import Treewalk.Text.Utf8

/-!
# Texts as octets and back

The octets of a character are those from which it is read: the first one says how many follow and,
together with the range that the next one must lie in, admits no overlong form, no surrogate and no
code point past the last one, so that a character meets every bound.

## Main results

* `Utf8.decode_encode`: the characters of a text are read back from its octets.
* `Utf8.le_of_mem_encodeChar`: the octets of a character past ASCII are past ASCII.
-/

namespace Treewalk.Utf8

theorem toNat_toUInt8 {n : Nat} (hn : n < 256) : n.toUInt8.toNat = n := by
  exact UInt8.toNat_ofNat_of_lt' hn

theorem toNat_char (c : Char) : c.toNat < 0xD800 ∨ 0xDFFF < c.toNat ∧ c.toNat < 0x110000 :=
  c.valid

/-! ### First octets -/

section Lead

variable {octet : Nat}

theorem lead?_one (h : octet < 0x80) : lead? octet = some (.inl (Char.ofNat octet)) :=
  if_pos h

theorem lead?_two (h : 0xC2 ≤ octet) (h' : octet < 0xE0) :
    lead? octet = some (.inr ⟨0, 0x80, 0xBF, octet % 32, 1⟩) := by
  rw [lead?, if_neg (by omega), if_neg (by omega), if_pos h']

theorem lead?_three (h : 0xE0 ≤ octet) (h' : octet < 0xF0) :
    lead? octet = some (.inr ⟨1, if octet = 0xE0 then 0xA0 else 0x80,
      if octet = 0xED then 0x9F else 0xBF, octet % 16, 1⟩) := by
  rw [lead?, if_neg (by omega), if_neg (by omega), if_neg (by omega)]
  by_cases hfirst : octet = 0xE0
  · subst hfirst
    rfl
  by_cases hsurrogate : octet = 0xED
  · subst hsurrogate
    rfl
  rw [if_neg hfirst, if_neg hsurrogate, if_pos h', if_neg hfirst, if_neg hsurrogate]

theorem lead?_four (h : 0xF0 ≤ octet) (h' : octet ≤ 0xF4) :
    lead? octet = some (.inr ⟨2, if octet = 0xF0 then 0x90 else 0x80,
      if octet = 0xF4 then 0x8F else 0xBF, octet % 8, 1⟩) := by
  rw [lead?, if_neg (by omega), if_neg (by omega), if_neg (by omega), if_neg (by omega),
    if_neg (by omega), if_neg (by omega)]
  by_cases hfirst : octet = 0xF0
  · subst hfirst
    rfl
  by_cases hlast : octet = 0xF4
  · subst hlast
    rfl
  rw [if_neg hfirst, if_pos (by omega), if_neg hfirst, if_neg hlast]

end Lead

/-! ### Reading a character -/

section Decode

variable {index octet : Nat} {done : List Char} {rest : List UInt8}

/-- A first octet that is a whole character. -/
theorem decodeFrom_whole {c : Char} (hoctet : octet < 256) (h : lead? octet = some (.inl c)) :
    decodeFrom index done none (octet.toUInt8 :: rest) =
      decodeFrom (index + 1) (c :: done) none rest := by
  rw [decodeFrom, toNat_toUInt8 hoctet, h]

/-- A first octet to which others belong. -/
theorem decodeFrom_begin {p : Pending} (hoctet : octet < 256) (h : lead? octet = some (.inr p)) :
    decodeFrom index done none (octet.toUInt8 :: rest) = decodeFrom index done (some p) rest := by
  rw [decodeFrom, toNat_toUInt8 hoctet, h]

/-- An octet in the middle of a character. -/
theorem decodeFrom_middle {more low high bits seen : Nat} (hoctet : octet < 256) (hlow : low ≤ octet)
    (hhigh : octet ≤ high) :
    decodeFrom index done (some ⟨more + 1, low, high, bits, seen⟩) (octet.toUInt8 :: rest) =
      decodeFrom index done (some ⟨more, 0x80, 0xBF, bits * 64 + octet % 64, seen + 1⟩) rest := by
  rw [decodeFrom, toNat_toUInt8 hoctet, if_pos ⟨hlow, hhigh⟩]
  rfl

/-- The last octet of a character. -/
theorem decodeFrom_last {low high bits seen : Nat} (hoctet : octet < 256) (hlow : low ≤ octet)
    (hhigh : octet ≤ high) :
    decodeFrom index done (some ⟨0, low, high, bits, seen⟩) (octet.toUInt8 :: rest) =
      decodeFrom (index + seen + 1) (Char.ofNat (bits * 64 + octet % 64) :: done) none rest := by
  rw [decodeFrom, toNat_toUInt8 hoctet, if_pos ⟨hlow, hhigh⟩]
  rfl

/-- A character is read from its octets, whatever follows them. -/
theorem decodeFrom_encodeChar (c : Char) (index : Nat) (done : List Char) (rest : List UInt8) :
    ∃ index', decodeFrom index done none (encodeChar c ++ rest) =
      decodeFrom index' (c :: done) none rest := by
  have hvalid := toNat_char c
  have hbits {bits : Nat} (h : bits = c.toNat) : Char.ofNat bits = c := by
    rw [h, Char.ofNat_toNat]
  unfold encodeChar
  dsimp only
  split
  · next h₁ =>
    rw [List.singleton_append, decodeFrom_whole (by omega) (lead?_one h₁), hbits rfl]
    exact ⟨_, rfl⟩
  split
  · next h₁ h₂ =>
    rw [List.cons_append, List.singleton_append,
      decodeFrom_begin (by omega) (lead?_two (by omega) (by omega)),
      decodeFrom_last (by omega) (by omega) (by omega), hbits (by omega)]
    exact ⟨_, rfl⟩
  split
  · next h₁ h₂ h₃ =>
    rw [List.cons_append, List.cons_append, List.singleton_append,
      decodeFrom_begin (by omega) (lead?_three (by omega) (by omega)),
      decodeFrom_middle (by omega) (by split <;> omega) (by split <;> omega),
      decodeFrom_last (by omega) (by omega) (by omega), hbits (by omega)]
    exact ⟨_, rfl⟩
  · next h₁ h₂ h₃ =>
    rw [List.cons_append, List.cons_append, List.cons_append, List.singleton_append,
      decodeFrom_begin (by omega) (lead?_four (by omega) (by omega)),
      decodeFrom_middle (by omega) (by split <;> omega) (by split <;> omega),
      decodeFrom_middle (by omega) (by omega) (by omega),
      decodeFrom_last (by omega) (by omega) (by omega), hbits (by omega)]
    exact ⟨_, rfl⟩

theorem decodeFrom_encode (cs : List Char) (index : Nat) (done : List Char) :
    decodeFrom index done none (encode cs) = .ok (done.reverse ++ cs) := by
  induction cs generalizing index done with
  | nil => rw [encode, List.flatMap_nil, decodeFrom, List.append_nil]
  | cons c cs ih =>
    obtain ⟨index', h⟩ := decodeFrom_encodeChar c index done (encode cs)
    rw [encode, List.flatMap_cons, ← encode, h, ih, List.reverse_cons, List.append_assoc,
      List.singleton_append]

/-- The characters of a text are read back from its octets. -/
theorem decode_encode (cs : List Char) : decode (encode cs) = .ok cs :=
  decodeFrom_encode cs 0 []

end Decode

/-! ### Octets of characters -/

theorem encodeChar_ascii {c : Char} (h : c.toNat < 0x80) : encodeChar c = [c.toNat.toUInt8] :=
  if_pos h

/-- The octets of a character past ASCII are past ASCII. -/
theorem le_of_mem_encodeChar {c : Char} (h : 0x80 ≤ c.toNat) {octet : UInt8}
    (hoctet : octet ∈ encodeChar c) : 0x80 ≤ octet.toNat := by
  have hvalid := toNat_char c
  have hle {n : Nat} (hn : 0x80 ≤ n) (hn' : n < 256) (heq : octet = n.toUInt8) :
      0x80 ≤ octet.toNat := by
    rwa [heq, toNat_toUInt8 hn']
  unfold encodeChar at hoctet
  dsimp only at hoctet
  rw [if_neg (Nat.not_lt.mpr h)] at hoctet
  split at hoctet
  · simp only [List.mem_cons, List.not_mem_nil, or_false] at hoctet
    rcases hoctet with heq | heq <;> exact hle (by omega) (by omega) heq
  split at hoctet
  · simp only [List.mem_cons, List.not_mem_nil, or_false] at hoctet
    rcases hoctet with heq | heq | heq <;> exact hle (by omega) (by omega) heq
  · simp only [List.mem_cons, List.not_mem_nil, or_false] at hoctet
    rcases hoctet with heq | heq | heq | heq <;> exact hle (by omega) (by omega) heq

theorem encodeChar_ne_nil (c : Char) : encodeChar c ≠ [] := by
  unfold encodeChar
  dsimp only
  split_ifs <;> exact List.cons_ne_nil _ _

@[simp]
theorem encode_cons (c : Char) (cs : List Char) : encode (c :: cs) = encodeChar c ++ encode cs :=
  List.flatMap_cons

@[simp]
theorem encode_nil : encode [] = [] :=
  rfl

theorem encode_eq_nil_iff {cs : List Char} : encode cs = [] ↔ cs = [] := by
  cases cs with
  | nil => simp
  | cons c cs => simp [encodeChar_ne_nil]

end Treewalk.Utf8
