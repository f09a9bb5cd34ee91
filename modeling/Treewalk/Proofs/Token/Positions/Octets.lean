import Treewalk.Proofs.Token.Positions.Scanner

/-!
# Places between characters

A scanner looks at octets, and only those of the basic alphabet mean anything to it: an octet of any
other character is a blank, a digit or a mark no more than that character is. So stretches of octets
are the octets of stretches of characters, and an index that comes after the octets of some
characters of the text is one at which the text can be cut.

## Main definitions

* `Scanner.Place.left`: the octets that are left.
* `Scanner.Place.past`: the place after given characters.
* `Scanner.Place.Between`: a place after some characters of the text and before the others.

## Main results

* `Utf8.takeWhile_encode`, `Utf8.count_encode`: stretches of octets, and their line feeds.
* `Scanner.cut_apply`: the text is cut between characters.
* `Scanner.passWhile_encode`, `Scanner.lineComment_encode`: what loops and jumps take.
-/

namespace Treewalk

/-! ### Octets of characters -/

namespace Utf8

theorem toNat_toChar (o : UInt8) : o.toChar.toNat = o.toNat := by
  simp [UInt8.toChar, Char.toNat]

/-- An octet of a character is that character, or both are past ASCII. -/
theorem toChar_of_mem_encodeChar {c : Char} {o : UInt8} (ho : o ∈ encodeChar c) :
    (c.toNat < 0x80 ∧ o.toChar = c) ∨ (0x80 ≤ c.toNat ∧ 0x80 ≤ o.toChar.toNat) := by
  rcases Nat.lt_or_ge c.toNat 0x80 with hc | hc
  · rw [encodeChar_ascii hc, List.mem_singleton] at ho
    refine .inl ⟨hc, Char.ext (UInt32.toNat_inj.mp ?_)⟩
    have hnat := toNat_toChar o
    rw [ho, toNat_toUInt8 (by omega)] at hnat
    exact ho ▸ hnat
  · exact .inr ⟨hc, (toNat_toChar o).symm ▸ le_of_mem_encodeChar hc ho⟩

/-- What holds of all characters past ASCII or of none holds of a character just if it holds of each
of its octets. -/
theorem forall_mem_encodeChar {P : Char → Bool} {b : Bool}
    (hP : ∀ c : Char, 0x80 ≤ c.toNat → P c = b) (c : Char) :
    ∀ o ∈ encodeChar c, P o.toChar = P c := by
  intro o ho
  rcases toChar_of_mem_encodeChar ho with ⟨-, heq⟩ | ⟨hc, hle⟩
  · rw [heq]
  · rw [hP _ hle, hP c hc]

section Stretch

variable {P : Char → Bool} {p : UInt8 → Bool} (hp : ∀ c, ∀ o ∈ encodeChar c, p o = P c)

include hp

/-- The longest stretch of octets is that of the longest stretch of characters. -/
theorem takeWhile_encode (cs : List Char) :
    (encode cs).takeWhile p = encode (cs.takeWhile P) ∧
      (encode cs).dropWhile p = encode (cs.dropWhile P) := by
  induction cs with
  | nil => exact ⟨rfl, rfl⟩
  | cons c cs ih =>
    rw [encode_cons]
    cases hc : P c with
    | true =>
      have hall : ∀ o ∈ encodeChar c, p o := fun o ho => (hp c o ho).trans hc
      rw [List.takeWhile_append_of_pos hall, List.dropWhile_append_of_pos hall,
        List.takeWhile_cons_of_pos hc, List.dropWhile_cons_of_pos hc, encode_cons, ih.1, ih.2]
      exact ⟨rfl, rfl⟩
    | false =>
      obtain ⟨o, os, heq⟩ := List.exists_cons_of_ne_nil (encodeChar_ne_nil c)
      have ho : ¬ p o := by simp [hp c o (heq ▸ List.mem_cons_self), hc]
      rw [List.takeWhile_cons_of_neg (by simp [hc]), List.dropWhile_cons_of_neg (by simp [hc]),
        encode_cons, heq, List.cons_append, List.takeWhile_cons_of_neg ho,
        List.dropWhile_cons_of_neg ho]
      exact ⟨rfl, rfl⟩

end Stretch

theorem encode_append (cs ds : List Char) : encode (cs ++ ds) = encode cs ++ encode ds :=
  List.flatMap_append

theorem take_encode (cs ds : List Char) :
    (encode (cs ++ ds)).take (encode cs).length = encode cs := by
  rw [encode_append, List.take_left]

theorem encode_inj {cs ds : List Char} (h : encode cs = encode ds) : cs = ds := by
  have hdecode := decode_encode cs
  rw [h, decode_encode] at hdecode
  exact (Except.ok.inj hdecode).symm

theorem encode_ascii {c : Char} (hc : c.toNat < 0x80) (cs : List Char) :
    encode (c :: cs) = c.toUInt8 :: encode cs := by
  rw [encode_cons, encodeChar_ascii hc]
  rfl

/-- A character has a first octet, which is no octet that continues one. -/
theorem exists_encodeChar (c : Char) : ∃ o os, encodeChar c = o :: os ∧
    (o.toNat < 0x80 ∨ 0xC0 ≤ o.toNat) := by
  have hvalid := toNat_char c
  have hle {n : Nat} (hn : 0xC0 ≤ n) (hn' : n < 256) : 0xC0 ≤ n.toUInt8.toNat :=
    (toNat_toUInt8 hn').symm ▸ hn
  unfold encodeChar
  dsimp only
  split_ifs with h₁ h₂ h₃
  · exact ⟨_, _, rfl, .inl ((toNat_toUInt8 (Nat.lt_trans h₁ (by decide))).symm ▸ h₁)⟩
  · exact ⟨_, _, rfl, .inr (hle (by omega) (by omega))⟩
  · exact ⟨_, _, rfl, .inr (hle (by omega) (by omega))⟩
  · exact ⟨_, _, rfl, .inr (hle (by omega) (by omega))⟩

theorem toChar_toUInt8 {c : Char} (hc : c.toNat < 0x80) : c.toUInt8.toChar = c := by
  refine Char.ext (UInt32.toNat_inj.mp ?_)
  exact (toNat_toChar c.toUInt8).trans (toNat_toUInt8 (Nat.lt_trans hc (by decide)))

/-- No other character has an octet that is a character of the basic alphabet. -/
theorem eq_of_toUInt8_mem {c d : Char} (hd : d.toNat < 0x80) (h : d.toUInt8 ∈ encodeChar c) :
    c = d := by
  have hchar := toChar_of_mem_encodeChar h
  rw [toChar_toUInt8 hd] at hchar
  rcases hchar with ⟨-, heq⟩ | ⟨-, hle⟩
  · exact heq.symm
  · omega

/-- A character of the basic alphabet comes first just if its octet does. -/
theorem head?_encode_iff {d : Char} (hd : d.toNat < 0x80) (cs : List Char) :
    (encode cs).head? = some d.toUInt8 ↔ cs.head? = some d := by
  cases cs with
  | nil => simp
  | cons c cs =>
    obtain ⟨o, os, heq, -⟩ := exists_encodeChar c
    rw [encode_cons, heq, List.cons_append, List.head?_cons, List.head?_cons, Option.some_inj,
      Option.some_inj]
    constructor
    · rintro rfl
      exact eq_of_toUInt8_mem hd (heq ▸ List.mem_cons_self)
    · rintro rfl
      rw [encodeChar_ascii hd] at heq
      exact (List.cons.inj heq).1.symm

/-- What holds of a first character past ASCII no more than of a zero after the last one holds of
the first octet just if it holds of the first character. -/
theorem headD_encode {P : Char → Bool} (hP : ∀ c : Char, 0x80 ≤ c.toNat → P c = false)
    (hzero : P '\x00' = false) (cs : List Char) :
    P ((encode cs).headD 0).toChar = cs.head?.any P := by
  cases cs with
  | nil => exact hzero
  | cons c cs =>
    obtain ⟨o, os, heq, -⟩ := exists_encodeChar c
    rw [encode_cons, heq]
    exact forall_mem_encodeChar hP c o (heq ▸ List.mem_cons_self)

/-- Octets that are not a given character are those of other characters. -/
theorem bne_toUInt8 {d : Char} (hd : d.toNat < 0x80) (c : Char) :
    ∀ o ∈ encodeChar c, (o != d.toUInt8) = (c != d) := by
  intro o ho
  by_cases hc : c = d
  · subst hc
    rw [encodeChar_ascii hd, List.mem_singleton] at ho
    rw [ho, bne_self_eq_false]
    exact bne_self_eq_false _
  · have hne : o ≠ d.toUInt8 := fun heq => hc (eq_of_toUInt8_mem hd (heq ▸ ho))
    rw [bne_iff_ne.mpr hne, bne_iff_ne.mpr hc]

/-- Characters of the basic alphabet begin a text just if their octets begin its octets. -/
theorem prefix_encode_iff {ds cs : List Char} (hds : ∀ d ∈ ds, d.toNat < 0x80) :
    encode ds <+: encode cs ↔ ds <+: cs := by
  induction ds generalizing cs with
  | nil => simp
  | cons d ds ih =>
    obtain ⟨hd, htail⟩ := List.forall_mem_cons.mp hds
    cases cs with
    | nil => simp [encode_ascii hd]
    | cons c cs =>
      by_cases hc : c = d
      · subst hc
        rw [encode_ascii hd, encode_ascii hd, List.cons_prefix_cons, List.cons_prefix_cons,
          ih htail]
        simp
      · refine iff_of_false (fun h => hc ?_) fun h => hc (List.cons_prefix_cons.mp h).1.symm
        obtain ⟨o, os, heq, -⟩ := exists_encodeChar c
        rw [encode_ascii hd, encode_cons, heq, List.cons_append, List.cons_prefix_cons] at h
        exact eq_of_toUInt8_mem hd (by rw [h.1, heq]; exact List.mem_cons_self)

/-- The line feeds of a text are those among its octets. -/
theorem count_encode (cs : List Char) : (encode cs).count Line.feed = cs.count '\n' := by
  induction cs with
  | nil => rfl
  | cons c cs ih =>
    rw [encode_cons, List.count_append, ih]
    by_cases hc : c = '\n'
    · subst hc
      rw [List.count_cons_self, Nat.add_comm]
      rfl
    · rw [List.count_cons_of_ne hc, List.count_eq_zero.mpr, Nat.zero_add]
      exact fun hmem => Line.ne_feed_of_mem_encodeChar hc hmem rfl

end Utf8

namespace Scanner

open Token Utf8

variable {s s' : Place} {front mid rest later : List Char} {o : UInt8}

/-! ### Boundaries -/

theorem isBoundary_encode (front rest : List Char) :
    isBoundary (encode (front ++ rest)) (encode front).length = true := by
  rw [encode_append, isBoundary, List.getElem?_append_right (Nat.le_refl _), Nat.sub_self]
  cases rest with
  | nil => simp
  | cons c rest =>
    obtain ⟨o, os, heq, ho⟩ := exists_encodeChar c
    rw [encode_cons, heq]
    simp only [List.cons_append, List.getElem?_cons_zero, Bool.or_eq_true, decide_eq_true_eq]
    exact ho.imp UInt8.lt_iff_toNat_lt.mpr UInt8.le_iff_toNat_le.mpr

/-- The octets between two characters are those of the characters between them. -/
theorem extract_encode (front mid rest : List Char) :
    (encode (front ++ mid ++ rest)).extract (encode front).length (encode (front ++ mid)).length =
      encode mid := by
  rw [List.extract_eq_take_drop]
  simp only [encode_append, List.append_assoc, List.drop_left, List.length_append,
    Nat.add_sub_cancel_left, List.take_left]

/-- The text is cut between characters. -/
theorem cut_apply (h : s.octets = encode (front ++ mid ++ rest)) :
    cut (encode front).length (encode (front ++ mid)).length s = .ok mid s := by
  have hle : (encode front).length ≤ (encode (front ++ mid)).length := by
    rw [encode_append, List.length_append]
    exact Nat.le_add_right _ _
  have hfront : isBoundary s.octets (encode front).length := by
    rw [h, List.append_assoc]
    exact isBoundary_encode _ _
  have hmid : isBoundary s.octets (encode (front ++ mid)).length := h ▸ isBoundary_encode _ _
  rw [cut, if_pos ⟨hle, hfront, hmid⟩, h, extract_encode, decode_encode]

/-! ### Places -/

/-- The octets that are left. -/
def Place.left (s : Place) : List UInt8 :=
  s.octets.drop s.current

/-- The place after a number of octets. -/
def Place.moved (s : Place) (count : Nat) : Place :=
  { s with current := s.current + count }

/-- The place with another index and another line. -/
def Place.put (s : Place) (index line : Nat) : Place :=
  { s with current := index, line := line }

/-- The place after given characters, with their lines counted. -/
def Place.past (s : Place) (taken : List Char) : Place :=
  s.put (s.current + (encode taken).length) (s.line + taken.count '\n')

theorem Place.left_moved (s : Place) (count : Nat) : (s.moved count).left = s.left.drop count :=
  List.drop_drop.symm

theorem Place.left_put (s : Place) (index line : Nat) :
    (s.put index line).left = s.octets.drop index :=
  rfl

/-- The octets that are left after some of them. -/
theorem Place.left_put_add {xs later : List UInt8} (h : s.left = xs ++ later) (line : Nat) :
    (s.put (s.current + xs.length) line).left = later := by
  have hleft : (s.put (s.current + xs.length) line).left = s.left.drop xs.length :=
    List.drop_drop.symm
  rw [hleft, h, List.drop_left]

theorem Place.length_left (s : Place) : s.left.length = s.octets.length - s.current :=
  List.length_drop

theorem Place.past_past (s : Place) (cs ds : List Char) :
    (s.past cs).past ds = s.past (cs ++ ds) := by
  simp [past, put, encode_append, Nat.add_assoc]

/-- Characters among which there is no line feed. -/
theorem Place.past_eq_moved {taken : List Char} (h : '\n' ∉ taken) (s : Place) :
    s.past taken = s.moved (encode taken).length := by
  rw [past, List.count_eq_zero.mpr h]
  rfl

theorem Place.past_ascii {c : Char} (hc : c.toNat < 0x80) (hfeed : c ≠ '\n') (s : Place) :
    s.past [c] = s.moved 1 := by
  rw [past_eq_moved (by simpa using hfeed.symm), encode_ascii hc]
  rfl

theorem Place.left_past (h : s.left = encode (mid ++ rest)) : (s.past mid).left = encode rest :=
  left_put_add (h.trans (encode_append mid rest)) _

/-- A place after some characters of the text and before the others. -/
structure Place.Between (s : Place) (front rest : List Char) : Prop where
  octets_eq : s.octets = encode (front ++ rest)
  current_eq : s.current = (encode front).length

namespace Place.Between

variable (h : s.Between front rest)

include h

theorem left_eq : s.left = encode rest := by
  rw [left, h.octets_eq, h.current_eq, encode_append, List.drop_left]

theorem past (hrest : rest = mid ++ later) : (s.past mid).Between (front ++ mid) later := by
  subst hrest
  refine ⟨?_, ?_⟩
  · rw [List.append_assoc]
    exact h.octets_eq
  · rw [encode_append, List.length_append, ← h.current_eq]
    rfl

theorem current_le : s.current ≤ s.octets.length := by
  rw [h.octets_eq, h.current_eq, encode_append, List.length_append]
  exact Nat.le_add_right _ _

end Place.Between

/-! ### Computations one after another -/

theorem bind_of_ok {α β : Type} {x : Scanner α} {f : α → Scanner β} {a : α} (h : x s = .ok a s') :
    (x >>= f) s = f a s' := by
  change EStateM.bind x f s = _
  rw [EStateM.bind, h]

theorem get_bind {β : Type} (f : Place → Scanner β) (s : Place) : (get >>= f) s = f s s :=
  rfl

theorem moveOn_bind {β : Type} (count : Nat) (f : Unit → Scanner β) (s : Place) :
    (moveOn count >>= f) s = f () (s.moved count) :=
  rfl

/-! ### Octets -/

theorem isAtEnd_apply (s : Place) : isAtEnd s = .ok s.left.isEmpty s := by
  have hiff : s.octets.length ≤ s.current ↔ s.left.isEmpty = true :=
    List.drop_eq_nil_iff.symm.trans List.isEmpty_iff.symm
  simp only [isAtEnd, hiff, Bool.decide_eq_true]

/-- The octet at an index is the one at its distance among those that are left. -/
theorem octetAt_apply {i j : Nat} (hi : i = s.current + j) (h : s.left[j]? = some o) :
    octetAt i s = .ok o s := by
  rw [Place.left, List.getElem?_drop, ← hi] at h
  rw [octetAt, h]

theorem peek_apply (s : Place) : peek s = .ok (s.left.headD 0) s := by
  rw [peek, bind_of_ok (isAtEnd_apply s)]
  cases hleft : s.left with
  | nil => rfl
  | cons o later => exact octetAt_apply (Nat.add_zero _).symm (by rw [hleft]; rfl)

theorem peekNext_apply (s : Place) : peekNext s = .ok (s.left.tail.headD 0) s := by
  rw [peekNext, get_bind]
  have hlength := s.length_left
  by_cases hle : s.octets.length ≤ s.current + 1
  · rw [if_pos hle]
    have htail : s.left.tail = [] := List.eq_nil_of_length_eq_zero (by
      rw [List.length_tail]
      omega)
    rw [htail]
    rfl
  · rw [if_neg hle]
    have hlt : 1 < s.left.length := by omega
    have hnext : s.left[1]? = some s.left[1] := List.getElem?_eq_getElem hlt
    have htail : s.left.tail.headD 0 = s.left[1] := by
      rw [List.headD_eq_head?_getD, List.head?_tail, hnext]
      rfl
    rw [octetAt_apply rfl hnext, htail]

theorem advance_apply {later : List UInt8} (h : s.left = o :: later) :
    advance s = .ok o (s.moved 1) := by
  rw [advance, get_bind, bind_of_ok (octetAt_apply (Nat.add_zero _).symm (by rw [h]; rfl))]
  rfl

theorem accept_apply (s : Place) (o : UInt8) : accept o s =
    if s.left.head? = some o then .ok true (s.moved 1) else .ok false s := by
  rw [accept, bind_of_ok (isAtEnd_apply s)]
  cases hleft : s.left with
  | nil => rfl
  | cons o' later =>
    change (peek >>= fun o' => if o' = o then _ else _) s = _
    rw [bind_of_ok (peek_apply s), hleft]
    change (if o' = o then _ else _ : Scanner Bool) s = _
    by_cases ho : o' = o
    · rw [if_pos ho, if_pos (by rw [ho]; rfl), bind_of_ok (advance_apply hleft)]
      rfl
    · rw [if_neg ho, if_neg (by simpa using ho)]
      rfl

theorem remaining_apply (h : s.current ≤ s.octets.length) : remaining s = .ok s.left s :=
  if_pos h

/-! ### Loops -/

section Repeated

variable {σ β : Type} {round : σ → Scanner (σ ⊕ β)} {limit : Nat} {state state' : σ} {result : β}

theorem repeated_of_inl (h : round state s = .ok (.inl state') s') :
    repeated round (limit + 1) state s = repeated round limit state' s' :=
  bind_of_ok h

theorem repeated_of_inr (h : round state s = .ok (.inr result) s') :
    repeated round (limit + 1) state s = .ok result s' :=
  bind_of_ok h

end Repeated

/-- Octets are taken as long as they have a property, which must not hold after the last one. -/
theorem passWhile_apply {p : UInt8 → Bool} (hp : p 0 = false) {limit : Nat}
    (hlimit : s.left.length < limit) :
    passWhile limit p s = .ok () (s.moved (s.left.takeWhile p).length) := by
  rw [passWhile]
  induction limit generalizing s with
  | zero => exact absurd hlimit (Nat.not_lt_zero _)
  | succ limit ih =>
    cases hleft : s.left with
    | nil =>
      have hround : passRound p s = .ok (.inr ()) s := by
        rw [passRound, bind_of_ok (peek_apply s), hleft]
        simp [hp, pure, EStateM.pure]
      exact repeated_of_inr hround
    | cons o later =>
      cases ho : p o with
      | false =>
        have hround : passRound p s = .ok (.inr ()) s := by
          rw [passRound, bind_of_ok (peek_apply s), hleft]
          simp [ho, pure, EStateM.pure]
        rw [repeated_of_inr hround, List.takeWhile_cons_of_neg (by simp [ho])]
        rfl
      | true =>
        have hround : passRound p s = .ok (.inl ()) (s.moved 1) := by
          rw [passRound, bind_of_ok (peek_apply s), hleft]
          simp only [List.headD_cons, ho, if_true]
          rw [bind_of_ok (advance_apply hleft)]
          rfl
        have hmoved : (s.moved 1).left = later := by rw [s.left_moved, hleft]; rfl
        rw [repeated_of_inl hround, List.takeWhile_cons_of_pos ho]
        refine (ih ?_).trans ?_
        · rw [hleft, List.length_cons] at hlimit
          rw [hmoved]
          exact Nat.lt_of_succ_lt_succ hlimit
        · rw [hmoved, List.length_cons, Place.moved, Place.moved, Place.moved, Nat.add_assoc,
            Nat.add_comm 1]

/-- A jump to the end of the line goes over what is left of the line. -/
theorem lineComment_apply (lib : Library) (h : s.current ≤ s.octets.length) :
    lineComment lib s = .ok () (s.moved (s.left.takeWhile (· != Line.feed)).length) := by
  rw [lineComment, bind_of_ok (remaining_apply h), lib.find?_eq, List.takeWhile_eq_take_findIdx_not]
  simp only [bne, Bool.not_not, List.length_take]
  cases hfind : s.left.findIdx? (· == Line.feed) with
  | some i =>
    obtain ⟨hlt, heq⟩ := List.findIdx?_eq_some_iff_findIdx_eq.mp hfind
    rw [heq, Nat.min_eq_left (Nat.le_of_lt hlt)]
    rfl
  | none =>
    have hlength : s.left.findIdx (· == Line.feed) = s.left.length :=
      List.findIdx_eq_length_of_false (List.findIdx?_eq_none_iff.mp hfind)
    rw [hlength, Nat.min_self, s.length_left]
    change EStateM.Result.ok () { s with current := s.octets.length } = _
    rw [Place.moved, Nat.add_sub_cancel' h]

variable {cs : List Char}

/-- Characters of the basic alphabet are taken as long as they have a property. -/
theorem passWhile_encode {P : Char → Bool} (hP : ∀ c : Char, 0x80 ≤ c.toNat → P c = false)
    (hzero : P '\x00' = false) (hfeed : P '\n' = false) {limit : Nat} (hleft : s.left = encode cs)
    (hlimit : s.left.length < limit) :
    passWhile limit (fun o => P o.toChar) s = .ok () (s.past (cs.takeWhile P)) := by
  have hmem : '\n' ∉ cs.takeWhile P := fun h => by
    simpa [hfeed] using List.mem_takeWhile_imp h
  rw [passWhile_apply hzero hlimit, hleft, (takeWhile_encode (forall_mem_encodeChar hP) cs).1,
    s.past_eq_moved hmem]

/-- The rest of a line is taken at once. -/
theorem lineComment_encode (lib : Library) (h : s.current ≤ s.octets.length)
    (hleft : s.left = encode cs) :
    lineComment lib s = .ok () (s.past (cs.takeWhile (· != '\n'))) := by
  have hnewline : '\n'.toNat < 0x80 := by decide
  have hfeed (c : Char) : ∀ o ∈ encodeChar c, (o != Line.feed) = (c != '\n') :=
    bne_toUInt8 hnewline c
  have hmem : '\n' ∉ cs.takeWhile (· != '\n') := fun h => by
    simpa using List.mem_takeWhile_imp h
  rw [lineComment_apply lib h, hleft, (takeWhile_encode hfeed cs).1, s.past_eq_moved hmem]

end Scanner

end Treewalk
