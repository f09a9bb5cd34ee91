import Treewalk.Proofs.Token.Forms

/-!
# Pieces of a text

The pieces that a text is cut into are the only ones that fit: blanks, comments, longest tokens,
characters with which nothing begins, and text literals and comments that the text leaves open. A
comment has precedence over a mark.

So a text has one cut, and its tokens and faults are those of the pieces of the cut, in order and
followed by the end of the text.

## Main definitions

* `Token.Piece.Fits`: what a piece has to be at its place.
* `Token.Cuts`: the cuts of a text into pieces that fit.
* `Token.pieces`: the pieces that are taken off the text one after the other.
* `Token.itemsFrom`: the tokens and faults of pieces.

## Main results

* `Token.pieceAt_fits`: the front piece fits.
* `Token.Piece.Fits.eq_pieceAt`: no other piece fits at its place.
* `Token.scan_cuts`: the tokens and faults of a text.
-/

namespace Treewalk

/-- A mark is one character, or one of four characters with an equals sign after it. -/
theorem Mark.text_eq (m : Mark) :
    (∃ c, m.text.toList = [c] ∧ (Token.loneMark? c = some m ∨ m = .slash ∨
      ∃ long, Token.equalMarks? c = some (m, long))) ∨
      ∃ c short, m.text.toList = [c, '='] ∧ Token.equalMarks? c = some (short, m) := by
  cases m <;> simp [Mark.text, Token.loneMark?, Token.equalMarks?]

namespace Token

variable {c : Char} {kind : TokenKind} {taken rest : List Char}

/-- A comment opens at the front of a text. -/
def OpensComment (text : List Char) : Prop :=
  ['/', '/'] <+: text ∨ ['/', '*'] <+: text

/-- What a piece has to be at its place. -/
inductive Piece.Fits : Piece → Prop
  /-- A blank. -/
  | blank {c : Char} {rest : List Char} (hblank : isBlank c) : Fits ⟨.nothing, [c], rest⟩
  /-- A comment up to the end of its line or of the text. -/
  | lineComment {text rest : List Char} (htext : '\n' ∉ text)
      (hrest : ∀ c ∈ rest.head?, c = '\n') : Fits ⟨.nothing, '/' :: '/' :: text, rest⟩
  /-- A comment with its closing, and with the closings of all comments inside. -/
  | nestedComment {body rest : List Char} (hbody : Nested body) :
    Fits ⟨.nothing, '/' :: '*' :: body, rest⟩
  /-- A token, the longest one that can begin there; but a comment has precedence. -/
  | token {kind : TokenKind} {taken rest : List Char} (hspells : Spells kind taken)
      (hlongest : ∀ kind' taken', Spells kind' taken' → taken' <+: taken ++ rest →
        taken'.length ≤ taken.length)
      (hcomment : ¬ OpensComment (taken ++ rest)) : Fits ⟨.token kind, taken, rest⟩
  /-- A character with which neither a blank nor a token begins. -/
  | unexpected {c : Char} {rest : List Char} (hblank : ¬ isBlank c)
      (hnothing : ∀ kind text, ¬ Spells kind (c :: text)) :
    Fits ⟨.fault .unexpectedCharacter, [c], rest⟩
  /-- A text literal that the text leaves open. -/
  | openString {text : List Char} (hquote : '"' ∉ text) :
    Fits ⟨.fault .unterminatedString, '"' :: text, []⟩
  /-- A comment that the text leaves open. -/
  | openComment {body : List Char} (hopen : ∀ body', body' <+: body → ¬ Nested body') :
    Fits ⟨.fault .unterminatedComment, '/' :: '*' :: body, []⟩

theorem not_opensComment (hc : c ≠ '/') : ¬ OpensComment (c :: rest) := by
  rintro (h | h) <;> exact hc (List.cons_prefix_cons.mp h).1.symm

/-! ### Stretches of characters -/

section

variable {p : Char → Bool} {xs : List Char}

theorem not_of_head_dropWhile (h : c ∈ (rest.dropWhile p).head?) : p c = false := by
  have hnot := List.head?_dropWhile_not p rest
  rwa [Option.mem_def.mp h] at hnot

/-- What comes after all characters but a given one begins with that one. -/
theorem eq_of_dropWhile_bne {a : Char} {tail : List Char}
    (h : rest.dropWhile (· != a) = c :: tail) : c = a := by
  have hhead : c ∈ (rest.dropWhile (· != a)).head? := by simp [h]
  simpa using not_of_head_dropWhile hhead

/-- A stretch up to a character that does not belong to it. -/
theorem span_append (hxs : ∀ x ∈ xs, p x) (hrest : ∀ c ∈ rest.head?, p c = false) :
    (xs ++ rest).takeWhile p = xs ∧ (xs ++ rest).dropWhile p = rest := by
  rw [List.takeWhile_append_of_pos hxs, List.dropWhile_append_of_pos hxs]
  cases rest with
  | nil => simp
  | cons c rest => simp [hrest c rfl]

theorem length_le_takeWhile (hpre : xs <+: rest) (hxs : ∀ x ∈ xs, p x) :
    xs.length ≤ (rest.takeWhile p).length := by
  obtain ⟨tail, rfl⟩ := hpre
  simp [List.takeWhile_append_of_pos hxs]

end

/-! ### Marks -/

theorem spells_loneMark {m : Mark} (h : loneMark? c = some m) : Spells (.mark m) [c] := by
  unfold loneMark? at h
  split at h <;> cases h <;> exact .mark _

theorem spells_equalMarks {short long : Mark} (h : equalMarks? c = some (short, long)) :
    Spells (.mark short) [c] ∧ Spells (.mark long) [c, '='] := by
  unfold equalMarks? at h
  split at h <;> cases h <;> exact ⟨.mark _, .mark _⟩

/-- No mark begins with a character that makes none, the slash apart. -/
theorem marks_of_spells (hspells : Spells kind (c :: rest)) (hc : opening c = .other) :
    c = '/' ∨ (loneMark? c).isSome ∨ (equalMarks? c).isSome := by
  obtain ⟨m, hm, -⟩ := hspells.of_other hc
  rcases m.text_eq with ⟨c', heq, hlone | rfl | ⟨long, hequal⟩⟩ | ⟨c', short, heq, hequal⟩
  · cases hm.symm.trans heq
    exact .inr (.inl (hlone ▸ rfl))
  · cases hm
    exact .inl rfl
  · cases hm.symm.trans heq
    exact .inr (.inr (hequal ▸ rfl))
  · cases hm.symm.trans heq
    exact .inr (.inr (hequal ▸ rfl))

/-- A mark has at most two characters, and the second is an equals sign after one of the characters
that it can extend. -/
theorem length_le_of_other (hspells : Spells kind taken) (hpre : taken <+: c :: rest)
    (hc : opening c = .other) :
    taken.length ≤ 1 ∨ taken.length = 2 ∧ ['='] <+: rest ∧ (equalMarks? c).isSome := by
  obtain ⟨c', tail, rfl, -⟩ := hspells.exists_cons
  obtain ⟨rfl, htail⟩ := List.cons_prefix_cons.mp hpre
  obtain ⟨m, hm, -⟩ := hspells.of_other hc
  rcases m.text_eq with ⟨c'', heq, -⟩ | ⟨c'', short, heq, hequal⟩
  · cases hm.symm.trans heq
    exact .inl (Nat.le_refl _)
  · cases hm.symm.trans heq
    exact .inr ⟨rfl, htail, hequal ▸ rfl⟩

/-! ### The front piece fits -/

theorem nestedComment_fits (body : List Char) : (nestedComment body).Fits := by
  unfold nestedComment
  split
  · next rest h =>
    obtain ⟨body, mid, rfl, hbody, hmid⟩ := exists_nested h
    rw [afterComment, Option.some_inj] at hmid
    subst hmid
    simpa using Piece.Fits.nestedComment hbody
  · next h =>
    refine .openComment fun body' hpre hbody => ?_
    obtain ⟨rest, rfl⟩ := hpre
    rw [afterComment_append hbody 0 rest, afterComment] at h
    cases h

theorem slashPiece_fits (rest : List Char) : (slashPiece rest).Fits := by
  unfold slashPiece
  split
  · next text =>
    rw [List.takeWhile_cons_of_pos (by decide), List.dropWhile_cons_of_pos (by decide)]
    refine .lineComment (fun hmem => ?_) fun c hc => ?_
    · simpa using List.mem_takeWhile_imp hmem
    · simpa using not_of_head_dropWhile hc
  · next body => exact nestedComment_fits body
  · next hline hnested =>
    refine .token (.mark .slash) (fun kind taken hspells hpre => ?_) ?_
    · rcases length_le_of_other hspells hpre (by decide) with h | ⟨-, -, h⟩
      · exact h
      · cases h
    · rintro (⟨tail, h⟩ | ⟨tail, h⟩)
      · exact hline tail (List.cons.inj h).2.symm
      · exact hnested tail (List.cons.inj h).2.symm

theorem stringPiece_fits (rest : List Char) : (stringPiece rest).Fits := by
  have hquote : '"' ∉ rest.takeWhile (· != '"') := fun hmem => by
    simpa using List.mem_takeWhile_imp hmem
  simp only [stringPiece]
  split
  · next c tail h =>
    obtain rfl := eq_of_dropWhile_bne h
    refine .token (.string hquote) (fun kind taken hspells hpre => ?_)
      (not_opensComment (by decide))
    obtain ⟨c, text, rfl, -⟩ := hspells.exists_cons
    obtain ⟨rfl, tail', heq⟩ := List.cons_prefix_cons.mp hpre
    obtain ⟨text', hquote', rfl, -⟩ := hspells.of_quote
    replace heq : text' ++ '"' :: tail' = rest.takeWhile (· != '"') ++ '"' :: tail := by
      simpa using heq
    have hall (x : Char) (hx : x ∈ text') : (x != '"') = true := by
      simpa using ne_of_mem_of_not_mem hx hquote'
    obtain ⟨rfl, -⟩ := append_point_inj (by decide) hall (fun _ => List.mem_takeWhile_imp) heq
    exact Nat.le_refl _
  · exact .openString hquote

/-- A number goes on with all the digits that follow, and over a point only if a digit follows the
point. -/
theorem length_le_of_digit (hspells : Spells kind taken) (hpre : taken <+: c :: rest)
    (hc : isDigit c) : taken.length ≤ (rest.takeWhile isDigit).length + 1 ∨
      ∃ d tail, rest.dropWhile isDigit = '.' :: d :: tail ∧ isDigit d ∧
        taken.length ≤ (rest.takeWhile isDigit).length + (tail.takeWhile isDigit).length + 3 := by
  obtain ⟨c', text, rfl, -⟩ := hspells.exists_cons
  obtain ⟨rfl, htext⟩ := List.cons_prefix_cons.mp hpre
  rcases hspells.of_digit hc with ⟨hdigits, -⟩ | ⟨digits, d, fraction, rfl, hdigits, hd, hfraction, -⟩
  · exact .inl (Nat.succ_le_succ (length_le_takeWhile htext hdigits))
  · obtain ⟨tail, rfl⟩ := htext
    have hpoint : ∀ c ∈ ('.' :: d :: (fraction ++ tail)).head?, isDigit c = false := by
      simp only [List.head?_cons, Option.mem_some_iff, forall_eq']
      decide
    have hspan := span_append hdigits hpoint
    rw [List.append_assoc, List.cons_append, List.cons_append, hspan.1, hspan.2]
    refine .inr ⟨d, _, rfl, hd, ?_⟩
    have hle := length_le_takeWhile (List.prefix_append fraction tail) hfraction
    simp only [List.length_cons, List.length_append]
    omega

theorem numberPiece_fits (hc : isDigit c) (rest : List Char) : (numberPiece c rest).Fits := by
  have hcomment (text : List Char) : ¬ OpensComment (c :: text) :=
    not_opensComment fun h => absurd (h ▸ hc) (by decide)
  have hdigits (text : List Char) : ∀ d ∈ text.takeWhile isDigit, isDigit d :=
    fun _ => List.mem_takeWhile_imp
  have htiles := List.takeWhile_append_dropWhile (p := isDigit) (l := rest)
  -- Without a digit after a point, the number is its digits.
  have hplain (hpoint : ∀ d tail, rest.dropWhile isDigit = '.' :: d :: tail → ¬ isDigit d) :
      Piece.Fits ⟨.token (.number (numberValue (c :: rest.takeWhile isDigit) [])),
        c :: rest.takeWhile isDigit, rest.dropWhile isDigit⟩ := by
    refine .token (.whole hc (hdigits rest)) (fun kind taken hspells hpre => ?_) (hcomment _)
    rw [List.cons_append, htiles] at hpre
    rcases length_le_of_digit hspells hpre hc with hle | ⟨d, tail, heq, hd, -⟩
    · exact hle
    · exact absurd hd (hpoint d tail heq)
  simp only [numberPiece]
  split
  · next d tail heq =>
    split
    · next hd =>
      refine .token (.decimal hc (hdigits rest) hd (hdigits tail))
        (fun kind taken hspells hpre => ?_) (hcomment _)
      replace hpre : taken <+: c :: rest := by
        rw [heq] at htiles
        simpa [htiles] using hpre
      rcases length_le_of_digit hspells hpre hc with hle | ⟨d', tail', heq', -, hle⟩
      · simp only [List.length_cons, List.length_append]
        omega
      · cases heq.symm.trans heq'
        simp only [List.length_cons, List.length_append]
        omega
    · next hd =>
      refine heq ▸ hplain fun d' tail' heq' => ?_
      cases heq.symm.trans heq'
      exact hd
  · next hne =>
    refine hplain fun d tail heq => absurd heq (hne d tail)

theorem wordPiece_fits (hc : isNameStart c) (rest : List Char) : (wordPiece c rest).Fits := by
  have hparts : ∀ d ∈ rest.takeWhile isNamePart, isNamePart d := fun _ => List.mem_takeWhile_imp
  refine .token ?_ (fun kind taken hspells hpre => ?_)
    (not_opensComment fun h => absurd (h ▸ hc) (by decide))
  · split
    · next k h =>
      have htext : k.text = String.ofList (c :: rest.takeWhile isNamePart) := by
        simpa using List.find?_some h
      rw [← String.toList_ofList (l := c :: rest.takeWhile isNamePart), ← htext]
      exact .keyword k
    · next h =>
      refine .identifier hc hparts fun k hk => ?_
      have hne := List.find?_eq_none.mp h k (by cases k <;> decide)
      rw [← hk, String.ofList_toList] at hne
      simp at hne
  · rw [List.cons_append, List.takeWhile_append_dropWhile] at hpre
    obtain ⟨c', text, rfl, -⟩ := hspells.exists_cons
    obtain ⟨rfl, htext⟩ := List.cons_prefix_cons.mp hpre
    exact Nat.succ_le_succ (length_le_takeWhile htext (hspells.of_letter hc).1)

/-- The mark that a character makes on its own is the longest token there. -/
theorem loneMark_fits {m : Mark} (hc : opening c = .other) (h : loneMark? c = some m)
    (rest : List Char) : (single c rest (.token (.mark m))).Fits := by
  have hequal : equalMarks? c = none := by
    unfold loneMark? at h
    split at h <;> first | rfl | cases h
  refine .token (spells_loneMark h) (fun kind taken hspells hpre => ?_) (not_opensComment ?_)
  · rcases length_le_of_other hspells hpre hc with hle | ⟨-, -, hsome⟩
    · exact hle
    · rw [hequal] at hsome
      cases hsome
  · rintro rfl
    cases h

theorem markOrEqual_fits {short long : Mark} (hc : opening c = .other)
    (h : equalMarks? c = some (short, long)) (rest : List Char) :
    (markOrEqual c rest short long).Fits := by
  have hcomment (text : List Char) : ¬ OpensComment (c :: text) := by
    refine not_opensComment ?_
    rintro rfl
    cases h
  unfold markOrEqual
  split
  · next rest =>
    refine .token (spells_equalMarks h).2 (fun kind taken hspells hpre => ?_) (hcomment _)
    rcases length_le_of_other hspells hpre hc with hle | ⟨heq, -⟩
    · exact hle.trans (Nat.le_succ 1)
    · exact heq.le
  · next hne =>
    refine .token (spells_equalMarks h).1 (fun kind taken hspells hpre => ?_) (hcomment _)
    rcases length_le_of_other hspells hpre hc with hle | ⟨-, ⟨tail, heq⟩, -⟩
    · exact hle
    · exact absurd heq.symm (hne tail)

/-- The front piece fits. -/
theorem pieceAt_fits (c : Char) (rest : List Char) : (pieceAt c rest).Fits := by
  unfold pieceAt
  split
  · next hblank => exact .blank hblank
  next hblank =>
  split
  · exact slashPiece_fits rest
  next hslash =>
  split
  · exact stringPiece_fits rest
  next hquote =>
  split
  · next hdigit => exact numberPiece_fits hdigit rest
  next hdigit =>
  split
  · next hletter => exact wordPiece_fits hletter rest
  next hletter =>
  have hc : opening c = .other := by simp [opening, hblank, hquote, hdigit, hletter]
  split
  · next h => exact loneMark_fits hc h rest
  · next h => exact markOrEqual_fits hc h rest
  · next hlone hequal =>
    refine .unexpected hblank fun kind text hspells => ?_
    rcases marks_of_spells hspells hc with h | h | h
    · exact hslash h
    · simp [hlone] at h
    · simp [hequal] at h

/-! ### No other piece fits -/

/-- A token and the front piece of the text there are the same. -/
theorem token_eq_of_fits {p : Piece} (hp : p.Fits) (hspells : Spells kind taken)
    (hlongest : ∀ kind' taken', Spells kind' taken' → taken' <+: taken ++ rest →
      taken'.length ≤ taken.length)
    (hcomment : ¬ OpensComment (taken ++ rest)) (htiles : p.taken ++ p.rest = taken ++ rest) :
    p = ⟨.token kind, taken, rest⟩ := by
  obtain ⟨c, text, rfl, hc⟩ := hspells.exists_cons
  cases hp with
  | blank hblank =>
    obtain ⟨rfl, -⟩ := List.cons.inj htiles
    exact absurd (opening_of_isBlank hblank) hspells.opening_ne_blank
  | lineComment => exact absurd (.inl ⟨_, htiles⟩) hcomment
  | nestedComment => exact absurd (.inr ⟨_, htiles⟩) hcomment
  | @token kind' taken' rest' hspells' hlongest' =>
    dsimp only at htiles
    have hle := hlongest _ _ hspells' (htiles ▸ List.prefix_append ..)
    have hle' := hlongest' _ _ hspells (htiles ▸ List.prefix_append ..)
    obtain ⟨rfl, rfl⟩ := List.append_inj htiles (Nat.le_antisymm hle hle')
    rw [hspells.unique hspells']
  | unexpected _ hnothing =>
    obtain ⟨rfl, -⟩ := List.cons.inj htiles
    exact absurd hspells (hnothing kind text)
  | openString hquote =>
    obtain ⟨rfl, htext⟩ := List.cons.inj htiles
    obtain ⟨text', -, rfl, -⟩ := hspells.of_quote
    refine absurd ?_ hquote
    replace htext : _ ++ [] = text' ++ ['"'] ++ rest := htext
    rw [List.append_nil] at htext
    simp [htext]
  | openComment => exact absurd (.inr ⟨_, htiles⟩) hcomment

/-- A character with which nothing begins and the front piece of the text there are the same. -/
theorem unexpected_eq_of_fits {p : Piece} (hp : p.Fits) (hblank : ¬ isBlank c)
    (hnothing : ∀ kind text, ¬ Spells kind (c :: text)) (htiles : p.taken ++ p.rest = c :: rest) :
    p = ⟨.fault .unexpectedCharacter, [c], rest⟩ := by
  have hslash : c ≠ '/' := by
    rintro rfl
    exact hnothing _ _ (.mark .slash)
  cases hp with
  | blank h =>
    obtain ⟨rfl, -⟩ := List.cons.inj htiles
    exact absurd h hblank
  | lineComment => exact absurd (List.cons.inj htiles).1.symm hslash
  | nestedComment => exact absurd (List.cons.inj htiles).1.symm hslash
  | token hspells =>
    obtain ⟨c', text, rfl, -⟩ := hspells.exists_cons
    obtain ⟨rfl, -⟩ := List.cons.inj htiles
    exact absurd hspells (hnothing _ _)
  | unexpected =>
    obtain ⟨rfl, rfl⟩ := List.cons.inj htiles
    rfl
  | openString =>
    obtain ⟨rfl, -⟩ := List.cons.inj htiles
    exact absurd (@Spells.string [] (by simp)) (hnothing _ _)
  | openComment => exact absurd (List.cons.inj htiles).1.symm hslash

theorem pieceAt_slash (rest : List Char) : pieceAt '/' rest = slashPiece rest := by
  simp [pieceAt, isBlank]

theorem pieceAt_quote (rest : List Char) : pieceAt '"' rest = stringPiece rest := by
  simp [pieceAt, isBlank]

/-- No other piece than the front piece fits. -/
theorem Piece.Fits.eq_pieceAt {p : Piece} (hp : p.Fits) (htiles : p.taken ++ p.rest = c :: rest) :
    p = pieceAt c rest := by
  have hfront := pieceAt_tiles c rest
  cases hp with
  | blank hblank =>
    obtain ⟨rfl, rfl⟩ := List.cons.inj htiles
    simp [pieceAt, hblank, single]
  | @lineComment text tail htext htail =>
    obtain ⟨rfl, rfl⟩ := List.cons.inj htiles
    have hall : ∀ d ∈ '/' :: text, (d != '\n') = true := by
      rintro d (_ | ⟨_, hd⟩)
      · decide
      · simpa using ne_of_mem_of_not_mem hd htext
    have hstop : ∀ d ∈ tail.head?, (d != '\n') = false := fun d hd => by simp [htail d hd]
    have hspan := span_append hall hstop
    change _ = pieceAt '/' ('/' :: text ++ tail)
    rw [pieceAt_slash, List.cons_append, slashPiece, ← List.cons_append, hspan.1, hspan.2]
  | @nestedComment body tail hbody =>
    obtain ⟨rfl, rfl⟩ := List.cons.inj htiles
    change _ = pieceAt '/' ('*' :: (body ++ tail))
    rw [pieceAt_slash, slashPiece]
    simp [Token.nestedComment, afterComment_append hbody, afterComment]
  | token hspells hlongest hcomment =>
    exact (token_eq_of_fits (pieceAt_fits c rest) hspells hlongest hcomment
      (hfront.trans htiles.symm)).symm
  | unexpected hblank hnothing =>
    obtain ⟨rfl, rfl⟩ := List.cons.inj htiles
    exact (unexpected_eq_of_fits (pieceAt_fits _ _) hblank hnothing hfront).symm
  | @openString text hquote =>
    obtain ⟨rfl, rfl⟩ := List.cons.inj htiles
    have hall : ∀ d ∈ text, (d != '"') = true := fun d hd => by
      simpa using ne_of_mem_of_not_mem hd hquote
    have hspan : (text ++ []).takeWhile (· != '"') = text ∧
        (text ++ []).dropWhile (· != '"') = [] := span_append hall (by simp)
    change _ = pieceAt '"' (text ++ [])
    simp only [pieceAt_quote, stringPiece, hspan]
  | @openComment body hopen =>
    obtain ⟨rfl, rfl⟩ := List.cons.inj htiles
    change _ = pieceAt '/' ('*' :: (body ++ []))
    have hnone : afterComment 1 body = none := by
      by_contra hsome
      obtain ⟨rest, hsome⟩ := Option.ne_none_iff_exists'.mp hsome
      obtain ⟨body', mid, rfl, hbody, -⟩ := exists_nested hsome
      exact hopen body' (List.prefix_append ..) hbody
    rw [List.append_nil, pieceAt_slash, slashPiece, Token.nestedComment, hnone]

/-! ### The whole text -/

/-- The pieces that are taken off a text one after the other. -/
def pieces : List Char → List Piece
  | [] => []
  | c :: text => pieceAt c text :: pieces (pieceAt c text).rest
termination_by text => text.length
decreasing_by exact Nat.lt_succ_of_le (pieceAt_rest_length_le c text)

/-- The cuts of a text: pieces that fit, each at the front of the text after the piece before it,
up to the end of the text. -/
inductive Cuts : List Char → List Piece → Prop
  | done : Cuts [] []
  | piece {p : Piece} {ps : List Piece} (hp : p.Fits) (hrest : Cuts p.rest ps) :
    Cuts (p.taken ++ p.rest) (p :: ps)

/-- The token or fault of a piece that ends on a given line. A blank or a comment has neither. -/
def Piece.item? (p : Piece) (line : Nat) : Option (Except ScanError Token) :=
  match p.meaning with
  | .nothing => none
  | .token kind => some (.ok ⟨kind, String.ofList p.taken, line⟩)
  | .fault f => some (.error ⟨f, line⟩)

/-- The tokens and faults of consecutive pieces of which the first begins on a given line, and then
the end of the text. -/
def itemsFrom (line : Nat) : List Piece → List (Except ScanError Token)
  | [] => [.ok ⟨.endOfText, "", line⟩]
  | p :: ps =>
    let line := line + p.taken.count '\n'
    (p.item? line).toList ++ itemsFrom line ps

theorem itemsFrom_ne_nil (line : Nat) (ps : List Piece) : itemsFrom line ps ≠ [] := by
  induction ps generalizing line with
  | nil => exact List.cons_ne_nil _ _
  | cons p ps ih => exact List.append_ne_nil_of_right_ne_nil _ (ih _)

/-- A piece that fits takes at least one character. -/
theorem Piece.Fits.taken_ne_nil {p : Piece} (hp : p.Fits) : p.taken ≠ [] := by
  cases hp with
  | token hspells =>
    obtain ⟨c, rest, rfl, -⟩ := hspells.exists_cons
    exact List.cons_ne_nil _ _
  | _ => exact List.cons_ne_nil _ _

/-- No piece is the end of the text. -/
theorem Piece.Fits.isEnd_eq_false {p : Piece} (hp : p.Fits) {kind : TokenKind}
    (h : p.meaning = .token kind) : kind.isEnd = false := by
  cases hp with
  | token hspells =>
    cases h
    cases hspells <;> rfl
  | _ => cases h

theorem cuts_pieces (text : List Char) : Cuts text (pieces text) := by
  fun_induction pieces text with
  | case1 => exact .done
  | case2 c text ih => exact pieceAt_tiles c text ▸ .piece (pieceAt_fits c text) ih

/-- A text has one cut. -/
theorem Cuts.eq_pieces {text : List Char} {ps : List Piece} (h : Cuts text ps) :
    ps = pieces text := by
  induction h with
  | done => rw [pieces]
  | @piece p ps hp _ ih =>
    obtain ⟨c, tail, heq⟩ := List.exists_cons_of_ne_nil
      (List.append_ne_nil_of_left_ne_nil hp.taken_ne_nil p.rest)
    rw [heq, pieces, ← hp.eq_pieceAt heq, ih]

/-- The pieces of a cut are the text, without a gap and without an overlap. -/
theorem Cuts.flatMap_taken {text : List Char} {ps : List Piece} (h : Cuts text ps) :
    ps.flatMap Piece.taken = text := by
  induction h with
  | done => rfl
  | piece _ _ ih => rw [List.flatMap_cons, ih]

/-- A piece that fits is the first one. -/
theorem Piece.Fits.pieces_eq {p : Piece} (hp : p.Fits) :
    pieces (p.taken ++ p.rest) = p :: pieces p.rest :=
  (Cuts.piece hp (cuts_pieces p.rest)).eq_pieces.symm

theorem scanFrom_eq_itemsFrom (line : Nat) (text : List Char) :
    scanFrom line text = itemsFrom line (pieces text) := by
  induction hn : text.length using Nat.strong_induction_on generalizing line text with
  | _ n ih =>
    subst hn
    cases text with
    | nil => rw [scanFrom, pieces, itemsFrom]
    | cons c text =>
      have hlt : (pieceAt c text).rest.length < (c :: text).length :=
        Nat.lt_succ_of_le (pieceAt_rest_length_le c text)
      rw [scanFrom, pieces, itemsFrom, ← ih _ hlt _ _ rfl]
      cases h : (pieceAt c text).meaning <;> simp [Piece.item?, h]

/-- The tokens and faults of a text are those of the pieces that it is cut into, in order, and then
the end of the text. It can be cut in no other way. -/
theorem scan_cuts (text : String) :
    (∀ ps, Cuts text.toList ps ↔ ps = pieces text.toList) ∧
      (pieces text.toList).flatMap Piece.taken = text.toList ∧
      scan text = itemsFrom 1 (pieces text.toList) :=
  ⟨fun _ => ⟨Cuts.eq_pieces, fun h => h ▸ cuts_pieces text.toList⟩,
    (cuts_pieces text.toList).flatMap_taken, scanFrom_eq_itemsFrom 1 text.toList⟩

end Token

end Treewalk
