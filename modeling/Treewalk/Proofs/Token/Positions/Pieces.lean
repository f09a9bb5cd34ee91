import Treewalk.Proofs.Token.Positions.Comments

/-!
# A scanner takes the front piece

From a place between characters a scanner takes just the front piece of what is left: it moves the
index to the end of the piece, counts the lines of the piece, and has a token pending if the piece
is one. A fault is on the line that has been counted to. No octet outside of the text is looked at,
the text is cut between characters only, and what is read as a number is a number.

## Main definitions

* `Scanner.Place.taken`: the place after a piece.
* `Scanner.outcome`: the answer of a scanner that takes a piece.

## Main results

* `Scanner.stringPiece_apply`, `Scanner.numberPiece_apply`, `Scanner.wordPiece_apply`,
  `Scanner.slashPiece_apply`: the pieces of each kind.
* `Scanner.scanPiece_apply`: a scanner takes the front piece.
-/

namespace Treewalk

namespace Token

/-- The kind of a token. -/
def Meaning.kind? : Meaning → Option TokenKind
  | token kind => some kind
  | _ => none

/-- What is recorded of a piece while it is taken: its text, if it is a number. -/
def Piece.numerals (p : Piece) : List Scanner.Event :=
  match p.meaning with
  | .token (.number _) => [.numeral p.taken]
  | _ => []

end Token

namespace Scanner

open Token Utf8

variable {lib : Library} {limit : Nat} {s s' : Place} {c : Char} {front rest cs : List Char}

/-- The place after a piece. -/
def Place.taken (s : Place) (p : Piece) : Place :=
  { s.past p.taken with pending := p.meaning.kind?, events := s.events ++ p.numerals }

/-- The answer of a scanner that takes a piece. -/
def outcome (p : Piece) (s : Place) : EStateM.Result Stop Place Unit :=
  match p.meaning with
  | .fault f => .error (.fault ⟨f, (s.taken p).line⟩) (s.taken p)
  | _ => .ok () (s.taken p)

/-- A blank or a comment. -/
theorem outcome_nothing (hpending : s.pending = none) (taken rest : List Char) :
    outcome ⟨.nothing, taken, rest⟩ s = .ok () (s.past taken) := by
  simp [outcome, Place.taken, Place.past, Place.put, Meaning.kind?, Piece.numerals, hpending]

/-- A fault. -/
theorem outcome_fault (hpending : s.pending = none) (f : ScanFault) (taken rest : List Char) :
    outcome ⟨.fault f, taken, rest⟩ s =
      .error (.fault ⟨f, (s.past taken).line⟩) (s.past taken) := by
  simp [outcome, Place.taken, Place.past, Place.put, Meaning.kind?, Piece.numerals, hpending]

/-- A token that is no number. -/
theorem outcome_token {kind : TokenKind} (hkind : ∀ value, kind ≠ .number value)
    (taken rest : List Char) :
    outcome ⟨.token kind, taken, rest⟩ s = .ok () { s.past taken with pending := some kind } := by
  cases kind with
  | number value => exact absurd rfl (hkind value)
  | _ => simp [outcome, Place.taken, Place.past, Place.put, Meaning.kind?, Piece.numerals]

/-! ### Characters of the basic alphabet -/

theorem advance_ascii (hc : c.toNat < 0x80) (hleft : s.left = encode (c :: rest)) :
    advance s = .ok c.toUInt8 (s.moved 1) := by
  rw [encode_ascii hc] at hleft
  exact advance_apply hleft

/-- A character that follows is taken. -/
theorem accept_cons (hc : c.toNat < 0x80) (hfeed : c ≠ '\n') (hleft : s.left = encode (c :: rest)) :
    accept c.toUInt8 s = .ok true (s.past [c]) := by
  have hhead : s.left.head? = some c.toUInt8 := by
    rw [hleft, head?_encode_iff hc, List.head?_cons]
  rw [accept_apply, if_pos hhead, s.past_ascii hc hfeed]

/-- A character that does not follow is not taken. -/
theorem accept_of_ne (hc : c.toNat < 0x80) (hne : cs.head? ≠ some c) (hleft : s.left = encode cs) :
    accept c.toUInt8 s = .ok false s := by
  rw [accept_apply, hleft, if_neg (mt (head?_encode_iff hc cs).mp hne)]

/-- Nothing begins with a character past ASCII. -/
theorem ne_of_le {d : Char} (hd : 0x80 ≤ d.toNat) : isBlank d = false ∧ d ≠ '/' ∧ d ≠ '"' ∧
    isDigit d = false ∧ isNameStart d = false ∧ loneMark? d = none ∧ equalMarks? d = none := by
  have hne (a : Char) (ha : a.toNat < 0x80) : d ≠ a := by
    rintro rfl
    omega
  have hnle (a : Char) (ha : a.toNat < 0x80) : ¬ d ≤ a := fun hle => by
    have := UInt32.le_iff_toNat_le.mp (Char.le_def.mp hle)
    change d.toNat ≤ a.toNat at this
    omega
  refine ⟨?_, hne _ (by decide), hne _ (by decide), ?_, ?_, ?_, ?_⟩
  · simp [isBlank, hne]
  · simp [isDigit, hnle]
  · simp [isNameStart, hne, hnle]
  · unfold loneMark?
    split <;> first | rfl | exact absurd rfl (hne _ (by decide))
  · unfold equalMarks?
    split <;> first | rfl | exact absurd rfl (hne _ (by decide))

/-! ### Text literals -/

/-- A round takes an octet that is no quote. -/
theorem stringRound_apply {o : UInt8} {later : List UInt8} (hleft : s.left = o :: later) :
    stringRound s = if o = '"'.toUInt8 then .ok (.inr ()) s
      else .ok (.inl ()) (s.put (s.current + 1) (s.line + [o].count Line.feed)) := by
  rw [stringRound, bind_of_ok (isAtEnd_apply s), hleft]
  change (peek >>= fun o => _) s = _
  rw [bind_of_ok (peek_apply s), hleft, List.headD_cons]
  by_cases hquote : o = '"'.toUInt8
  · rw [if_pos hquote, if_pos hquote]
    rfl
  · rw [if_neg hquote, if_neg hquote, bind_of_ok (advance_apply hleft)]
    by_cases hfeed : o = Line.feed
    · rw [if_pos hfeed, hfeed]
      rfl
    · rw [if_neg hfeed, List.count_eq_zero.mpr (by simpa using Ne.symm hfeed)]
      rfl

/-- Octets are taken up to a quote, and their line feeds are counted. -/
theorem stringRounds_apply (hlimit : s.left.length < limit) :
    repeated (fun _ => stringRound) limit () s =
      let taken := s.left.takeWhile (· != '"'.toUInt8)
      .ok () (s.put (s.current + taken.length) (s.line + taken.count Line.feed)) := by
  induction limit generalizing s with
  | zero => exact absurd hlimit (Nat.not_lt_zero _)
  | succ limit ih =>
    cases hleft : s.left with
    | nil =>
      refine repeated_of_inr ?_
      rw [stringRound, bind_of_ok (isAtEnd_apply s), hleft]
      rfl
    | cons o later =>
      have hround := stringRound_apply hleft
      by_cases hquote : o = '"'.toUInt8
      · rw [if_pos hquote] at hround
        rw [repeated_of_inr hround, List.takeWhile_cons_of_neg (by simp [hquote])]
        rfl
      · rw [if_neg hquote] at hround
        have hone (line : Nat) : (s.put (s.current + 1) line).left = later :=
          @Place.left_put_add s [o] later hleft line
        rw [hleft, List.length_cons] at hlimit
        rw [repeated_of_inl hround, ih (by rw [hone]; omega), hone,
          List.takeWhile_cons_of_pos (by simpa using hquote)]
        have hcount := @List.count_append _ _ Line.feed [o] (later.takeWhile (· != '"'.toUInt8))
        rw [List.singleton_append] at hcount
        dsimp only
        rw [hcount, List.length_cons]
        simp [Place.put, Nat.add_assoc, Nat.add_comm 1]

theorem stringRounds_encode (hleft : s.left = encode cs) (hlimit : s.left.length < limit) :
    repeated (fun _ => stringRound) limit () s = .ok () (s.past (cs.takeWhile (· != '"'))) := by
  obtain ⟨htake, -⟩ := takeWhile_encode (bne_toUInt8 (d := '"') (by decide)) cs
  rw [stringRounds_apply hlimit, hleft]
  dsimp only
  rw [htake, count_encode]
  rfl

/-- A text literal is taken after its opening quote, unless the text leaves it open. -/
theorem stringLiteral_apply (h : s.Between (front ++ ['"']) cs)
    (hstart : s.start = (encode front).length) (hlimit : s.left.length < limit) :
    stringLiteral limit s = match cs.dropWhile (· != '"') with
      | _ :: _ => .ok () { s.past (cs.takeWhile (· != '"') ++ ['"']) with
          pending := some (.string (String.ofList (cs.takeWhile (· != '"')))) }
      | [] => .error (.fault ⟨.unterminatedString, (s.past cs).line⟩) (s.past cs) := by
  have htiles := List.takeWhile_append_dropWhile (p := (· != '"')) (l := cs)
  have hbetween := h.past htiles.symm
  rw [stringLiteral, bind_of_ok (stringRounds_encode h.left_eq hlimit),
    bind_of_ok (isAtEnd_apply _), hbetween.left_eq]
  generalize cs.takeWhile (· != '"') = text at *
  cases heq : cs.dropWhile (· != '"') with
  | nil =>
    rw [heq, List.append_nil] at htiles
    rw [htiles]
    rfl
  | cons quote tail =>
    obtain rfl := eq_of_dropWhile_bne heq
    rw [heq] at htiles hbetween
    have hadvance := advance_ascii (c := '"') (by decide) hbetween.left_eq
    have hcut : cut (s.start + 1) ((s.past text).moved 1).current.pred ((s.past text).moved 1) =
        .ok text ((s.past text).moved 1) := by
      have hcurrent :
          ((s.past text).moved 1).current.pred = (encode (front ++ ['"'] ++ text)).length :=
        hbetween.current_eq
      have hstart' : s.start + 1 = (encode (front ++ ['"'])).length := by
        rw [hstart, encode_append, List.length_append]
        rfl
      rw [hcurrent, hstart']
      exact cut_apply hbetween.octets_eq
    change (advance >>= fun _ => get >>= fun s =>
      cut (s.start + 1) (s.current - 1) >>= fun text => found (.string (String.ofList text))) _ = _
    rw [bind_of_ok hadvance, get_bind]
    refine (bind_of_ok hcut).trans ?_
    rw [← (s.past text).past_ascii (c := '"') (by decide) (by decide), s.past_past]
    rfl

/-! ### Numbers -/

theorem isDigit_of_le {c : Char} (hc : 0x80 ≤ c.toNat) : isDigit c = false :=
  (ne_of_le hc).2.2.2.1

/-- Digits are taken as long as they follow. -/
theorem passWhile_digits (hleft : s.left = encode cs) (hlimit : s.left.length < limit) :
    passWhile limit isDigitOctet s = .ok () (s.past (cs.takeWhile isDigit)) :=
  passWhile_encode (fun _ => isDigit_of_le) (by decide) (by decide) hleft hlimit

/-- The text of a piece between two indices. -/
theorem textSoFar_apply (h : s.Between (front ++ cs) rest)
    (hstart : s.start = (encode front).length) :
    textSoFar s = .ok cs s := by
  rw [textSoFar, get_bind, hstart, h.current_eq]
  exact cut_apply h.octets_eq

/-- The point with which a text begins and the digits after it, if there are any. -/
def fractionOf : List Char → List Char
  | '.' :: d :: tail => if isDigit d then '.' :: d :: tail.takeWhile isDigit else []
  | _ => []

theorem fractionOf_point (d : Char) (tail : List Char) : fractionOf ('.' :: d :: tail) =
    if isDigit d then '.' :: d :: tail.takeWhile isDigit else [] :=
  rfl

theorem fractionOf_of_ne (h : cs.head? ≠ some '.') : fractionOf cs = [] := by
  unfold fractionOf
  split
  · exact absurd rfl h
  · rfl

/-- A point and the digits after it are taken if a digit follows the point. -/
theorem fraction_apply (hleft : s.left = encode cs) (hlimit : s.left.length < limit) :
    fraction limit s = .ok () (s.past (fractionOf cs)) := by
  have hpoint : (s.left.headD 0 = '.'.toUInt8) ↔ cs.head? = some '.' := by
    rw [← head?_encode_iff (by decide), ← hleft]
    cases s.left with
    | nil => exact iff_of_false (by decide) (by simp)
    | cons o later => simp
  rw [fraction, bind_of_ok (peek_apply s)]
  by_cases hhead : cs.head? = some '.'
  · rw [if_pos (hpoint.mpr hhead), bind_of_ok (peekNext_apply s)]
    obtain ⟨tail, rfl⟩ : ∃ tail, cs = '.' :: tail := by
      cases cs with
      | nil => cases hhead
      | cons c tail => exact ⟨tail, by rw [Option.some_inj.mp hhead]⟩
    have hleft' := hleft
    rw [encode_ascii (by decide)] at hleft'
    have hnext : isDigitOctet (s.left.tail.headD 0) = tail.head?.any isDigit := by
      rw [hleft', List.tail_cons]
      exact headD_encode (fun _ => isDigit_of_le) (by decide) tail
    rw [hnext]
    have hpast := s.past_ascii (c := '.') (by decide) (by decide)
    cases tail with
    | nil => rfl
    | cons d tail =>
      rw [List.head?_cons, Option.any_some, fractionOf_point]
      cases hd : isDigit d with
      | false => rfl
      | true =>
        have hone : (s.past ['.']).left = encode (d :: tail) := Place.left_past hleft
        have hlimit' : (s.past ['.']).left.length < limit := by
          rw [hone]
          rw [hleft', List.length_cons] at hlimit
          exact Nat.lt_of_succ_lt hlimit
        rw [if_pos rfl, if_pos rfl, bind_of_ok (advance_ascii (by decide) hleft), ← hpast,
          passWhile_digits hone hlimit', List.takeWhile_cons_of_pos hd, s.past_past]
        rfl
  · rw [if_neg (mt hpoint.mp hhead), fractionOf_of_ne hhead]
    rfl

theorem numberPiece_eq (c : Char) (rest : List Char) :
    ∃ value later, numberPiece c rest = ⟨.token (.number value),
      c :: (rest.takeWhile isDigit ++ fractionOf (rest.dropWhile isDigit)), later⟩ := by
  simp only [numberPiece]
  split
  · next d tail heq =>
    rw [heq, fractionOf_point]
    split
    · exact ⟨_, _, rfl⟩
    · exact ⟨_, _, by rw [List.append_nil]⟩
  · next hne =>
    have hnil : fractionOf (rest.dropWhile isDigit) = [] := by
      unfold fractionOf
      split
      · next d tail heq => exact absurd heq (hne d tail)
      · rfl
    exact ⟨_, _, by rw [hnil, List.append_nil]⟩

theorem spells_of_fits {kind : TokenKind} {taken later : List Char}
    (h : Piece.Fits ⟨.token kind, taken, later⟩) : Spells kind taken := by
  cases h with
  | token hspells => exact hspells

/-- A number is taken after its first digit. It is one that a reader of numbers reads. -/
theorem number_apply (lib : Library) (h : s.Between (front ++ [c]) rest)
    (hstart : s.start = (encode front).length) (hc : isDigit c) (hlimit : s.left.length < limit) :
    ∃ value tail later, numberPiece c rest = ⟨.token (.number value), c :: tail, later⟩ ∧
      number lib limit s = .ok value
        { s.past tail with events := s.events ++ [.numeral (c :: tail)] } := by
  obtain ⟨value, later, heq⟩ := numberPiece_eq c rest
  have hsplit := (List.takeWhile_append_dropWhile (p := isDigit) (l := rest)).symm
  have hdigits := h.past hsplit
  have hlimit' : (s.past (rest.takeWhile isDigit)).left.length < limit := by
    rw [h.left_eq, hsplit, encode_append, List.length_append] at hlimit
    rw [hdigits.left_eq]
    omega
  have hnumber : number lib limit s = (textSoFar >>= fun text => record (.numeral text) >>= fun _ =>
      pure ((lib.number? text).getD 0))
        (s.past (rest.takeWhile isDigit ++ fractionOf (rest.dropWhile isDigit))) := by
    rw [number, bind_of_ok (passWhile_digits h.left_eq hlimit),
      bind_of_ok (fraction_apply hdigits.left_eq hlimit'), s.past_past]
  generalize rest.takeWhile isDigit ++ fractionOf (rest.dropWhile isDigit) = tail at heq hnumber
  have hspells := spells_of_fits (heq ▸ numberPiece_fits hc rest)
  have htiles := numberPiece_tiles c rest
  rw [heq] at htiles
  have hbetween := h.past (List.cons.inj htiles).2.symm
  rw [List.append_assoc] at hbetween
  refine ⟨value, tail, later, heq, ?_⟩
  rw [hnumber, bind_of_ok (textSoFar_apply hbetween hstart)]
  change EStateM.Result.ok ((lib.number? (c :: tail)).getD 0) _ = _
  rw [lib.number?_eq hspells]
  rfl

/-! ### Names and reserved words -/

theorem isNamePart_of_le {c : Char} (hc : 0x80 ≤ c.toNat) : isNamePart c = false := by
  obtain ⟨-, -, -, hdigit, hletter, -, -⟩ := ne_of_le hc
  rw [isNamePart, hletter, hdigit]
  rfl

/-- Reserved words are told by their octets as they are by their characters. -/
theorem keyword?_encode (text : List Char) :
    keyword? (encode text) = Keyword.ofText? (String.ofList text) := by
  have hsame (k : Keyword) :
      (encode k.text.toList == encode text) = (k.text == String.ofList text) := by
    rw [Bool.eq_iff_iff, beq_iff_eq, beq_iff_eq]
    refine ⟨fun h => ?_, fun h => ?_⟩
    · rw [← encode_inj h, String.ofList_toList]
    · rw [h, String.toList_ofList]
  simp only [keyword?, Keyword.ofText?, hsame]

/-- The octets of a piece so far. -/
theorem octetsSoFar_apply (h : s.Between (front ++ cs) rest)
    (hstart : s.start = (encode front).length) : octetsSoFar s = .ok (encode cs) s := by
  have hle : s.start ≤ s.current := by
    rw [hstart, h.current_eq, encode_append, List.length_append]
    exact Nat.le_add_right _ _
  rw [octetsSoFar, if_pos ⟨hle, h.current_le⟩, hstart, h.current_eq, h.octets_eq, extract_encode]

/-- A name or a reserved word is taken after its first letter. -/
theorem word_apply (h : s.Between (front ++ [c]) rest) (hstart : s.start = (encode front).length)
    (hlimit : s.left.length < limit) :
    ∃ kind tail later, wordPiece c rest = ⟨.token kind, c :: tail, later⟩ ∧
      (∀ value, kind ≠ .number value) ∧ word limit s = .ok kind (s.past tail) := by
  have hpass :=
    passWhile_encode (fun _ => isNamePart_of_le) (by decide) (by decide) h.left_eq hlimit
  have hbetween := h.past (List.takeWhile_append_dropWhile (p := isNamePart) (l := rest)).symm
  rw [List.append_assoc] at hbetween
  rw [word, bind_of_ok hpass, bind_of_ok (octetsSoFar_apply hbetween hstart), keyword?_encode,
    wordPiece]
  dsimp only [List.singleton_append]
  cases Keyword.ofText? (String.ofList (c :: rest.takeWhile isNamePart)) with
  | some k =>
    refine ⟨.keyword k, _, _, rfl, fun value h => ?_, rfl⟩
    cases h
  | none =>
    refine ⟨.identifier, _, _, rfl, fun value h => ?_, rfl⟩
    cases h

/-! ### The front piece -/

/-- A place at which a piece begins. -/
structure Place.Begins (s : Place) (front : List Char) (c : Char) (rest : List Char) : Prop
    extends s.Between front (c :: rest) where
  start_eq : s.start = s.current
  pending_eq : s.pending = none

theorem Place.left_lt (hlimit : s.octets.length < limit) : s.left.length < limit :=
  Nat.lt_of_le_of_lt (s.length_left.trans_le (Nat.sub_le _ _)) hlimit

section Pieces

variable (h : s.Begins front c rest)

include h

theorem Place.Begins.past_first : (s.past [c]).Between (front ++ [c]) rest :=
  h.past rfl

theorem Place.Begins.start_past (taken : List Char) :
    (s.past taken).start = (encode front).length :=
  h.start_eq.trans h.current_eq

omit h in
/-- A mark has been found. -/
theorem found_mark (m : Mark) (taken rest : List Char) :
    found (.mark m) (s.past taken) = outcome ⟨.token (.mark m), taken, rest⟩ s :=
  (outcome_token (fun _ hkind => by cases hkind) taken rest).symm

/-- A mark that an equals sign can extend. -/
theorem markOrEqual_apply (short long : Mark) :
    (pick long short >>= fun m => found (.mark m)) (s.past [c]) =
      outcome (markOrEqual c rest short long) s := by
  have hleft := h.past_first.left_eq
  by_cases hequal : rest.head? = some '='
  · obtain ⟨tail, rfl⟩ := List.head?_eq_some_iff.mp hequal
    have hpick : pick long short (s.past [c]) = .ok long (s.past [c, '=']) := by
      rw [pick, bind_of_ok (accept_cons (by decide) (by decide) hleft), s.past_past]
      rfl
    rw [bind_of_ok hpick]
    exact found_mark long _ tail
  · have hpick : pick long short (s.past [c]) = .ok short (s.past [c]) := by
      rw [pick, bind_of_ok (accept_of_ne (by decide) hequal hleft)]
      rfl
    have hshort : markOrEqual c rest short long = Token.single c rest (.token (.mark short)) := by
      unfold markOrEqual
      split
      · exact absurd rfl hequal
      · rfl
    rw [bind_of_ok hpick, hshort]
    exact found_mark short _ rest

/-- A character with which nothing begins is taken as a whole. -/
theorem unexpected_apply (hc : c ≠ '\n') : unexpected (s.moved 1) =
    outcome (Token.single c rest (.fault .unexpectedCharacter)) s := by
  have hcut : cut s.start s.octets.length (s.moved 1) = .ok (c :: rest) (s.moved 1) := by
    have hend : s.octets.length = (encode (front ++ c :: rest)).length := by rw [h.octets_eq]
    rw [h.start_eq, h.current_eq, hend]
    refine @cut_apply (s.moved 1) front (c :: rest) [] ?_
    rw [List.append_nil]
    exact h.octets_eq
  have hpast : s.past [c] = { s with current := s.start + (encodeChar c).length } := by
    rw [s.past_eq_moved (by simpa using hc.symm), encode_cons, encode_nil, List.append_nil]
    exact congrArg (fun i => { s with current := i + (encodeChar c).length }) h.start_eq.symm
  rw [unexpected, get_bind]
  refine (bind_of_ok hcut).trans ?_
  refine Eq.trans ?_ (outcome_fault h.pending_eq .unexpectedCharacter [c] rest).symm
  rw [hpast]
  rfl

variable (hlimit : s.octets.length < limit)

include hlimit

/-- A text literal. -/
theorem stringPiece_apply (hc : c = '"') :
    stringLiteral limit (s.past [c]) = outcome (stringPiece rest) s := by
  subst hc
  rw [stringLiteral_apply h.past_first (h.start_past _) (Place.left_lt hlimit), stringPiece]
  have htiles := List.takeWhile_append_dropWhile (p := (· != '"')) (l := rest)
  cases heq : rest.dropWhile (· != '"') with
  | nil =>
    rw [heq, List.append_nil] at htiles
    simp only [htiles, s.past_past]
    exact (outcome_fault h.pending_eq .unterminatedString _ []).symm
  | cons quote tail =>
    obtain rfl := eq_of_dropWhile_bne heq
    rw [s.past_past]
    exact (outcome_token (fun _ hkind => by cases hkind) _ tail).symm

/-- A number. -/
theorem numberPiece_apply (hc : isDigit c) :
    (number lib limit >>= fun value => found (.number value)) (s.past [c]) =
      outcome (numberPiece c rest) s := by
  obtain ⟨value, tail, later, heq, hnumber⟩ :=
    number_apply lib h.past_first (h.start_past _) hc (Place.left_lt hlimit)
  rw [bind_of_ok hnumber, heq, s.past_past]
  rfl

/-- A name or a reserved word. -/
theorem wordPiece_apply :
    (word limit >>= fun kind => found kind) (s.past [c]) = outcome (wordPiece c rest) s := by
  obtain ⟨kind, tail, later, heq, hkind, hword⟩ :=
    word_apply h.past_first (h.start_past _) (Place.left_lt hlimit)
  rw [bind_of_ok hword, heq, s.past_past]
  exact (outcome_token hkind _ later).symm

/-- A comment that may nest. -/
theorem nestedComment_apply {body : List Char}
    (hbetween : ((s.past ['/']).past ['*']).Between (front ++ ['/'] ++ ['*']) body) :
    blockComment lib limit ((s.past ['/']).past ['*']) = outcome (nestedComment body) s := by
  have hle := hbetween.current_le
  have hleft := hbetween.left_eq
  rw [nestedComment]
  cases hcomment : afterComment 1 body with
  | some after =>
    obtain ⟨taken, rfl⟩ := afterComment_suffix hcomment
    rw [blockComment_of_some hle (Place.left_lt hlimit) hleft hcomment, s.past_past, s.past_past]
    refine Eq.trans ?_ (outcome_nothing h.pending_eq _ after).symm
    rw [List.length_append, Nat.add_sub_cancel, List.take_left]
    rfl
  | none =>
    rw [blockComment_of_none hle (Place.left_lt hlimit) hleft hcomment, s.past_past, s.past_past]
    exact (outcome_fault h.pending_eq .unterminatedComment _ []).symm

/-- A comment, or the mark. -/
theorem slashPiece_apply (hc : c = '/') :
    slash lib limit (s.past [c]) = outcome (slashPiece rest) s := by
  subst hc
  have hleft := h.past_first.left_eq
  by_cases hline : rest.head? = some '/'
  · obtain ⟨tail, rfl⟩ := List.head?_eq_some_iff.mp hline
    have hbetween := h.past_first.past (List.singleton_append (x := '/') (l := tail)).symm
    rw [slash, bind_of_ok (accept_cons (by decide) (by decide) hleft), if_pos rfl,
      lineComment_encode lib hbetween.current_le hbetween.left_eq, s.past_past, s.past_past]
    refine Eq.trans ?_ (outcome_nothing h.pending_eq _ _).symm
    rw [List.takeWhile_cons_of_pos (by decide)]
    rfl
  rw [slash, bind_of_ok (accept_of_ne (by decide) hline hleft), if_neg Bool.false_ne_true]
  by_cases hnested : rest.head? = some '*'
  · obtain ⟨tail, rfl⟩ := List.head?_eq_some_iff.mp hnested
    have hbetween := h.past_first.past (List.singleton_append (x := '*') (l := tail)).symm
    rw [bind_of_ok (accept_cons (by decide) (by decide) hleft), if_pos rfl]
    exact nestedComment_apply h hlimit hbetween
  · have hmark : slashPiece rest = Token.single '/' rest (.token (.mark .slash)) := by
      unfold slashPiece
      split
      · exact absurd rfl hline
      · exact absurd rfl hnested
      · rfl
    rw [bind_of_ok (accept_of_ne (by decide) hnested hleft), if_neg Bool.false_ne_true, hmark]
    exact found_mark .slash _ rest

/-- The piece that a character of the basic alphabet begins. -/
theorem takeFrom_ascii (hc : c.toNat < 0x80) :
    takeFrom lib limit c (s.moved 1) = outcome (pieceAt c rest) s := by
  by_cases hfeed : c = '\n'
  · subst hfeed
    exact (outcome_nothing h.pending_eq ['\n'] rest).symm
  rw [← s.past_ascii hc hfeed, takeFrom, if_neg hfeed, pieceAt]
  by_cases hblank : isBlank c
  · rw [if_pos hblank, if_pos hblank]
    exact (outcome_nothing h.pending_eq [c] rest).symm
  rw [if_neg hblank, if_neg hblank]
  by_cases hslash : c = '/'
  · rw [if_pos hslash, if_pos hslash]
    exact slashPiece_apply h hlimit hslash
  rw [if_neg hslash, if_neg hslash]
  by_cases hquote : c = '"'
  · rw [if_pos hquote, if_pos hquote]
    exact stringPiece_apply h hlimit hquote
  rw [if_neg hquote, if_neg hquote]
  by_cases hdigit : isDigit c
  · rw [if_pos hdigit, if_pos hdigit]
    exact numberPiece_apply h hlimit hdigit
  rw [if_neg hdigit, if_neg hdigit]
  by_cases hletter : isNameStart c
  · rw [if_pos hletter, if_pos hletter]
    exact wordPiece_apply h hlimit
  rw [if_neg hletter, if_neg hletter]
  rcases loneMark? c with _ | m
  · rcases equalMarks? c with _ | ⟨short, long⟩
    · rw [s.past_ascii hc hfeed]
      exact unexpected_apply h hfeed
    · exact markOrEqual_apply h short long
  · exact found_mark m [c] rest

/-- A scanner takes the front piece of what is left. -/
theorem scanPiece_apply : scanPiece lib limit s = outcome (pieceAt c rest) s := by
  obtain ⟨o, os, heq, -⟩ := exists_encodeChar c
  have hleft : s.left = o :: (os ++ encode rest) := by
    rw [h.left_eq, encode_cons, heq, List.cons_append]
  rw [scanPiece, bind_of_ok (advance_apply hleft)]
  have ho : o ∈ encodeChar c := heq ▸ List.mem_cons_self
  rcases toChar_of_mem_encodeChar ho with ⟨hc, hchar⟩ | ⟨hc, hchar⟩
  · rw [hchar]
    exact takeFrom_ascii h hlimit hc
  · -- nothing begins with the character, and nothing with its first octet
    have hfeed {d : Char} (hd : 0x80 ≤ d.toNat) : d ≠ '\n' := by
      rintro rfl
      exact absurd hd (by decide)
    have hpiece : pieceAt c rest = Token.single c rest (.fault .unexpectedCharacter) := by
      obtain ⟨hblank, hslash, hquote, hdigit, hletter, hlone, hequal⟩ := ne_of_le hc
      simp [pieceAt, hblank, hslash, hquote, hdigit, hletter, hlone, hequal]
    have htake : takeFrom lib limit o.toChar = unexpected := by
      obtain ⟨hblank, hslash, hquote, hdigit, hletter, hlone, hequal⟩ := ne_of_le hchar
      simp [takeFrom, hfeed hchar, hblank, hslash, hquote, hdigit, hletter, hlone, hequal]
    rw [hpiece, htake]
    exact unexpected_apply h (hfeed hc)

end Pieces

end Scanner

end Treewalk
