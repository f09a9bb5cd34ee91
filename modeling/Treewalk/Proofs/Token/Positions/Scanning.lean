import Treewalk.Proofs.Token.Joining
import Treewalk.Proofs.Token.Positions.Pieces

/-!
# Scanning a text

The calls of a scanner give the tokens and faults of the text one after another, then the end of the
text, and then nothing any more. Each call ends, none looks at an octet outside of the text or cuts
the text within a character, and each moves the index on. The line of a token or a fault is counted
along the way: it is one more than the number of line feeds up to there.

## Main definitions

* `Scanner.Event.Fine`: what may be recorded.
* `Scanner.LineCounted`: on which line a token or a fault is.
* `Scanner.Place.Gives`: what the calls from a place on will give.

## Main results

* `Scanner.nextRound_apply`: a round takes the front piece.
* `Scanner.Place.Gives.next_cons`, `Scanner.Place.Gives.calls`: one call, and calls one after
  another.
* `Scanner.scan_in_bounds`: all calls for a text.
* `Scanner.lines_counted`: the lines of its tokens and faults.
* `Scanner.comments_nest`: its comments.
-/

namespace Treewalk

/-! ### Pieces that fit -/

namespace Token

section

variable {p : Piece} (hp : p.Fits)

include hp

/-- A character with which nothing begins is taken alone, and it is no line break. -/
theorem Piece.Fits.exists_character (h : p.meaning = .fault .unexpectedCharacter) :
    ∃ c, p.taken = [c] ∧ c ≠ '\n' := by
  cases hp with
  | @unexpected c rest hblank =>
    refine ⟨c, rfl, ?_⟩
    rintro rfl
    exact hblank rfl
  | _ => cases h

/-- What a text leaves open goes on to its end. -/
theorem Piece.Fits.rest_eq_nil {f : ScanFault} (h : p.meaning = .fault f)
    (hf : f ≠ .unexpectedCharacter) : p.rest = [] := by
  cases hp with
  | openString => rfl
  | openComment => rfl
  | unexpected =>
    cases h
    exact absurd rfl hf
  | _ => cases h

end

end Token

/-! ### What is recorded -/

namespace Scanner

open Token Utf8

/-- What may be recorded: pieces within the text that are not empty, and numbers that the reader of
numbers reads, which are digits or digits on both sides of a point. -/
def Event.Fine (lib : Library) (octets : List UInt8) : Event → Prop
  | .piece before after => before < after ∧ after ≤ octets.length
  | .numeral text => ∃ value, Spells (.number value) text ∧ lib.number? text = some value

/-- On which line a token or a fault is whose piece lies between two indices of a text. -/
inductive LineCounted (octets : List UInt8) (start finish : Nat) : Except ScanError Token → Prop
  /-- A token is on the line of its end. -/
  | token {t : Token} (hkind : t.kind.isEnd = false)
      (htext : encode t.lexeme.toList = octets.extract start finish)
      (hline : t.line = 1 + (octets.take finish).count Line.feed) :
    LineCounted octets start finish (.ok t)
  /-- The end of the text is on the last line. -/
  | endOfText {line : Nat} (hline : line = 1 + octets.count Line.feed) :
    LineCounted octets start finish (.ok ⟨.endOfText, "", line⟩)
  /-- A character with which nothing begins is on the line on which it begins. -/
  | unexpected {c : Char} {line : Nat} (htext : encodeChar c = octets.extract start finish)
      (hline : line = 1 + (octets.take start).count Line.feed) :
    LineCounted octets start finish (.error ⟨.unexpectedCharacter, line⟩)
  /-- What the text leaves open is on the last line. -/
  | unterminated {f : ScanFault} {line : Nat} (hf : f ≠ .unexpectedCharacter)
      (hline : line = 1 + octets.count Line.feed) :
    LineCounted octets start finish (.error ⟨f, line⟩)

variable {lib : Library} {limit : Nat} {s : Place} {c : Char} {front rest text : List Char}

/-- What is recorded of a piece that fits. -/
theorem Event.fine_of_mem_numerals {p : Piece} (hp : p.Fits) (lib : Library) (octets : List UInt8) :
    ∀ e ∈ p.numerals, e.Fine lib octets := by
  cases hp with
  | @token kind taken rest hspells =>
    intro e he
    cases kind with
    | number value =>
      rw [Piece.numerals, List.mem_singleton] at he
      exact he ▸ ⟨value, hspells, lib.number?_eq hspells⟩
    | _ => cases he
  | _ =>
    intro e he
    cases he

/-! ### Rounds -/

/-- The place at which a piece has begun. -/
def Place.begun (s : Place) : Place :=
  { s with start := s.current, pending := none }

/-- The place after a piece that has been given or passed over. -/
def Place.done (s : Place) (p : Piece) : Place :=
  { s.past p.taken with
    start := s.current
    pending := none
    events := s.events ++ p.numerals ++ [.piece s.current (s.past p.taken).current] }

/-- What a place is after the piece with the front character. -/
theorem Place.Between.done (h : s.Between front (c :: rest)) :
    (s.done (pieceAt c rest)).Between (front ++ (pieceAt c rest).taken) (pieceAt c rest).rest :=
  let hpast := h.past (pieceAt_tiles c rest).symm
  ⟨hpast.octets_eq, hpast.current_eq⟩

theorem record_bind {β : Type} (event : Event) (f : Unit → Scanner β) (s : Place) :
    (record event >>= f) s = f () { s with events := s.events ++ [event] } :=
  rfl

/-- A round takes the front piece, and gives its token or fault if it has one. -/
theorem nextRound_apply (lib : Library) (h : s.Between front (c :: rest))
    (hlimit : s.octets.length < limit) :
    let p := pieceAt c rest
    nextRound lib limit s =
      .ok (((p.item? (s.done p).line).map (Sum.inr ∘ some)).getD (.inl ())) (s.done p) := by
  intro p
  have hbegins : s.begun.Begins front c rest := ⟨⟨h.octets_eq, h.current_eq⟩, rfl, rfl⟩
  have hpiece : scanPiece lib limit s.begun = outcome p s.begun := scanPiece_apply hbegins hlimit
  have hlength := congrArg List.length h.left_eq
  rw [s.length_left, encode_cons, List.length_append] at hlength
  have hpos := List.length_pos_iff.mpr (encodeChar_ne_nil c)
  rw [nextRound, get_bind, if_neg (by omega), if_neg (by omega)]
  have htext : textSoFar (s.done p) = .ok p.taken (s.done p) :=
    textSoFar_apply h.done h.current_eq
  change (attempt (scanPiece lib limit) >>= _) s.begun = _
  cases hmeaning : p.meaning with
  | nothing =>
    have hattempt : attempt (scanPiece lib limit) s.begun = .ok none (s.begun.taken p) := by
      rw [attempt, hpiece, outcome, hmeaning]
    rw [bind_of_ok hattempt, Piece.item?, hmeaning]
    simp only [Place.taken, Place.done, Place.begun, hmeaning, Meaning.kind?]
    rfl
  | token kind =>
    have hattempt : attempt (scanPiece lib limit) s.begun = .ok none (s.begun.taken p) := by
      rw [attempt, hpiece, outcome, hmeaning]
    rw [bind_of_ok hattempt, Piece.item?, hmeaning]
    have htake : takePending { s.begun.taken p with
        events := (s.begun.taken p).events ++ [.piece s.current (s.begun.taken p).current] } =
          .ok (some kind) (s.done p) := by
      simp only [takePending, Place.taken, hmeaning, Meaning.kind?]
      rfl
    rw [get_bind, record_bind]
    dsimp only
    rw [bind_of_ok htake]
    exact bind_of_ok htext
  | fault f =>
    have hattempt : attempt (scanPiece lib limit) s.begun =
        .ok (some ⟨f, (s.done p).line⟩) (s.begun.taken p) := by
      rw [attempt, hpiece, outcome, hmeaning]
      rfl
    rw [bind_of_ok hattempt, Piece.item?, hmeaning]
    simp only [Place.taken, Place.done, Place.begun, hmeaning, Meaning.kind?]
    rfl

/-- A piece moves the index on. -/
theorem Place.current_lt_done (s : Place) (c : Char) (rest : List Char) :
    s.current < (s.done (pieceAt c rest)).current := by
  obtain ⟨d, tail, heq⟩ := List.exists_cons_of_ne_nil (pieceAt_fits c rest).taken_ne_nil
  have hpos := List.length_pos_iff.mpr (encodeChar_ne_nil d)
  have hcurrent : (s.done (pieceAt c rest)).current =
      s.current + (encode (pieceAt c rest).taken).length := rfl
  rw [hcurrent, heq, encode_cons, List.length_append]
  omega

/-- A place of a text, with the lines counted and nothing recorded but what may be. -/
structure Place.Proper (lib : Library) (s : Place) (front rest : List Char) : Prop
    extends s.Between front rest where
  line_eq : s.line = 1 + front.count '\n'
  events_fine : ∀ e ∈ s.events, e.Fine lib s.octets

namespace Place.Proper

variable (h : s.Proper lib front (c :: rest))

include h

/-- The line is counted to the end of the piece. -/
theorem line_done :
    (s.done (pieceAt c rest)).line = 1 + (front ++ (pieceAt c rest).taken).count '\n' := by
  rw [List.count_append, ← Nat.add_assoc, ← h.line_eq]
  rfl

/-- After a piece the place is as proper as it was before it. -/
theorem done : (s.done (pieceAt c rest)).Proper lib (front ++ (pieceAt c rest).taken)
    (pieceAt c rest).rest := by
  have hbetween := h.toBetween.done
  refine ⟨hbetween, h.line_done, fun e he => ?_⟩
  rcases List.mem_append.mp he with he | he
  · rcases List.mem_append.mp he with he | he
    · exact h.events_fine e he
    · exact Event.fine_of_mem_numerals (pieceAt_fits c rest) lib _ e he
  · exact List.mem_singleton.mp he ▸ ⟨s.current_lt_done c rest, hbetween.current_le⟩

/-- The line of a token or a fault has been counted. -/
theorem lineCounted {item : Except ScanError Token}
    (hitem : (pieceAt c rest).item? (s.done (pieceAt c rest)).line = some item) :
    LineCounted s.octets (s.done (pieceAt c rest)).start (s.done (pieceAt c rest)).current
      item := by
  have hfits := pieceAt_fits c rest
  have hline := h.line_done
  have hoctets := h.toBetween.done.octets_eq
  replace hoctets : s.octets = encode (front ++ (pieceAt c rest).taken ++ (pieceAt c rest).rest) :=
    hoctets
  have hcurrent := h.toBetween.done.current_eq
  have hstart : (s.done (pieceAt c rest)).start = (encode front).length := h.current_eq
  generalize pieceAt c rest = p at *
  rw [hstart, hcurrent]
  unfold Piece.item? at hitem
  cases hmeaning : p.meaning with
  | nothing =>
    rw [hmeaning] at hitem
    cases hitem
  | token kind =>
    rw [hmeaning] at hitem
    cases hitem
    refine .token (hfits.isEnd_eq_false hmeaning) ?_ ?_
    · rw [String.toList_ofList, hoctets, extract_encode]
    · rw [hline, hoctets, take_encode, count_encode]
  | fault f =>
    rw [hmeaning] at hitem
    cases hitem
    by_cases hf : f = .unexpectedCharacter
    · subst hf
      obtain ⟨d, htaken, hd⟩ := hfits.exists_character hmeaning
      have htext : encodeChar d = encode p.taken := by simp [htaken, encode]
      refine .unexpected (htext.trans ?_) ?_
      · rw [hoctets, extract_encode]
      · have hcount : p.taken.count '\n' = 0 := by
          rw [htaken]
          exact List.count_eq_zero.mpr (by simpa using hd.symm)
        rw [hline, List.count_append, hcount, hoctets, List.append_assoc, take_encode, count_encode,
          Nat.add_zero]
    · refine .unterminated hf ?_
      rw [hline, hoctets, hfits.rest_eq_nil hmeaning hf, List.append_nil, count_encode]

end Place.Proper

/-! ### Calls -/

/-- What the calls from a place of a text on will give. -/
inductive Place.Gives (lib : Library) (text : List Char) (s : Place) :
    List (Except ScanError Token) → Prop
  /-- Before the end of the text has been given. -/
  | between {front rest : List Char} (h : s.Proper lib front rest) (htext : text = front ++ rest) :
    Gives lib text s (itemsFrom s.line (pieces rest))
  /-- Afterwards. -/
  | ended (hoctets : s.octets = encode text) (hover : s.octets.length < s.current)
      (hevents : ∀ e ∈ s.events, e.Fine lib s.octets) : Gives lib text s []

namespace Place.Gives

variable {items : List (Except ScanError Token)} (h : s.Gives lib text items)

include h

theorem octets_eq : s.octets = encode text := by
  cases h with
  | between h htext => rw [h.octets_eq, htext]
  | ended hoctets => exact hoctets

theorem events_fine : ∀ e ∈ s.events, e.Fine lib (encode text) := by
  rw [← h.octets_eq]
  cases h with
  | between h => exact h.events_fine
  | ended _ _ hevents => exact hevents

end Place.Gives

/-- A call that gives the next of some tokens and faults. -/
structure Place.Yields (lib : Library) (text : List Char) (s s' : Place)
    (item : Except ScanError Token) (later : List (Except ScanError Token)) : Prop where
  gives : s'.Gives lib text later
  current_lt : s.current < s'.current
  counted : LineCounted (encode text) s'.start s'.current item

/-- The end of the text is given after the last piece. -/
theorem exists_yields_end {fuel : Nat} (h : s.Proper lib front []) :
    ∃ s', repeated (fun _ => nextRound lib limit) (fuel + 1) () s =
        .ok (some (.ok ⟨.endOfText, "", s.line⟩)) s' ∧
      s.Yields lib front s' (.ok ⟨.endOfText, "", s.line⟩) [] := by
  have hoctets : s.octets = encode front := by rw [h.octets_eq, List.append_nil]
  have hcurrent : s.current = s.octets.length := by rw [h.current_eq, hoctets]
  refine ⟨s.moved 1, repeated_of_inr ?_, .ended hoctets ?_ h.events_fine, ?_, .endOfText ?_⟩
  · rw [nextRound, get_bind, if_neg (by omega), if_pos hcurrent]
    rfl
  · exact hcurrent ▸ Nat.lt_succ_self _
  · exact Nat.lt_succ_self _
  · rw [h.line_eq, count_encode]

/-- Rounds go over blanks and comments to the next token or fault, or to the end of the text. -/
theorem exists_yields {fuel : Nat} (h : s.Proper lib front rest)
    (hlimit : s.octets.length < limit) (hfuel : s.left.length < fuel) :
    ∃ item later s', itemsFrom s.line (pieces rest) = item :: later ∧
      repeated (fun _ => nextRound lib limit) fuel () s = .ok (some item) s' ∧
      s.Yields lib (front ++ rest) s' item later := by
  induction fuel generalizing s front rest with
  | zero => exact absurd hfuel (Nat.not_lt_zero _)
  | succ fuel ih =>
    cases rest with
    | nil =>
      obtain ⟨s', hrounds, hyields⟩ := @exists_yields_end lib limit s front fuel h
      refine ⟨_, [], s', ?_, hrounds, ?_⟩
      · rw [pieces, itemsFrom]
      · rwa [List.append_nil]
    | cons c rest =>
      have hround := nextRound_apply lib h.toBetween hlimit
      have htiles := pieceAt_tiles c rest
      have hlt := s.current_lt_done c rest
      rw [pieces, itemsFrom]
      dsimp only at hround ⊢
      change ∃ item later s', ((pieceAt c rest).item? (s.done (pieceAt c rest)).line).toList ++
        itemsFrom (s.done (pieceAt c rest)).line _ = item :: later ∧ _
      cases hitem : (pieceAt c rest).item? (s.done (pieceAt c rest)).line with
      | some item =>
        rw [hitem] at hround
        refine ⟨item, _, _, rfl, repeated_of_inr hround, .between h.done ?_, hlt, ?_⟩
        · rw [List.append_assoc, htiles]
        · rw [← h.octets_eq]
          exact h.lineCounted hitem
      | none =>
        rw [hitem] at hround
        have hfuel' : (s.done (pieceAt c rest)).left.length < fuel := by
          rw [Place.length_left] at hfuel ⊢
          have hle := h.done.current_le
          have hoctets : (s.done (pieceAt c rest)).octets = s.octets := rfl
          rw [hoctets] at hle ⊢
          omega
        obtain ⟨item, later, s', hitems, hrounds, hgives, hlater, hcounted⟩ :=
          ih h.done hlimit hfuel'
        rw [List.append_assoc, htiles] at hgives hcounted
        refine ⟨item, later, s', hitems, ?_, hgives, Nat.lt_trans hlt hlater, hcounted⟩
        rw [repeated_of_inl hround, hrounds]

namespace Place.Gives

variable {items later : List (Except ScanError Token)} {item : Except ScanError Token}

/-- A call gives the next token or fault. -/
theorem next_cons (h : s.Gives lib text (item :: later)) (hlimit : (encode text).length < limit) :
    ∃ s', next lib limit s = .ok (some item) s' ∧ s.Yields lib text s' item later := by
  rw [← h.octets_eq] at hlimit
  generalize hitems : item :: later = items at h
  cases h with
  | @between front rest h htext =>
    have hfuel : s.left.length < limit := by
      rw [s.length_left]
      omega
    obtain ⟨item', later', s', heq, hnext, hyields⟩ := exists_yields h hlimit hfuel
    obtain ⟨rfl, rfl⟩ := List.cons.inj (hitems.trans heq)
    exact ⟨s', hnext, htext ▸ hyields⟩
  | ended => cases hitems

/-- A call after the end of the text gives nothing. -/
theorem next_nil (h : s.Gives lib text []) (hlimit : (encode text).length < limit) :
    next lib limit s = .ok none s := by
  obtain ⟨fuel, rfl⟩ := Nat.exists_eq_add_of_lt (Nat.zero_lt_of_lt hlimit)
  generalize hitems : [] = items at h
  cases h with
  | between => exact absurd hitems.symm (itemsFrom_ne_nil _ _)
  | ended _ hover =>
    refine repeated_of_inr ?_
    rw [nextRound, get_bind, if_pos hover]
    rfl

/-- Calls give the tokens and faults one after another, and then nothing. -/
theorem calls (h : s.Gives lib text items) (hlimit : (encode text).length < limit) (count : Nat) :
    ∃ s', calls lib limit count s = .ok ((List.range count).map fun i => items[i]?) s' ∧
      s'.Gives lib text (items.drop count) := by
  induction count generalizing s items with
  | zero => exact ⟨s, rfl, h⟩
  | succ count ih =>
    rw [Scanner.calls, List.range_succ_eq_map, List.map_cons, List.map_map]
    cases items with
    | nil =>
      obtain ⟨s', hcalls, hgives⟩ := ih h
      refine ⟨s', ?_, by simpa using hgives⟩
      rw [bind_of_ok (h.next_nil hlimit), bind_of_ok hcalls]
      rfl
    | cons item later =>
      obtain ⟨s₁, hnext, hyields⟩ := h.next_cons hlimit
      obtain ⟨s', hcalls, hgives⟩ := ih hyields.gives
      refine ⟨s', ?_, hgives⟩
      rw [bind_of_ok hnext, bind_of_ok hcalls]
      rfl

end Place.Gives

/-! ### The whole text -/

/-- The calls for a text will give its tokens and faults. -/
theorem gives_ofText (lib : Library) (text : String) :
    (Place.ofText text).Gives lib text.toList (scan text) := by
  rw [scan, scanFrom_eq_itemsFrom]
  have hproper : (Place.ofText text).Proper lib [] text.toList :=
    ⟨⟨rfl, rfl⟩, rfl, fun _ he => absurd he List.not_mem_nil⟩
  exact .between hproper rfl

/-- A text comes to an end once, after all its tokens and faults. Calls one after another give these
and then nothing, and each moves the index on as long as it gives something. They end, stay within
the text, cut it between characters, and read as a number only what is one. -/
theorem scan_in_bounds (lib : Library) (text : String) {limit : Nat}
    (hlimit : (encode text.toList).length < limit) :
    (∃ items line, scan text = items ++ [.ok ⟨.endOfText, "", line⟩] ∧
      ∀ t, .ok t ∈ items → t.kind.isEnd = false) ∧
    ∀ count, ∃ s, calls lib limit count (.ofText text) =
        .ok ((List.range count).map fun i => (scan text)[i]?) s ∧
      (∀ e ∈ s.events, e.Fine lib (encode text.toList)) ∧
      (∀ item, (scan text)[count]? = some item → ∃ s', next lib limit s = .ok (some item) s' ∧
        s.current < s'.current ∧ ∀ e ∈ s'.events, e.Fine lib (encode text.toList)) ∧
      ((scan text).length ≤ count → next lib limit s = .ok none s) := by
  refine ⟨?_, fun count => ?_⟩
  · obtain ⟨line, hitems⟩ := itemsFrom_eq_dropLast_append 1 (pieces text.toList)
    have hend := isEnd_of_mem_dropLast (cuts_pieces text.toList) 1
    rw [← scanFrom_eq_itemsFrom] at hitems hend
    refine ⟨_, line, hitems, fun t ht => hend t ?_⟩
    exact List.mem_filterMap.mpr ⟨_, ht, rfl⟩
  · obtain ⟨s, hcalls, hgives⟩ := (gives_ofText lib text).calls hlimit count
    refine ⟨s, hcalls, hgives.events_fine, fun item hitem => ?_, fun hle => ?_⟩
    · obtain ⟨hlt, rfl⟩ := List.getElem?_eq_some_iff.mp hitem
      rw [List.drop_eq_getElem_cons hlt] at hgives
      obtain ⟨s', hnext, hyields⟩ := hgives.next_cons hlimit
      exact ⟨s', hnext, hyields.current_lt, hyields.gives.events_fine⟩
    · rw [List.drop_eq_nil_of_le hle] at hgives
      exact hgives.next_nil hlimit

/-- A number, a point, and a character of two octets with which nothing begins. -/
def accentText : String :=
  "1.é"

/-- The fault moves the index on, and nothing comes after the end of the text. -/
theorem scan_in_bounds_accent : (encode accentText.toList).length < 5 ∧
    (∃ s s', calls .leftToRight 5 2 (.ofText accentText) =
        .ok [some (.ok ⟨.number (numberValue ['1'] []), "1", 1⟩),
          some (.ok ⟨.mark .dot, ".", 1⟩)] s ∧
      next .leftToRight 5 s = .ok (some (.error ⟨.unexpectedCharacter, 1⟩)) s' ∧
      s.current < s'.current) ∧
    ∃ s, calls .leftToRight 5 4 (.ofText accentText) =
        .ok [some (.ok ⟨.number (numberValue ['1'] []), "1", 1⟩), some (.ok ⟨.mark .dot, ".", 1⟩),
          some (.error ⟨.unexpectedCharacter, 1⟩), some (.ok ⟨.endOfText, "", 1⟩)] s ∧
      next .leftToRight 5 s = .ok none s := by
  have hscan : scan accentText = [.ok ⟨.number (numberValue ['1'] []), "1", 1⟩,
    .ok ⟨.mark .dot, ".", 1⟩, .error ⟨.unexpectedCharacter, 1⟩, .ok ⟨.endOfText, "", 1⟩] := by
    simp [scan, accentText, scanFrom, pieceAt, isBlank, isDigit, isNameStart, numberPiece,
      Token.single, loneMark?, equalMarks?]
  have hcalls := (@scan_in_bounds .leftToRight accentText 5 (by decide)).2
  rw [hscan] at hcalls
  obtain ⟨s₂, hcalls₂, -, hnext₂, -⟩ := hcalls 2
  obtain ⟨s₄, hcalls₄, -, -, hnext₄⟩ := hcalls 4
  obtain ⟨s', hnext₂, hlt, -⟩ := hnext₂ _ rfl
  exact ⟨by decide, ⟨s₂, s', hcalls₂, hnext₂, hlt⟩, s₄, hcalls₄, hnext₄ (Nat.le_refl 4)⟩

/-- The line of each token and each fault counts the line feeds up to there. -/
theorem lines_counted (lib : Library) {text : String} {limit n : Nat}
    {item : Except ScanError Token} (hlimit : (encode text.toList).length < limit)
    (hitem : (scan text)[n]? = some item) :
    ∃ s s', calls lib limit n (.ofText text) =
        .ok ((List.range n).map fun i => (scan text)[i]?) s ∧
      next lib limit s = .ok (some item) s' ∧
      LineCounted (encode text.toList) s'.start s'.current item := by
  obtain ⟨s, hcalls, hgives⟩ := (gives_ofText lib text).calls hlimit n
  obtain ⟨hlt, rfl⟩ := List.getElem?_eq_some_iff.mp hitem
  rw [List.drop_eq_getElem_cons hlt] at hgives
  obtain ⟨s', hnext, hyields⟩ := hgives.next_cons hlimit
  exact ⟨s, s', hcalls, hnext, hyields.counted⟩

/-- A text literal over a line break, and a character with which nothing begins. -/
def brokenText : String :=
  "\"\n\"@"

theorem lines_counted_broken : (encode brokenText.toList).length < 5 ∧
    (scan brokenText)[1]? = some (.error ⟨.unexpectedCharacter, 2⟩) ∧
    ∃ s s', next .leftToRight 5 s = .ok (some (.error ⟨.unexpectedCharacter, 2⟩)) s' ∧
      LineCounted (encode brokenText.toList) s'.start s'.current
        (.error ⟨.unexpectedCharacter, 2⟩) := by
  have hitem : (scan brokenText)[1]? = some (.error ⟨.unexpectedCharacter, 2⟩) := by cbv
  obtain ⟨s, s', -, hnext, hcounted⟩ := @lines_counted .leftToRight _ 5 1 _ (by decide) hitem
  exact ⟨by decide, hitem, s, s', hnext, hcounted⟩

/-! ### Comments -/

/-- The piece that a comment made from a tree is. -/
theorem pieces_tree (tree : CommentTree) (after : List Char) :
    pieces (tree.chars ++ after) = ⟨.nothing, tree.chars, after⟩ :: pieces after :=
  (Piece.Fits.nestedComment tree.nested).pieces_eq

/-- A comment made from a tree leaves nothing but its line breaks. -/
theorem scanFrom_tree (tree : CommentTree) (after : List Char) (line : Nat) :
    scanFrom line (tree.chars ++ after) = scanFrom (line + tree.chars.count '\n') after := by
  rw [scanFrom_eq_itemsFrom, scanFrom_eq_itemsFrom, pieces_tree, itemsFrom]
  rfl

/-- A comment of which the end is cut off is a fault. -/
theorem scan_cut_tree {tree : CommentTree} {opened : List Char} (hopening : ['/', '*'] <+: opened)
    (hpre : opened <+: tree.chars) (hne : opened ≠ tree.chars) :
    scan (String.ofList opened) =
      [.error ⟨.unterminatedComment, 1 + opened.count '\n'⟩,
        .ok ⟨.endOfText, "", 1 + opened.count '\n'⟩] := by
  obtain ⟨body, rfl⟩ := hopening
  obtain ⟨cut, hcut⟩ := hpre
  have hwhole : body ++ cut = tree.contents ++ ['*', '/'] := by simpa [CommentTree.chars] using hcut
  have hnil : cut ≠ [] := by
    rintro rfl
    rw [List.append_nil] at hcut
    exact hne hcut
  have hnone := CommentTree.afterComment_of_prefix (hwhole ▸ tree.nested) hnil
  have hpiece : pieceAt '/' ('*' :: body) =
      ⟨.fault .unterminatedComment, '/' :: '*' :: body, []⟩ := by
    rw [pieceAt_slash, slashPiece, Token.nestedComment, hnone]
  rw [scan, String.toList_ofList, scanFrom_eq_itemsFrom]
  change itemsFrom 1 (pieces ('/' :: '*' :: body)) = _
  rw [pieces, hpiece, pieces, itemsFrom, itemsFrom]
  rfl

/-- Comments nest to any depth. Jumps find the end that the reader of every octet finds, at the same
index, depth and line. A comment made from a tree is taken as a whole and nothing after it, and what
is left of it when its end is cut off is one fault. -/
theorem comments_nest (lib : Library) :
    (∀ (s : Place) (limit depth : Nat), s.current ≤ s.octets.length → s.left.length < limit →
      commentDepth lib limit depth s =
        let stop := readComment depth s.current s.line s.left
        .ok stop.depth (s.put stop.index stop.line)) ∧
    (∀ (tree : CommentTree) (after : List Char),
      (∀ (s : Place) (limit : Nat) (front : List Char),
        s.Between front (tree.contents ++ ['*', '/'] ++ after) → s.left.length < limit →
          blockComment lib limit s = .ok () (s.past (tree.contents ++ ['*', '/']))) ∧
      ∀ line, scanFrom line (tree.chars ++ after) =
        scanFrom (line + tree.chars.count '\n') after) ∧
    ∀ (tree : CommentTree) (opened : List Char), ['/', '*'] <+: opened → opened <+: tree.chars →
      opened ≠ tree.chars →
        let fault := .error ⟨.unterminatedComment, 1 + opened.count '\n'⟩
        let last := .ok ⟨.endOfText, "", 1 + opened.count '\n'⟩
        scan (String.ofList opened) = [fault, last] ∧
        ∀ limit, (encode opened).length < limit → ∃ s,
          calls lib limit 3 (.ofText (String.ofList opened)) =
            .ok [some fault, some last, none] s := by
  refine ⟨fun s limit depth hle hlimit => commentDepth_eq lib hle hlimit depth, fun tree after =>
    ⟨fun s limit front h hlimit => ?_, scanFrom_tree tree after⟩,
    fun tree opened hopening hpre hne => ⟨scan_cut_tree hopening hpre hne, fun limit hlimit => ?_⟩⟩
  · refine blockComment_of_some h.current_le hlimit h.left_eq ?_
    rw [afterComment_append tree.nested, afterComment]
  · have hscan := scan_cut_tree hopening hpre hne
    rw [← @String.toList_ofList opened] at hlimit
    obtain ⟨s, hcalls, -⟩ := (gives_ofText lib (String.ofList opened)).calls hlimit 3
    rw [hscan] at hcalls
    exact ⟨s, hcalls⟩

/-- A comment within a comment. -/
def innerTree : CommentTree :=
  .comment ⟨[' '], by decide, by decide⟩ (.text ⟨['\n'], by decide, by decide⟩)
    (.text ⟨[], by decide, by decide⟩)

/-- The place just after the opening of that comment, in a text that goes on after it. -/
def innerPlace : Place :=
  { Place.ofText "/* /*\n*/*/;" with current := 2 }

/-- The closing of the comment inside closes nothing else. -/
theorem comments_nest_inner :
    commentDepth .leftToRight 12 1 innerPlace = .ok 0 (innerPlace.put 10 2) ∧
      blockComment .leftToRight 12 innerPlace = .ok () (innerPlace.put 10 2) ∧
      scan "/* /*\n*/" = [.error ⟨.unterminatedComment, 2⟩, .ok ⟨.endOfText, "", 2⟩] ∧
      ∃ s, calls .leftToRight 10 3 (.ofText "/* /*\n*/") =
        .ok [some (.error ⟨.unterminatedComment, 2⟩), some (.ok ⟨.endOfText, "", 2⟩), none] s := by
  obtain ⟨hread, hwhole, hcut⟩ := comments_nest .leftToRight
  have hbetween : innerPlace.Between ['/', '*'] (innerTree.contents ++ ['*', '/'] ++ [';']) :=
    ⟨by decide, by decide⟩
  obtain ⟨hscan, hcalls⟩ := hcut innerTree "/* /*\n*/".toList (by decide) (by decide) (by decide)
  exact ⟨hread innerPlace 12 1 (by decide) (by decide),
    (hwhole innerTree [';']).1 innerPlace 12 _ hbetween (by decide), hscan, hcalls 10 (by decide)⟩

end Scanner

end Treewalk
