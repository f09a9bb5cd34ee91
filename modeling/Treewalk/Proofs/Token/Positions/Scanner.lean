import Treewalk.Proofs.Text.Lines
import Treewalk.Proofs.Token.Pieces

/-!
# Scanning by positions

The pieces of a text are taken off a list of characters. Here the same text is read from its octets
in UTF-8, with two indices: that of the octet that comes next, and that of the first octet of the
piece that is under way. Most octets are looked at one by one; the end of a comment is searched for
with jumps. The lines are counted on the way, wherever a line feed is taken.

Nothing bounds such a scanning. To look at an octet outside of the text, or to cut the text within a
character, leaves it without an answer, and so does a loop that goes round too often. What is read
as a number, and where each piece has begun and ended, is recorded.

## Main definitions

* `Scanner.Library`: what a scanner takes from elsewhere.
* `Scanner.Place`, `Scanner.Event`: where a scanner stands, and what it has done.
* `Scanner.Stop`, `Scanner`: scanners, and why they give no answer.
* `Scanner.repeated`: the loops of a scanner.
* `Scanner.scanPiece`, `Scanner.next`: a piece, and the next token or fault.
* `Scanner.calls`: what a number of calls give.
-/

namespace Treewalk

namespace Scanner

open Token

/-- What a scanner takes from elsewhere: searches for octets, and a reader of numbers. -/
structure Library where
  /-- The index of the first octet that is a given one. -/
  find? : UInt8 → List UInt8 → Option Nat
  /-- The index of the first octet that is one of three. -/
  findAny? : UInt8 → UInt8 → UInt8 → List UInt8 → Option Nat
  /-- The number that a text denotes, if it denotes one. -/
  number? : List Char → Option Float
  find?_eq : ∀ a octets, find? a octets = octets.findIdx? (· == a)
  findAny?_eq : ∀ a b c octets,
    findAny? a b c octets = octets.findIdx? fun o => o == a || o == b || o == c
  /-- Digits, and digits on both sides of a point, denote a number. -/
  number?_eq : ∀ {value text}, Spells (.number value) text → number? text = some value

/-- Searches from left to right, and numbers read by their digits. -/
def Library.leftToRight : Library where
  find? a octets := octets.findIdx? (· == a)
  findAny? a b c octets := octets.findIdx? fun o => o == a || o == b || o == c
  number? text :=
    match text.takeWhile isDigit, text.dropWhile isDigit with
    | [], _ => none
    | whole, [] => some (numberValue whole [])
    | whole, _ :: fraction => some (numberValue whole fraction)
  find?_eq _ _ := rfl
  findAny?_eq _ _ _ _ := rfl
  number?_eq := by
    intro value text h
    cases h with
    | @whole c digits hc hdigits =>
      have hspan := @span_append [] isDigit (c :: digits)
        (List.forall_mem_cons.mpr ⟨hc, hdigits⟩) (by simp)
      rw [List.append_nil] at hspan
      rw [hspan.1, hspan.2]
    | @decimal c d digits fraction hc hdigits hd hfraction =>
      have hspan := @span_append ('.' :: d :: fraction) isDigit (c :: digits)
        (List.forall_mem_cons.mpr ⟨hc, hdigits⟩) (by simpa using by decide)
      rw [List.cons_append] at hspan
      rw [hspan.1, hspan.2]

/-- What a scanner records. -/
inductive Event
  /-- A piece is over: the index at its beginning and at its end. -/
  | piece (before after : Nat)
  /-- A text is read as a number. -/
  | numeral (text : List Char)

/-- Where a scanner stands. -/
structure Place where
  /-- All octets of the text. -/
  octets : List UInt8
  /-- The index of the first octet of the piece that is under way. -/
  start : Nat
  /-- The index of the next octet. -/
  current : Nat
  /-- The line, counted from one. -/
  line : Nat
  /-- The token that the piece is, as soon as it is known to be one. -/
  pending : Option TokenKind
  /-- What has been recorded, in order. -/
  events : List Event

/-- Why a scanner gives no answer. -/
inductive Stop
  /-- The piece has a fault. -/
  | fault (error : ScanError)
  /-- An octet outside of the text is looked at. -/
  | outside
  /-- The text is cut within a character. -/
  | within
  /-- A loop goes round too often. -/
  | endless

end Scanner

/-- Scanners. -/
abbrev Scanner := EStateM Scanner.Stop Scanner.Place

namespace Scanner

open Token

/-! ### Octets -/

/-- Whether all octets have been taken. -/
def isAtEnd : Scanner Bool := fun s =>
  .ok (decide (s.octets.length ≤ s.current)) s

/-- The octet at an index. -/
def octetAt (i : Nat) : Scanner UInt8 := fun s =>
  match s.octets[i]? with
  | some o => .ok o s
  | none => .error .outside s

/-- Moves the index on. -/
def moveOn (count : Nat) : Scanner Unit := fun s =>
  .ok () { s with current := s.current + count }

/-- Moves the index to another one. -/
def moveTo (i : Nat) : Scanner Unit := fun s =>
  .ok () { s with current := i }

/-- Takes the next octet. -/
def advance : Scanner UInt8 := do
  let o ← octetAt (← get).current
  moveOn 1
  return o

/-- The next octet, or zero after the last one. -/
def peek : Scanner UInt8 := do
  if ← isAtEnd then return 0
  else octetAt (← get).current

/-- The octet after the next one, or zero after the last one. -/
def peekNext : Scanner UInt8 := do
  let s ← get
  if s.octets.length ≤ s.current + 1 then return 0
  else octetAt (s.current + 1)

/-- Takes the next octet if it is a given one, and says whether it did. -/
def accept (o : UInt8) : Scanner Bool := do
  if ← isAtEnd then return false
  else if (← peek) = o then
    let _ ← advance
    return true
  else return false

/-- The octets from the index on. -/
def remaining : Scanner (List UInt8) := fun s =>
  if s.current ≤ s.octets.length then .ok (s.octets.drop s.current) s
  else .error .outside s

/-- The octets of the piece so far. -/
def octetsSoFar : Scanner (List UInt8) := fun s =>
  if s.start ≤ s.current ∧ s.current ≤ s.octets.length then
    .ok (s.octets.extract s.start s.current) s
  else .error .outside s

/-- Whether a character begins at an index, or the text ends there. -/
def isBoundary (octets : List UInt8) (i : Nat) : Bool :=
  match octets[i]? with
  | some o => o < 0x80 || 0xC0 ≤ o
  | none => i == octets.length

/-- The characters from an index to another one. -/
def cut (i j : Nat) : Scanner (List Char) := fun s =>
  if i ≤ j ∧ isBoundary s.octets i ∧ isBoundary s.octets j then
    match Utf8.decode (s.octets.extract i j) with
    | .ok cs => .ok cs s
    | .error _ => .error .within s
  else .error .within s

/-- The characters of the piece so far. -/
def textSoFar : Scanner (List Char) := do
  let s ← get
  cut s.start s.current

/-- Counts a line. -/
def newLine : Scanner Unit := fun s =>
  .ok () { s with line := s.line + 1 }

/-- The piece is a token. -/
def found (kind : TokenKind) : Scanner Unit := fun s =>
  .ok () { s with pending := some kind }

/-- The piece is a fault on the line that has been counted to. -/
def fail (fault : ScanFault) : Scanner Unit := fun s =>
  .error (.fault ⟨fault, s.line⟩) s

/-- Records an event. -/
def record (event : Event) : Scanner Unit := fun s =>
  .ok () { s with events := s.events ++ [event] }

/-! ### Loops -/

/-- Goes round a loop, at most `limit` times, until a round gives its result. -/
def repeated {σ β : Type} (round : σ → Scanner (σ ⊕ β)) : (limit : Nat) → σ → Scanner β
  | 0, _ => throw .endless
  | limit + 1, state => do
    match ← round state with
    | .inl state => repeated round limit state
    | .inr result => return result

/-- Takes an octet if it has a property. -/
def passRound (p : UInt8 → Bool) : Scanner (Unit ⊕ Unit) := do
  if p (← peek) then
    let _ ← advance
    return .inl ()
  else return .inr ()

variable (lib : Library) (limit : Nat)

/-- Takes octets as long as they have a property. -/
def passWhile (p : UInt8 → Bool) : Scanner Unit :=
  repeated (fun _ => passRound p) limit ()

/-! ### Pieces -/

/-- Takes an equals sign if one follows: the token is `long` with it and `short` without it. -/
def pick (long short : Mark) : Scanner Mark := do
  if ← accept '='.toUInt8 then return long else return short

/-- Goes to the end of the line, or of the text. -/
def lineComment : Scanner Unit := do
  match lib.find? Line.feed (← remaining) with
  | some count => moveOn count
  | none => moveTo (← get).octets.length

/-- Takes an octet of a comment, or both if it makes an opening or a closing with the next one. -/
def commentStep (depth : Nat) (o next : UInt8) : Scanner (Nat ⊕ Nat) := do
  if o = Line.feed then
    newLine
    moveOn 1
    return .inl depth
  else if o = '/'.toUInt8 ∧ next = '*'.toUInt8 then
    moveOn 2
    return .inl (depth + 1)
  else if o = '*'.toUInt8 ∧ next = '/'.toUInt8 then
    moveOn 2
    return .inl (depth - 1)
  else
    moveOn 1
    return .inl depth

/-- Jumps to the next octet that matters to comments and takes it, or to the end of the text. -/
def commentRound (depth : Nat) : Scanner (Nat ⊕ Nat) := do
  if depth = 0 then return .inr 0
  else
    match lib.findAny? Line.feed '/'.toUInt8 '*'.toUInt8 (← remaining) with
    | none =>
      moveTo (← get).octets.length
      return .inr depth
    | some count =>
      moveOn count
      let o ← peek
      commentStep depth o (← peekNext)

/-- Takes a comment in which `depth` openings are to be closed, and gives the number of those that
are still to be closed where it stops. -/
def commentDepth (depth : Nat) : Scanner Nat :=
  repeated (commentRound lib) limit depth

/-- Takes a comment after its opening. -/
def blockComment : Scanner Unit := do
  let depth ← commentDepth lib limit 1
  if 0 < depth then fail .unterminatedComment else pure ()

/-- Takes an octet of a text literal, unless it is the closing quote. -/
def stringRound : Scanner (Unit ⊕ Unit) := do
  if ← isAtEnd then return .inr ()
  else if (← peek) = '"'.toUInt8 then return .inr ()
  else
    if (← advance) = Line.feed then newLine
    return .inl ()

/-- Takes a text literal after its opening quote. -/
def stringLiteral : Scanner Unit := do
  repeated (fun _ => stringRound) limit ()
  if ← isAtEnd then fail .unterminatedString
  else
    let _ ← advance
    let s ← get
    found (.string (String.ofList (← cut (s.start + 1) (s.current - 1))))

/-- Whether an octet is a digit. -/
def isDigitOctet (o : UInt8) : Bool :=
  isDigit o.toChar

/-- Takes a point and the digits after it, if there are any. -/
def fraction : Scanner Unit := do
  if (← peek) = '.'.toUInt8 then
    if isDigitOctet (← peekNext) then
      let _ ← advance
      passWhile limit isDigitOctet

/-- Takes a number after its first digit, and gives its value, or zero if it has none. -/
def number : Scanner Float := do
  passWhile limit isDigitOctet
  fraction limit
  let text ← textSoFar
  record (.numeral text)
  return (lib.number? text).getD 0

/-- The reserved word with given octets. -/
def keyword? (octets : List UInt8) : Option Keyword :=
  Keyword.all.find? fun k => Utf8.encode k.text.toList == octets

/-- Takes a name or a reserved word after its first letter. -/
def word : Scanner TokenKind := do
  passWhile limit fun o => isNamePart o.toChar
  match keyword? (← octetsSoFar) with
  | some k => return .keyword k
  | none => return .identifier

/-- Takes what begins with a slash. -/
def slash : Scanner Unit := do
  if ← accept '/'.toUInt8 then lineComment lib
  else if ← accept '*'.toUInt8 then blockComment lib limit
  else found (.mark .slash)

/-- Takes a whole character with which nothing begins. -/
def unexpected : Scanner Unit := do
  let s ← get
  match ← cut s.start s.octets.length with
  | c :: _ => moveTo (s.start + (Utf8.encodeChar c).length)
  | [] => pure ()
  fail .unexpectedCharacter

/-- Takes a piece after its first octet, which is looked at as a character. If the piece is a token,
it is pending. -/
def takeFrom (c : Char) : Scanner Unit := do
  if c = '\n' then newLine
  else if isBlank c then pure ()
  else if c = '/' then slash lib limit
  else if c = '"' then stringLiteral limit
  else if isDigit c then found (.number (← number lib limit))
  else if isNameStart c then found (← word limit)
  else match loneMark? c, equalMarks? c with
    | some m, _ => found (.mark m)
    | none, some (short, long) => found (.mark (← pick long short))
    | none, none => unexpected

/-- Takes a piece. -/
def scanPiece : Scanner Unit := do
  let o ← advance
  takeFrom lib limit o.toChar

/-! ### The whole text -/

/-- The fault of a scanning, if it has one. -/
def attempt (scanner : Scanner Unit) : Scanner (Option ScanError) := fun s =>
  match scanner s with
  | .ok _ s => .ok none s
  | .error (.fault e) s => .ok (some e) s
  | .error stop s => .error stop s

/-- Begins a piece. -/
def begin : Scanner Unit := fun s =>
  .ok () { s with start := s.current, pending := none }

/-- The token that is pending, which is then pending no more. -/
def takePending : Scanner (Option TokenKind) := fun s =>
  .ok s.pending { s with pending := none }

/-- Gives the end of the text, once, or takes a piece: another round follows if it is a blank or a
comment. -/
def nextRound : Scanner (Unit ⊕ Option (Except ScanError Token)) := do
  let s ← get
  if s.octets.length < s.current then return .inr none
  else if s.current = s.octets.length then
    moveOn 1
    return .inr (some (.ok ⟨.endOfText, "", s.line⟩))
  else
    begin
    let fault? ← attempt (scanPiece lib limit)
    record (.piece s.current (← get).current)
    match fault? with
    | some e => return .inr (some (.error e))
    | none =>
      match ← takePending with
      | some kind =>
        let text ← textSoFar
        return .inr (some (.ok ⟨kind, String.ofList text, (← get).line⟩))
      | none => return .inl ()

/-- The next token or fault, if there is one. -/
def next : Scanner (Option (Except ScanError Token)) :=
  repeated (fun _ => nextRound lib limit) limit ()

/-- What a number of calls give, one after another. -/
def calls : (count : Nat) → Scanner (List (Option (Except ScanError Token)))
  | 0 => return []
  | count + 1 => do
    let item ← next lib limit
    return item :: (← calls count)

/-- Where a scanner of a text begins. -/
def Place.ofText (text : String) : Place :=
  ⟨Utf8.encode text.toList, 0, 0, 1, none, []⟩

end Scanner

end Treewalk
