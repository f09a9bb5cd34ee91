import Treewalk.Decimal.Layout
import Treewalk.Token

/-!
# Tokens of a text

A program text is cut into consecutive *pieces*: blanks, comments, tokens and faulty pieces. Every
piece takes at least one character and the pieces tile the text, so reading ends.

At each place the piece is the longest one that can begin there. A comment opens at `//` and at
`/*`, and comments of the latter form nest.

## Main definitions

* `Token.Piece`: the piece at the front of a text, and the rest of the text.
* `Token.pieceAt`: the front piece of a text that is not empty.
* `Token.scan`: the tokens and faults of a text, in order, with the end of the text as last token.

## Main results

* `Token.pieceAt_rest_length_le`: a piece takes at least one character.
* `Token.pieceAt_tiles`: a piece and the text after it make up the text.
-/

namespace Treewalk

/-- Why a piece of text is no token. -/
inductive ScanFault
  /-- A character with which nothing begins. -/
  | unexpectedCharacter
  /-- A text literal without its closing quote. -/
  | unterminatedString
  /-- A comment without its closing mark. -/
  | unterminatedComment
  deriving DecidableEq

/-- The wording of a fault. -/
def ScanFault.message : ScanFault → String
  | unexpectedCharacter => "Unexpected character."
  | unterminatedString => "Unterminated string."
  | unterminatedComment => "Unterminated block comment."

/-- A fault with the line on which its piece ends. -/
structure ScanError where
  /-- What is wrong. -/
  fault : ScanFault
  /-- The line, counted from one. -/
  line : Nat
  deriving DecidableEq

namespace Token

/-- What a piece of text stands for. -/
inductive Meaning
  /-- A blank or a comment. -/
  | nothing
  /-- A token. -/
  | token (kind : TokenKind)
  /-- A fault. -/
  | fault (f : ScanFault)

/-- A piece at the front of a text. -/
structure Piece where
  /-- What the piece stands for. -/
  meaning : Meaning
  /-- The characters of the piece. -/
  taken : List Char
  /-- The text after the piece. -/
  rest : List Char

/-- A piece of one character. -/
def single (c : Char) (rest : List Char) (meaning : Meaning) : Piece :=
  ⟨meaning, [c], rest⟩

/-- A decimal digit. -/
def isDigit (c : Char) : Bool :=
  '0' ≤ c && c ≤ '9'

/-- A letter that can begin a name; only letters of the basic alphabet and `_` can. -/
def isNameStart (c : Char) : Bool :=
  ('a' ≤ c && c ≤ 'z') || ('A' ≤ c && c ≤ 'Z') || c == '_'

/-- A character that can stand within a name. -/
def isNamePart (c : Char) : Bool :=
  isNameStart c || isDigit c

/-- The mark `short`, or the mark `long` where an equals sign follows. -/
def markOrEqual (c : Char) (rest : List Char) (short long : Mark) : Piece :=
  match rest with
  | '=' :: rest => ⟨.token (.mark long), [c, '='], rest⟩
  | rest => single c rest (.token (.mark short))

/-- The text after a comment in which `depth` openings are still to be closed, if they all are. -/
def afterComment : (depth : Nat) → List Char → Option (List Char)
  | 0, rest => some rest
  | _ + 1, [] => none
  | depth + 1, '/' :: '*' :: rest => afterComment (depth + 2) rest
  | depth + 1, '*' :: '/' :: rest => afterComment depth rest
  | depth + 1, _ :: rest => afterComment (depth + 1) rest

/-- The comment that `/*` opens before `body`. -/
def nestedComment (body : List Char) : Piece :=
  match afterComment 1 body with
  | some rest => ⟨.nothing, '/' :: '*' :: body.take (body.length - rest.length), rest⟩
  | none => ⟨.fault .unterminatedComment, '/' :: '*' :: body, []⟩

/-- What begins with a slash: a comment, or the mark. -/
def slashPiece (rest : List Char) : Piece :=
  match rest with
  | '/' :: _ => ⟨.nothing, '/' :: rest.takeWhile (· != '\n'), rest.dropWhile (· != '\n')⟩
  | '*' :: body => nestedComment body
  | rest => single '/' rest (.token (.mark .slash))

/-- The text literal that a quote opens before `rest`. -/
def stringPiece (rest : List Char) : Piece :=
  let text := rest.takeWhile (· != '"')
  match rest.dropWhile (· != '"') with
  | quote :: rest => ⟨.token (.string (String.ofList text)), '"' :: (text ++ [quote]), rest⟩
  | [] => ⟨.fault .unterminatedString, '"' :: text, []⟩

/-- The value of a number literal. -/
def numberValue (whole fraction : List Char) : Float :=
  Binary64.ofPattern (Decimal.read whole fraction).pattern

/-- The number literal that begins with the digit `c`. A point belongs to it only if a digit
follows. -/
def numberPiece (c : Char) (rest : List Char) : Piece :=
  let whole := c :: rest.takeWhile isDigit
  let rest := rest.dropWhile isDigit
  let plain : Piece := ⟨.token (.number (numberValue whole [])), whole, rest⟩
  match rest with
  | '.' :: d :: rest =>
    if isDigit d then
      let fraction := d :: rest.takeWhile isDigit
      ⟨.token (.number (numberValue whole fraction)), whole ++ '.' :: fraction,
        rest.dropWhile isDigit⟩
    else plain
  | _ => plain

/-- The name or reserved word that begins with the letter `c`. -/
def wordPiece (c : Char) (rest : List Char) : Piece :=
  let word := c :: rest.takeWhile isNamePart
  let kind := match Keyword.ofText? (String.ofList word) with
    | some k => .keyword k
    | none => .identifier
  ⟨.token kind, word, rest.dropWhile isNamePart⟩

/-- The mark that a character makes on its own and that no other character can extend. -/
def loneMark? : Char → Option Mark
  | '(' => some .leftParen
  | ')' => some .rightParen
  | '\x7b' => some .leftBrace
  | '\x7d' => some .rightBrace
  | ',' => some .comma
  | '.' => some .dot
  | '-' => some .minus
  | '+' => some .plus
  | ';' => some .semicolon
  | '*' => some .star
  | '?' => some .question
  | ':' => some .colon
  | _ => none

/-- The marks that a character begins without and with an equals sign after it. -/
def equalMarks? : Char → Option (Mark × Mark)
  | '!' => some (.bang, .bangEqual)
  | '=' => some (.equal, .equalEqual)
  | '<' => some (.less, .lessEqual)
  | '>' => some (.greater, .greaterEqual)
  | _ => none

/-- A blank. -/
def isBlank (c : Char) : Bool :=
  c == ' ' || c == '\t' || c == '\r' || c == '\n'

/-- The piece at the front of the text `c :: rest`. -/
def pieceAt (c : Char) (rest : List Char) : Piece :=
  if isBlank c then single c rest .nothing
  else if c = '/' then slashPiece rest
  else if c = '"' then stringPiece rest
  else if isDigit c then numberPiece c rest
  else if isNameStart c then wordPiece c rest
  else match loneMark? c, equalMarks? c with
    | some m, _ => single c rest (.token (.mark m))
    | none, some (short, long) => markOrEqual c rest short long
    | none, none => single c rest (.fault .unexpectedCharacter)

/-! ### Pieces take something -/

theorem afterComment_length_le {depth : Nat} {text rest : List Char}
    (h : afterComment depth text = some rest) : rest.length ≤ text.length := by
  fun_induction afterComment depth text <;> simp_all <;> omega

theorem length_dropWhile_le (p : Char → Bool) (text : List Char) :
    (text.dropWhile p).length ≤ text.length :=
  (List.dropWhile_sublist p).length_le

theorem nestedComment_rest_length_le (body : List Char) :
    (nestedComment body).rest.length ≤ body.length := by
  unfold nestedComment
  split
  · next h => exact afterComment_length_le h
  · simp

theorem slashPiece_rest_length_le (rest : List Char) :
    (slashPiece rest).rest.length ≤ rest.length := by
  unfold slashPiece
  split
  · exact length_dropWhile_le ..
  · next body => exact Nat.le_succ_of_le (nestedComment_rest_length_le body)
  · simp [single]

theorem stringPiece_rest_length_le (rest : List Char) :
    (stringPiece rest).rest.length ≤ rest.length := by
  have := length_dropWhile_le (· != '"') rest
  simp only [stringPiece]
  split
  · next h => rw [h] at this; exact Nat.le_of_succ_le this
  · simp

theorem numberPiece_rest_length_le (c : Char) (rest : List Char) :
    (numberPiece c rest).rest.length ≤ rest.length := by
  have := length_dropWhile_le isDigit rest
  simp only [numberPiece]
  split
  · next d tail h =>
    split
    · have := length_dropWhile_le isDigit tail
      simp_all
      omega
    · simpa using this
  · exact this

theorem markOrEqual_rest_length_le (c : Char) (rest : List Char) (short long : Mark) :
    (markOrEqual c rest short long).rest.length ≤ rest.length := by
  unfold markOrEqual
  split <;> simp [single]

/-- A piece takes at least one character. -/
theorem pieceAt_rest_length_le (c : Char) (rest : List Char) :
    (pieceAt c rest).rest.length ≤ rest.length := by
  unfold pieceAt
  split
  · exact Nat.le_refl _
  split
  · exact slashPiece_rest_length_le rest
  split
  · exact stringPiece_rest_length_le rest
  split
  · exact numberPiece_rest_length_le c rest
  split
  · exact length_dropWhile_le ..
  split
  · exact Nat.le_refl _
  · exact markOrEqual_rest_length_le ..
  · exact Nat.le_refl _

/-! ### Pieces tile the text -/

theorem afterComment_suffix {depth : Nat} {text rest : List Char}
    (h : afterComment depth text = some rest) : rest <:+ text := by
  fun_induction afterComment depth text <;> simp_all
  · exact (List.suffix_cons_iff.2 (.inr (List.suffix_cons_iff.2 (.inr ‹_›))))
  · exact (List.suffix_cons_iff.2 (.inr (List.suffix_cons_iff.2 (.inr ‹_›))))
  · exact List.suffix_cons_iff.2 (.inr ‹_›)

theorem nestedComment_tiles (body : List Char) :
    (nestedComment body).taken ++ (nestedComment body).rest = '/' :: '*' :: body := by
  unfold nestedComment
  split
  · next rest h =>
    obtain ⟨front, rfl⟩ := afterComment_suffix h
    simp
  · simp

theorem slashPiece_tiles (rest : List Char) :
    (slashPiece rest).taken ++ (slashPiece rest).rest = '/' :: rest := by
  unfold slashPiece
  split
  · simp
  · exact nestedComment_tiles _
  · rfl

theorem stringPiece_tiles (rest : List Char) :
    (stringPiece rest).taken ++ (stringPiece rest).rest = '"' :: rest := by
  have := List.takeWhile_append_dropWhile (p := (· != '"')) (l := rest)
  simp only [stringPiece]
  split
  · next h => rw [h] at this; simpa using this
  · next h => rw [h] at this; simpa using this

theorem numberPiece_tiles (c : Char) (rest : List Char) :
    (numberPiece c rest).taken ++ (numberPiece c rest).rest = c :: rest := by
  have := List.takeWhile_append_dropWhile (p := isDigit) (l := rest)
  simp only [numberPiece]
  split
  · next h =>
    split
    · rw [h] at this
      simpa using this
    · simp
  · simp

theorem markOrEqual_tiles (c : Char) (rest : List Char) (short long : Mark) :
    (markOrEqual c rest short long).taken ++ (markOrEqual c rest short long).rest = c :: rest := by
  unfold markOrEqual
  split <;> rfl

/-- A piece and the text after it make up the text. -/
theorem pieceAt_tiles (c : Char) (rest : List Char) :
    (pieceAt c rest).taken ++ (pieceAt c rest).rest = c :: rest := by
  unfold pieceAt
  split
  · rfl
  split
  · next h => exact h ▸ slashPiece_tiles rest
  split
  · next h => exact h ▸ stringPiece_tiles rest
  split
  · exact numberPiece_tiles c rest
  split
  · simp [wordPiece]
  split
  · rfl
  · exact markOrEqual_tiles ..
  · rfl

/-! ### The whole text -/

/-- The tokens and faults of a text that begins on a given line. A token and a fault carry the line
on which their piece ends. -/
def scanFrom (line : Nat) : List Char → List (Except ScanError Token)
  | [] => [.ok ⟨.endOfText, "", line⟩]
  | c :: text =>
    let piece := pieceAt c text
    let line := line + piece.taken.count '\n'
    match piece.meaning with
    | .nothing => scanFrom line piece.rest
    | .token kind => .ok ⟨kind, String.ofList piece.taken, line⟩ :: scanFrom line piece.rest
    | .fault f => .error ⟨f, line⟩ :: scanFrom line piece.rest
termination_by text => text.length
decreasing_by all_goals exact Nat.lt_succ_of_le (pieceAt_rest_length_le c text)

/-- The tokens and faults of a program text. -/
def scan (text : String) : List (Except ScanError Token) :=
  scanFrom 1 text.toList

/-- The tokens among the results of a scan. -/
def tokensOf (items : List (Except ScanError Token)) : List Token :=
  items.filterMap fun
    | .ok t => some t
    | .error _ => none

/-- The faults among the results of a scan. -/
def errorsOf (items : List (Except ScanError Token)) : List ScanError :=
  items.filterMap fun
    | .ok _ => none
    | .error e => some e

end Token

end Treewalk
