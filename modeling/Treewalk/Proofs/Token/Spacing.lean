import Treewalk.Proofs.Token.Joining

/-!
# Texts with other spacing

A token that is followed by a blank, or by nothing, is told from what it is made of alone: no token
gets longer by a blank, and no comment begins with one. So the tokens of a text are found again in
every text that has the same lexemes in the same order with separators between them. A separator
begins with a blank and goes on with blanks and comments.

## Main definitions

* `Token.Spacing`, `Token.Separator`: what may stand between lexemes.
* `Token.Spaced`, `Token.Respaced`: texts with given lexemes and separators between them.
* `Token.content`: a token without its line.

## Main results

* `Token.Spacing.silent`: spacing has no token and no fault.
* `Token.Spaced.pieces`: the tokens of lexemes with separators between them.
* `Token.scan_respaced`: a text with other spacing has the same tokens.
-/

namespace Treewalk

namespace Token

/-! ### Separators -/

/-- Blanks, comments up to a line break, and comments with the closings of all comments inside. -/
inductive Spacing : List Char → Prop
  | nil : Spacing []
  | blank {c : Char} {later : List Char} (hblank : isBlank c) (h : Spacing later) :
    Spacing (c :: later)
  | lineComment {text later : List Char} (htext : '\n' ∉ text) (h : Spacing later) :
    Spacing ('/' :: '/' :: (text ++ '\n' :: later))
  | nestedComment {body later : List Char} (hbody : Nested body) (h : Spacing later) :
    Spacing ('/' :: '*' :: (body ++ later))

/-- What may stand between two lexemes: a blank, and spacing after it. -/
inductive Separator : List Char → Prop
  | begin {c : Char} {later : List Char} (hblank : isBlank c) (h : Spacing later) :
    Separator (c :: later)

theorem Separator.spacing {sep : List Char} (h : Separator sep) : Spacing sep := by
  cases h with
  | begin hblank h => exact .blank hblank h

/-- Lexemes one after another with a separator before each, and perhaps one after the last. -/
inductive Spaced : List String → List Char → Prop
  | last {sep : List Char} (hsep : sep = [] ∨ Separator sep) : Spaced [] sep
  | lexeme {sep later : List Char} {word : String} {words : List String} (hsep : Separator sep)
      (h : Spaced words later) : Spaced (word :: words) (sep ++ (word.toList ++ later))

/-- A text with given lexemes and separators between them, and perhaps one before the first and one
after the last. -/
inductive Respaced : List String → List Char → Prop
  | spaced {words : List String} {text : List Char} (h : Spaced words text) : Respaced words text
  | unspaced {later : List Char} {word : String} {words : List String} (h : Spaced words later) :
    Respaced (word :: words) (word.toList ++ later)

/-- The part of a text before the rest is cut into pieces that are no tokens and no faults. -/
def Silent (sep text : List Char) : Prop :=
  ∃ ps, pieces (sep ++ text) = ps ++ pieces text ∧ ∀ p ∈ ps, p.meaning = .nothing

theorem Silent.cons {taken later text : List Char}
    (hp : Piece.Fits ⟨.nothing, taken, later ++ text⟩) (h : Silent later text) :
    Silent (taken ++ later) text := by
  obtain ⟨ps, heq, hps⟩ := h
  refine ⟨⟨.nothing, taken, later ++ text⟩ :: ps, ?_, List.forall_mem_cons.mpr ⟨rfl, hps⟩⟩
  rw [List.append_assoc]
  exact hp.pieces_eq.trans (congrArg _ heq)

/-- Spacing has no token and no fault, whatever follows it. -/
theorem Spacing.silent {sep : List Char} (h : Spacing sep) (text : List Char) :
    Silent sep text := by
  induction h with
  | nil => exact ⟨[], rfl, fun _ hp => absurd hp List.not_mem_nil⟩
  | blank hblank _ ih => exact .cons (.blank hblank) ih
  | @lineComment comment later hcomment _ ih =>
    have hbreak : Silent ('\n' :: later) text := .cons (.blank rfl) ih
    refine .cons (.lineComment hcomment fun c hc => ?_) hbreak
    exact (Option.some_inj.mp hc).symm
  | nestedComment hbody _ ih => exact .cons (.nestedComment hbody) ih

/-! ### Tokens of pieces -/

/-- The token that a piece is, with its characters. -/
def Piece.token? (p : Piece) : Option (TokenKind × List Char) :=
  match p.meaning with
  | .token kind => some (kind, p.taken)
  | _ => none

/-- A token can be of a kind and have given characters at some place. -/
def Placeable (token : TokenKind × List Char) : Prop :=
  ∃ rest, Piece.Fits ⟨.token token.1, token.2, rest⟩

/-- Pieces with given tokens and without faults. -/
structure Piece.Make (ps : List Piece) (tokens : List (TokenKind × List Char)) : Prop where
  tokens_eq : ps.filterMap Piece.token? = tokens
  not_fault : ∀ p ∈ ps, ∀ f, p.meaning ≠ .fault f

namespace Piece.Make

variable {ps qs : List Piece} {token : TokenKind × List Char}
  {tokens : List (TokenKind × List Char)}

theorem append_nothing (h : Make qs tokens) (hps : ∀ p ∈ ps, p.meaning = .nothing) :
    Make (ps ++ qs) tokens := by
  refine ⟨?_, fun p hp f hf => ?_⟩
  · have hnone : ps.filterMap Piece.token? = [] :=
      List.filterMap_eq_nil_iff.mpr fun p hp => by rw [token?, hps p hp]
    rw [List.filterMap_append, hnone, h.tokens_eq, List.nil_append]
  · rcases List.mem_append.mp hp with hp | hp
    · cases (hps p hp).symm.trans hf
    · exact h.not_fault p hp f hf

theorem cons_token (h : Make ps tokens) (rest : List Char) :
    Make (⟨.token token.1, token.2, rest⟩ :: ps) (token :: tokens) := by
  refine ⟨congrArg (token :: ·) h.tokens_eq, List.forall_mem_cons.mpr ⟨fun f hf => ?_, h.not_fault⟩⟩
  cases hf

end Piece.Make

/-! ### Lexemes with separators between them -/

/-- The lexeme of a token. -/
def lexemeOf (token : TokenKind × List Char) : String :=
  String.ofList token.2

theorem Spaced.isBlank_head {words : List String} {text : List Char} (h : Spaced words text) :
    ∀ c ∈ text.head?, isBlank c := by
  have hbegin {sep : List Char} (hsep : Separator sep) (later : List Char) :
      ∀ c ∈ (sep ++ later).head?, isBlank c := by
    cases hsep with
    | begin hblank => exact fun c hc => Option.some_inj.mp hc ▸ hblank
  cases h with
  | last hsep =>
    rcases hsep with rfl | hsep
    · simp
    · simpa using hbegin hsep []
  | lexeme hsep => exact hbegin hsep _

/-- A token before a blank, or at the end of a text, is taken as a whole. -/
theorem Placeable.pieces_eq {token : TokenKind × List Char} (h : Placeable token)
    {later : List Char} (hlater : ∀ c ∈ later.head?, isBlank c) :
    pieces (token.2 ++ later) = ⟨.token token.1, token.2, later⟩ :: pieces later := by
  obtain ⟨rest, hfits⟩ := h
  exact (hfits.token_before rest.nil_prefix hlater).pieces_eq

/-- The tokens of lexemes with separators between them. -/
theorem Spaced.pieces {tokens : List (TokenKind × List Char)} {text : List Char}
    (h : Spaced (tokens.map lexemeOf) text) (htokens : ∀ token ∈ tokens, Placeable token) :
    Piece.Make (pieces text) tokens := by
  generalize hwords : tokens.map lexemeOf = words at h
  induction h generalizing tokens with
  | @last sep hsep =>
    obtain rfl := List.map_eq_nil_iff.mp hwords
    have hspacing : Spacing sep := hsep.elim (fun hnil => hnil ▸ .nil) Separator.spacing
    obtain ⟨ps, heq, hps⟩ := hspacing.silent []
    rw [List.append_nil] at heq
    rw [heq]
    refine Piece.Make.append_nothing ⟨?_, ?_⟩ hps <;> rw [Token.pieces]
    · rfl
    · exact fun _ hp => absurd hp List.not_mem_nil
  | @lexeme sep later word words hsep hspaced ih =>
    obtain ⟨token, tokens, rfl, rfl, rfl⟩ := List.map_eq_cons_iff.mp hwords
    obtain ⟨htoken, htokens⟩ := List.forall_mem_cons.mp htokens
    obtain ⟨ps, heq, hps⟩ := hsep.spacing.silent (token.2 ++ later)
    rw [lexemeOf, String.toList_ofList, heq, htoken.pieces_eq hspaced.isBlank_head]
    exact ((ih htokens rfl).cons_token later).append_nothing hps

theorem Respaced.pieces {tokens : List (TokenKind × List Char)} {text : List Char}
    (h : Respaced (tokens.map lexemeOf) text) (htokens : ∀ token ∈ tokens, Placeable token) :
    Piece.Make (pieces text) tokens := by
  generalize hwords : tokens.map lexemeOf = words at h
  cases h with
  | spaced h => exact Spaced.pieces (hwords ▸ h) htokens
  | @unspaced later word words h =>
    obtain ⟨token, tokens, rfl, rfl, rfl⟩ := List.map_eq_cons_iff.mp hwords
    obtain ⟨htoken, htokens⟩ := List.forall_mem_cons.mp htokens
    rw [lexemeOf, String.toList_ofList, htoken.pieces_eq h.isBlank_head]
    exact (Spaced.pieces h htokens).cons_token later

/-! ### The whole text -/

/-- A token without its line. -/
def content (t : Token) : TokenKind × String :=
  (t.kind, t.lexeme)

/-- The tokens of pieces, and then the end of the text. -/
theorem content_itemsFrom (line : Nat) (ps : List Piece) :
    (tokensOf (itemsFrom line ps)).map content =
      (ps.filterMap Piece.token?).map (fun token => (token.1, lexemeOf token)) ++
        [(.endOfText, "")] := by
  induction ps generalizing line with
  | nil => rfl
  | cons p ps ih =>
    rw [itemsFrom, tokensOf, List.filterMap_append, List.map_append]
    refine (congrArg (_ ++ ·) (ih _)).trans ?_
    rw [← List.append_assoc]
    cases hmeaning : p.meaning <;> simp [Piece.item?, Piece.token?, hmeaning, content, lexemeOf]

/-- A text without faults is made of its tokens, which all stand at their places. -/
theorem Cuts.placeable {text : List Char} {ps : List Piece} (h : Cuts text ps) :
    ∀ token ∈ ps.filterMap Piece.token?, Placeable token := by
  induction h with
  | done => exact fun _ htoken => absurd htoken List.not_mem_nil
  | @piece p ps hp _ ih =>
    intro token htoken
    rw [List.filterMap_cons] at htoken
    cases hmeaning : p.meaning with
    | token kind =>
      have hsome : p.token? = some (kind, p.taken) := by rw [Piece.token?, hmeaning]
      rw [hsome] at htoken
      rcases List.mem_cons.mp htoken with rfl | htoken
      · exact ⟨p.rest, hmeaning ▸ hp⟩
      · exact ih token htoken
    | _ =>
      have hnone : p.token? = none := by rw [Piece.token?, hmeaning]
      rw [hnone] at htoken
      exact ih token htoken

theorem Placeable.isEnd_eq_false {token : TokenKind × List Char} (h : Placeable token) :
    token.1.isEnd = false := by
  obtain ⟨rest, hfits⟩ := h
  exact hfits.isEnd_eq_false rfl

/-- The lexemes of a text. -/
theorem lexemes_scan (text : String) :
    (tokensBeforeEnd (tokensOf (scan text))).map lexeme =
      ((pieces text.toList).filterMap Piece.token?).map lexemeOf := by
  have hcontent := content_itemsFrom 1 (pieces text.toList)
  rw [← scanFrom_eq_itemsFrom] at hcontent
  have hplaceable := (cuts_pieces text.toList).placeable
  generalize (pieces text.toList).filterMap Piece.token? = tokens at *
  have hbefore : (tokensBeforeEnd (tokensOf (scan text))).map content =
      tokens.map fun token => (token.1, lexemeOf token) := by
    have htake := @List.takeWhile_map _ _ content (fun p => !p.1.isEnd) (tokensOf (scan text))
    rw [scan, hcontent, List.takeWhile_append_of_pos] at htake
    · exact htake.symm.trans (List.append_nil _)
    · intro p hp
      obtain ⟨token, hmem, rfl⟩ := List.mem_map.mp hp
      simp [(hplaceable token hmem).isEnd_eq_false]
  have hlexemes := congrArg (List.map Prod.snd) hbefore
  rw [List.map_map, List.map_map] at hlexemes
  exact hlexemes

/-- Spacing between tokens does not matter: every text that has the lexemes of a text in the same
order, with separators between them, has the same tokens on whatever lines, and it has no fault. -/
theorem scan_respaced {a b : String}
    (hb : Respaced ((tokensBeforeEnd (tokensOf (scan a))).map lexeme) b.toList) :
    errorsOf (scan b) = [] ∧ (tokensOf (scan b)).map content = (tokensOf (scan a)).map content := by
  rw [lexemes_scan] at hb
  obtain ⟨htokens, hfault⟩ := hb.pieces (cuts_pieces a.toList).placeable
  simp only [scan, scanFrom_eq_itemsFrom]
  refine ⟨(errorsOf_itemsFrom_eq_nil_iff 1 _).mpr hfault, ?_⟩
  rw [content_itemsFrom, content_itemsFrom, htokens]

/-- A slash between two names, and the same with a comment and blanks between them. -/
theorem scan_respaced_slash :
    Respaced ((tokensBeforeEnd (tokensOf (scan "a/b"))).map lexeme) "a /**// \tb".toList ∧
      errorsOf (scan "a /**// \tb") = [] ∧
      (tokensOf (scan "a /**// \tb")).map content = (tokensOf (scan "a/b")).map content := by
  have hwords : (tokensBeforeEnd (tokensOf (scan "a/b"))).map lexeme = ["a", "/", "b"] := by cbv
  have hcomment : Separator (' ' :: '/' :: '*' :: (['*', '/'] ++ [])) :=
    .begin rfl (.nestedComment .closing .nil)
  have hblanks : Separator [' ', '\t'] := .begin rfl (.blank rfl .nil)
  have hlater : Spaced ["/", "b"] _ := .lexeme hcomment (.lexeme hblanks (.last (.inl rfl)))
  have hb : Respaced ((tokensBeforeEnd (tokensOf (scan "a/b"))).map lexeme)
      "a /**// \tb".toList := by
    rw [hwords]
    exact .unspaced hlater
  exact ⟨hb, scan_respaced hb⟩

end Token

end Treewalk
