import Treewalk.Proofs.Relocation.Reading
import Treewalk.Proofs.Token.Pieces

/-!
# Joined texts

Two texts with a line break between them are cut into the pieces of the first text, the line break
and the pieces of the second text, unless the first text has a fault, such as a text literal that it
leaves open. So the tokens of both texts follow each other, those of the second one on later lines.

## Main definitions

* `joined`: two texts with a line break between them.
* `Relocation.after`: how far the lines of the second text move.

## Main results

* `Token.Piece.Fits.token_before`: a token goes on fitting before a blank.
* `Token.Piece.Fits.before`: a piece that fits goes on fitting before a line break.
* `Token.scan_joined`: the tokens and faults of joined texts.
* `Token.tokensBeforeEnd_joined`: the tokens of joined texts.
-/

namespace Treewalk

/-- Two texts with a line break between them. -/
def joined (a b : String) : String :=
  a ++ "\n" ++ b

theorem toList_joined (a b : String) : (joined a b).toList = a.toList ++ '\n' :: b.toList := by
  simp [joined]

/-- Lines move down by those of a text that comes before, and one more for the line break. -/
def Relocation.after (a : String) : Relocation :=
  .ofLine fun line => line + (a.toList.count '\n' + 1)

namespace Token

/-! ### Pieces before a blank -/

/-- What begins a text, but has not the character that comes after a part of it, begins that part.
-/
theorem prefix_before {xs ys tail : List Char} (h : xs <+: ys ++ tail)
    (hxs : ∀ c ∈ tail.head?, c ∉ xs) : xs <+: ys := by
  rcases List.prefix_or_prefix_of_prefix h (List.prefix_append ys _) with hle | ⟨more, rfl⟩
  · exact hle
  · cases more with
    | nil => simp
    | cons c more =>
      obtain ⟨last, rfl⟩ := (List.prefix_append_right_inj ys).mp h
      exact absurd (by simp) (hxs c rfl)

theorem isNamePart_of_isBlank {b : Char} (hb : isBlank b) : isNamePart b = false := by
  have hopening := opening_of_isBlank hb
  have hletter : isNameStart b ≠ true := fun h => by simp [opening_of_isNameStart h] at hopening
  have hdigit : isDigit b ≠ true := fun h => by simp [opening_of_isDigit h] at hopening
  simp [isNamePart, hletter, hdigit]

/-- Only text literals have blanks. -/
theorem Spells.of_blank {b : Char} (hb : isBlank b) {kind : TokenKind} {taken : List Char}
    (h : Spells kind taken) (hmem : b ∈ taken) :
    ∃ text, '"' ∉ text ∧ taken = '"' :: (text ++ ['"']) := by
  have hpart := isNamePart_of_isBlank hb
  have hword {cs : List Char} (hcs : ∀ d ∈ cs, isNamePart d) : b ∉ cs := fun hmem => by
    simp [hcs b hmem] at hpart
  have hdigits {cs : List Char} (hcs : ∀ d ∈ cs, isDigit d) : b ∉ cs :=
    hword fun d hd => by simp [isNamePart, hcs d hd]
  have hstart {c : Char} (hc : isNameStart c) : isNamePart c := by simp [isNamePart, hc]
  cases h with
  | mark m =>
    have hall : m.text.toList.all (!isBlank ·) = true := by cases m <;> rfl
    simpa [hb] using List.all_eq_true.mp hall b hmem
  | keyword k =>
    have hall : k.text.toList.all (!isBlank ·) = true := by cases k <;> rfl
    simpa [hb] using List.all_eq_true.mp hall b hmem
  | identifier hc hrest => exact absurd hmem (hword (List.forall_mem_cons.mpr ⟨hstart hc, hrest⟩))
  | string hquote => exact ⟨_, hquote, rfl⟩
  | whole hc hrest => exact absurd hmem (hdigits (List.forall_mem_cons.mpr ⟨hc, hrest⟩))
  | @decimal c d digits fraction hc hrest hd hfraction =>
    rw [← List.cons_append, List.mem_append, List.mem_cons (a := b) (b := '.')] at hmem
    rcases hmem with hmem | rfl | hmem
    · exact absurd hmem (hdigits (List.forall_mem_cons.mpr ⟨hc, hrest⟩))
    · exact absurd hb (by decide)
    · exact absurd hmem (hdigits (List.forall_mem_cons.mpr ⟨hd, hfraction⟩))

/-- A token goes on fitting if a blank comes earlier than the rest of the text did, or nothing at
all: no token gets longer by a blank, and no comment begins with one. -/
theorem Piece.Fits.token_before {kind : TokenKind} {taken rest front tail : List Char}
    (h : Piece.Fits ⟨.token kind, taken, rest⟩) (hfront : front <+: rest)
    (htail : ∀ c ∈ tail.head?, isBlank c) : Piece.Fits ⟨.token kind, taken, front ++ tail⟩ := by
  cases h with
  | token hspells hlongest hcomment =>
    have hwider : taken ++ front <+: taken ++ rest :=
      (List.prefix_append_right_inj taken).mpr hfront
    refine .token hspells (fun kind' taken' hspells' hpre => ?_) fun hopens => hcomment ?_
    · rw [← List.append_assoc] at hpre
      by_cases hblank : ∃ b ∈ tail.head?, b ∈ taken'
      · -- a longer text literal would have the closing quote of this one inside
        obtain ⟨b, hb, hmem⟩ := hblank
        obtain ⟨text', hquote', rfl⟩ := hspells'.of_blank (htail b hb) hmem
        obtain ⟨c, tail', rfl, -⟩ := hspells.exists_cons
        obtain ⟨more, heq⟩ := hpre
        obtain ⟨rfl, heq⟩ := List.cons.inj heq
        obtain ⟨text, hquote, rfl, -⟩ := hspells.of_quote
        replace heq : text' ++ '"' :: more = text ++ '"' :: (front ++ tail) := by simpa using heq
        have hall {cs : List Char} (hcs : '"' ∉ cs) : ∀ d ∈ cs, (d != '"') = true := fun d hd => by
          simpa using ne_of_mem_of_not_mem hd hcs
        obtain ⟨rfl, -⟩ := append_point_inj (by decide) (hall hquote') (hall hquote) heq
        exact Nat.le_refl _
      · have hfree : ∀ b ∈ tail.head?, b ∉ taken' := fun b hb hmem => hblank ⟨b, hb, hmem⟩
        exact hlongest kind' taken' hspells' ((prefix_before hpre hfree).trans hwider)
    · have hfree {a : Char} (ha : ¬ isBlank a) : ∀ b ∈ tail.head?, b ∉ ['/', a] := by
        intro b hb hmem
        rcases List.mem_pair.mp hmem with rfl | rfl
        · exact absurd (htail _ hb) (by decide)
        · exact ha (htail _ hb)
      rw [← List.append_assoc] at hopens
      exact hopens.imp (fun h => (prefix_before h (hfree (by decide))).trans hwider)
        fun h => (prefix_before h (hfree (by decide))).trans hwider

/-- A piece with more text after it. -/
def Piece.before (p : Piece) (tail : List Char) : Piece :=
  { p with rest := p.rest ++ tail }

/-- A piece that fits and is no fault goes on fitting before a line break. -/
theorem Piece.Fits.before {p : Piece} (hp : p.Fits) (hfault : ∀ f, p.meaning ≠ .fault f)
    (tail : List Char) : (p.before ('\n' :: tail)).Fits := by
  cases hp with
  | blank hblank => exact .blank hblank
  | @lineComment text rest htext hrest =>
    refine .lineComment htext fun c hc => ?_
    cases rest with
    | nil => simpa using hc.symm
    | cons d rest => exact hrest c hc
  | nestedComment hbody => exact .nestedComment hbody
  | @token kind taken rest hspells hlongest hcomment =>
    have hfits : Piece.Fits ⟨.token kind, taken, rest⟩ := .token hspells hlongest hcomment
    exact hfits.token_before (List.prefix_refl rest) fun c hc => Option.some_inj.mp hc ▸ rfl
  | unexpected => exact absurd rfl (hfault _)
  | openString => exact absurd rfl (hfault _)
  | openComment => exact absurd rfl (hfault _)

/-- The line break between two texts. -/
def breakPiece (tail : List Char) : Piece :=
  ⟨.nothing, ['\n'], tail⟩

/-- The cut of two texts with a line break between them, the first of which has no fault. -/
theorem Cuts.joined {text : List Char} {ps : List Piece} (h : Cuts text ps)
    (hfault : ∀ p ∈ ps, ∀ f, p.meaning ≠ .fault f) (tail : List Char) :
    Cuts (text ++ '\n' :: tail)
      (ps.map (·.before ('\n' :: tail)) ++ breakPiece tail :: pieces tail) := by
  induction h with
  | done =>
    have hbreak : (breakPiece tail).Fits := .blank rfl
    exact .piece hbreak (cuts_pieces tail)
  | @piece p ps hp _ ih =>
    obtain ⟨hfirst, hothers⟩ := List.forall_mem_cons.mp hfault
    rw [List.append_assoc]
    exact .piece (hp.before hfirst tail) (ih hothers)

/-! ### Tokens and faults of pieces in a row -/

/-- Pieces in a row: only the end of the text falls away in between. -/
theorem itemsFrom_append (line : Nat) (ps qs : List Piece) : itemsFrom line (ps ++ qs) =
    (itemsFrom line ps).dropLast ++
      itemsFrom (line + (ps.flatMap Piece.taken).count '\n') qs := by
  induction ps generalizing line with
  | nil => rfl
  | cons p ps ih =>
    rw [List.cons_append, itemsFrom, itemsFrom, ih,
      List.dropLast_append_of_ne_nil (itemsFrom_ne_nil _ ps), List.append_assoc, List.flatMap_cons,
      List.count_append, Nat.add_assoc]

/-- What follows a piece does not matter for its token or fault. -/
theorem itemsFrom_before (line : Nat) (ps : List Piece) (tail : List Char) :
    itemsFrom line (ps.map (·.before tail)) = itemsFrom line ps := by
  induction ps generalizing line with
  | nil => rfl
  | cons p ps ih => exact congrArg (_ ++ ·) (ih _)

/-- A token or a fault on another line. -/
def relocateItem (r : Relocation) : Except ScanError Token → Except ScanError Token
  | .ok t => .ok (t.relocate r)
  | .error e => .error { e with line := r.line e.line }

/-- Pieces that begin on a later line. -/
theorem itemsFrom_add (line count : Nat) (ps : List Piece) : itemsFrom (line + count) ps =
    (itemsFrom line ps).map (relocateItem (.ofLine (· + count))) := by
  induction ps generalizing line with
  | nil => rfl
  | cons p ps ih =>
    have hitem (line : Nat) : (p.item? (line + count)).toList =
        (p.item? line).toList.map (relocateItem (.ofLine (· + count))) := by
      unfold Piece.item?
      cases p.meaning <;> rfl
    rw [itemsFrom, itemsFrom, List.map_append, Nat.add_right_comm, ih, hitem]

/-- A text without faults has no piece that is one. -/
theorem errorsOf_itemsFrom_eq_nil_iff (line : Nat) (ps : List Piece) :
    errorsOf (itemsFrom line ps) = [] ↔ ∀ p ∈ ps, ∀ f, p.meaning ≠ .fault f := by
  induction ps generalizing line with
  | nil => simp [itemsFrom, errorsOf]
  | cons p ps ih =>
    rw [itemsFrom, errorsOf, List.filterMap_append, List.append_eq_nil_iff, List.forall_mem_cons]
    refine and_congr ?_ (ih _)
    cases hmeaning : p.meaning <;> simp [Piece.item?, hmeaning]

/-- Joined texts of which the first has no fault: its tokens come first, and the tokens and faults
of the second one follow on later lines. -/
theorem scan_joined {a b : String} (ha : errorsOf (scan a) = []) : scan (joined a b) =
    (scan a).dropLast ++ (scan b).map (relocateItem (.after a)) := by
  have hscan (a : String) : scan a = itemsFrom 1 (pieces a.toList) :=
    scanFrom_eq_itemsFrom 1 a.toList
  rw [hscan] at ha
  have hpieces := (cuts_pieces a.toList).joined ((errorsOf_itemsFrom_eq_nil_iff 1 _).mp ha) b.toList
  have hcount : ((pieces a.toList).map (·.before ('\n' :: b.toList))).flatMap Piece.taken =
      a.toList := by
    rw [List.flatMap_map]
    exact (cuts_pieces a.toList).flatMap_taken
  have hbreak (line : Nat) : itemsFrom line (breakPiece b.toList :: pieces b.toList) =
      itemsFrom (line + 1) (pieces b.toList) := rfl
  rw [hscan (joined a b), toList_joined, ← hpieces.eq_pieces, itemsFrom_append, itemsFrom_before,
    hcount, hbreak, ← hscan, Nat.add_assoc, itemsFrom_add, ← hscan]
  rfl

/-! ### The tokens of joined texts -/

/-- The end of a text comes last. -/
theorem isEnd_of_mem_dropLast {text : List Char} {ps : List Piece} (h : Cuts text ps) (line : Nat) :
    ∀ t ∈ tokensOf (itemsFrom line ps).dropLast, t.kind.isEnd = false := by
  induction h generalizing line with
  | done => exact fun t ht => nomatch ht
  | @piece p ps hp _ ih =>
    intro t ht
    rw [itemsFrom, List.dropLast_append_of_ne_nil (itemsFrom_ne_nil _ ps), tokensOf,
      List.filterMap_append, List.mem_append] at ht
    refine ht.elim (fun ht => ?_) (ih _ t)
    cases hp with
    | token hspells =>
      obtain rfl := List.mem_singleton.mp ht
      cases hspells <;> rfl
    | _ => cases ht

theorem tokensBeforeEnd_append {ts : List Token} (h : ∀ t ∈ ts, t.kind.isEnd = false)
    (us : List Token) : tokensBeforeEnd (ts ++ us) = ts ++ tokensBeforeEnd us :=
  List.takeWhile_append_of_pos fun t ht => by simp [h t ht]

theorem itemsFrom_eq_dropLast_append (line : Nat) (ps : List Piece) : ∃ last,
    itemsFrom line ps = (itemsFrom line ps).dropLast ++ [.ok ⟨.endOfText, "", last⟩] := by
  refine ⟨line + (ps.flatMap Piece.taken).count '\n', ?_⟩
  conv_lhs => rw [← List.append_nil ps, itemsFrom_append, itemsFrom]

/-- The tokens of a text without the end of the text. -/
theorem tokensBeforeEnd_scan (a : String) :
    tokensBeforeEnd (tokensOf (scan a)) = tokensOf (scan a).dropLast := by
  have hend := isEnd_of_mem_dropLast (cuts_pieces a.toList) 1
  rw [scan, scanFrom_eq_itemsFrom]
  obtain ⟨last, heq⟩ := itemsFrom_eq_dropLast_append 1 (pieces a.toList)
  conv_lhs => rw [heq, tokensOf, List.filterMap_append]
  exact (tokensBeforeEnd_append hend _).trans (List.append_nil _)

theorem tokensOf_map_relocateItem (r : Relocation) (items : List (Except ScanError Token)) :
    tokensOf (items.map (relocateItem r)) = (tokensOf items).map (Token.relocate r) := by
  induction items with
  | nil => rfl
  | cons item items ih =>
    cases item with
    | ok t => exact congrArg (t.relocate r :: ·) ih
    | error e => exact ih

/-- The tokens of joined texts follow each other. -/
theorem tokensBeforeEnd_joined {a b : String} (ha : errorsOf (scan a) = []) :
    tokensBeforeEnd (tokensOf (scan (joined a b))) = tokensBeforeEnd (tokensOf (scan a)) ++
      (tokensBeforeEnd (tokensOf (scan b))).map (Token.relocate (.after a)) := by
  have hend := isEnd_of_mem_dropLast (cuts_pieces a.toList) 1
  rw [← scanFrom_eq_itemsFrom] at hend
  rw [scan_joined ha, tokensOf, List.filterMap_append]
  refine (tokensBeforeEnd_append hend _).trans ?_
  rw [tokensBeforeEnd_scan a]
  refine congrArg (_ ++ ·) ?_
  exact (congrArg tokensBeforeEnd (tokensOf_map_relocateItem _ _)).trans
    (tokensBeforeEnd_relocate _ _)

theorem errorsOf_joined {a b : String} (ha : errorsOf (scan a) = [])
    (hb : errorsOf (scan b) = []) : errorsOf (scan (joined a b)) = [] := by
  rw [scan_joined ha]
  rw [errorsOf, List.filterMap_eq_nil_iff] at ha hb ⊢
  intro item hitem
  rcases List.mem_append.mp hitem with hitem | hitem
  · exact ha item (List.dropLast_subset _ hitem)
  · obtain ⟨item, hmem, rfl⟩ := List.mem_map.mp hitem
    cases item with
    | ok t => rfl
    | error e => cases hb _ hmem

end Token

end Treewalk
