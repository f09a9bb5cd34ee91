import Treewalk.Proofs.Token.Positions.Octets

/-!
# Comments that nest

The end of a comment is found by jumps: whatever is no line feed, no slash and no star is passed
over at once. The same end is found by a reader that looks at every octet, counts openings up and
closings down, and counts the line feeds. So the comments of a text are those that its characters
make, however deep they nest.

A comment can be made from a tree of comments, with texts without slashes and stars in between. It
is then taken as a whole, and what is left if its end is cut off is open.

## Main definitions

* `Scanner.readComment`: the reader that looks at every octet.
* `PlainText`, `CommentTree`: what a comment contains.

## Main results

* `Scanner.commentDepth_eq`: jumps find the end that the reader of every octet finds.
* `Scanner.blockComment_of_some`, `Scanner.blockComment_of_none`: comments of a text, closed and
  open.
* `CommentTree.nested`, `CommentTree.afterComment_of_prefix`: comments made from trees.
-/

namespace Treewalk

namespace Scanner

open Token Utf8

/-! ### A reader that looks at every octet -/

/-- Where a reader of comments stops. -/
structure CommentEnd where
  /-- How many openings are still to be closed. -/
  depth : Nat
  /-- The index of the next octet. -/
  index : Nat
  /-- The line. -/
  line : Nat

/-- Reads a comment octet by octet, from an index and a line on, until `depth` openings are closed
or the text ends. A slash and a star are an opening, a star and a slash a closing. -/
def readComment : (depth index line : Nat) → List UInt8 → CommentEnd
  | 0, index, line, _ => ⟨0, index, line⟩
  | depth + 1, index, line, [] => ⟨depth + 1, index, line⟩
  | depth + 1, index, line, 0x2F :: 0x2A :: rest => readComment (depth + 2) (index + 2) line rest
  | depth + 1, index, line, 0x2A :: 0x2F :: rest => readComment depth (index + 2) line rest
  | depth + 1, index, line, o :: rest =>
    readComment (depth + 1) (index + 1) (if o = Line.feed then line + 1 else line) rest

variable {depth index line : Nat} {o : UInt8} {xs rest : List UInt8}

theorem readComment_opening :
    readComment (depth + 1) index line ('/'.toUInt8 :: '*'.toUInt8 :: rest) =
      readComment (depth + 2) (index + 2) line rest :=
  rfl

theorem readComment_closing :
    readComment (depth + 1) index line ('*'.toUInt8 :: '/'.toUInt8 :: rest) =
      readComment depth (index + 2) line rest :=
  rfl

/-- An octet with which neither an opening nor a closing begins. -/
theorem readComment_other (hopening : ¬ ['/'.toUInt8, '*'.toUInt8] <+: o :: rest)
    (hclosing : ¬ ['*'.toUInt8, '/'.toUInt8] <+: o :: rest) :
    readComment (depth + 1) index line (o :: rest) =
      readComment (depth + 1) (index + 1) (if o = Line.feed then line + 1 else line) rest := by
  rw [readComment]
  · rintro tail rfl rfl
    exact hopening ⟨tail, rfl⟩
  · rintro tail rfl rfl
    exact hclosing ⟨tail, rfl⟩

/-- Whether an octet can matter to comments. -/
def matters (o : UInt8) : Bool :=
  o == Line.feed || o == '/'.toUInt8 || o == '*'.toUInt8

theorem matters_eq_false_iff :
    matters o = false ↔ o ≠ Line.feed ∧ o ≠ '/'.toUInt8 ∧ o ≠ '*'.toUInt8 := by
  simp [matters, and_assoc]

/-- Octets that do not matter are passed over. -/
theorem readComment_append (hxs : ∀ x ∈ xs, matters x = false) :
    readComment (depth + 1) index line (xs ++ rest) =
      readComment (depth + 1) (index + xs.length) line rest := by
  induction xs generalizing index with
  | nil => rfl
  | cons x xs ih =>
    obtain ⟨hx, hxs⟩ := List.forall_mem_cons.mp hxs
    obtain ⟨hfeed, hslash, hstar⟩ := matters_eq_false_iff.mp hx
    rw [List.cons_append, readComment_other, if_neg hfeed, ih hxs, List.length_cons, Nat.add_assoc,
      Nat.add_comm 1]
    · exact fun h => hslash (List.cons_prefix_cons.mp h).1.symm
    · exact fun h => hstar (List.cons_prefix_cons.mp h).1.symm

/-- A search for what matters. -/
theorem findAny?_matters (lib : Library) (octets : List UInt8) :
    lib.findAny? Line.feed '/'.toUInt8 '*'.toUInt8 octets = octets.findIdx? matters :=
  lib.findAny?_eq ..

/-! ### Jumps -/

section Jumps

variable {lib : Library} {limit : Nat} {s : Place}

/-- A jump to an octet that matters. -/
theorem exists_jump {count : Nat} (h : s.left.findIdx? matters = some count) :
    ∃ passed o rest, s.left = passed ++ o :: rest ∧ passed.length = count ∧
      (∀ x ∈ passed, matters x = false) ∧ matters o = true := by
  obtain ⟨hlt, ho, hbefore⟩ := List.findIdx?_eq_some_iff_getElem.mp h
  refine ⟨s.left.take count, s.left[count], s.left.drop (count + 1), ?_, ?_, fun x hx => ?_, ho⟩
  · rw [List.cons_getElem_drop_succ, List.take_append_drop]
  · exact List.length_take_of_le (Nat.le_of_lt hlt)
  · obtain ⟨i, hi, rfl⟩ := List.getElem_of_mem hx
    rw [List.length_take] at hi
    rw [List.getElem_take]
    exact Bool.eq_false_iff.mpr (hbefore i (by omega))

/-- A round that jumps to an octet that matters. -/
theorem commentRound_jump {passed : List UInt8}
    (hfind : s.left.findIdx? matters = some passed.length) (hle : s.current ≤ s.octets.length)
    (hleft : s.left = passed ++ o :: rest) :
    commentRound lib (depth + 1) s =
      commentStep (depth + 1) o (rest.headD 0) (s.moved passed.length) := by
  have hmoved : (s.moved passed.length).left = o :: rest := by
    rw [s.left_moved, hleft, List.drop_left]
  rw [commentRound, if_neg (Nat.succ_ne_zero depth), bind_of_ok (remaining_apply hle),
    findAny?_matters, hfind]
  dsimp only
  rw [moveOn_bind, bind_of_ok (peek_apply _), bind_of_ok (peekNext_apply _), hmoved]
  rfl

theorem prefix_pair_iff {a b : UInt8} (hb : b ≠ 0) :
    [a, b] <+: o :: rest ↔ o = a ∧ rest.headD 0 = b := by
  cases rest with
  | nil => simp [hb.symm]
  | cons o' rest => simp [eq_comm]

/-- The step after a jump goes as far as the reader of every octet does meanwhile. -/
theorem exists_commentStep (hleft : s.left = o :: rest) :
    ∃ depth' index line, commentStep (depth + 1) o (rest.headD 0) s =
        .ok (.inl depth') (s.put index line) ∧
      readComment (depth + 1) s.current s.line (o :: rest) =
        readComment depth' index line (s.put index line).left ∧
      s.current < index ∧ index ≤ s.octets.length := by
  have hlength := s.length_left
  rw [hleft, List.length_cons] at hlength
  have hone (line : Nat) : (s.put (s.current + 1) line).left = rest :=
    @Place.left_put_add s [o] rest hleft line
  have htwo {o' : UInt8} {tail : List UInt8} (h : rest = o' :: tail) (line : Nat) :
      (s.put (s.current + 2) line).left = tail :=
    @Place.left_put_add s [o, o'] tail (hleft.trans (congrArg (o :: ·) h)) line
  by_cases hopening : ['/'.toUInt8, '*'.toUInt8] <+: o :: rest
  · obtain ⟨tail, htail⟩ := hopening
    obtain ⟨rfl, rfl⟩ := List.cons.inj htail.symm
    refine ⟨depth + 2, s.current + 2, s.line, rfl, ?_, by omega, ?_⟩
    · rw [htwo rfl]
      exact readComment_opening
    · simp only [List.append_eq, List.length_append, List.length_singleton] at hlength
      omega
  by_cases hclosing : ['*'.toUInt8, '/'.toUInt8] <+: o :: rest
  · obtain ⟨tail, htail⟩ := hclosing
    obtain ⟨rfl, rfl⟩ := List.cons.inj htail.symm
    refine ⟨depth, s.current + 2, s.line, rfl, ?_, by omega, ?_⟩
    · rw [htwo rfl]
      exact readComment_closing
    · simp only [List.append_eq, List.length_append, List.length_singleton] at hlength
      omega
  have hread := @readComment_other depth s.current s.line o rest hopening hclosing
  rw [prefix_pair_iff (by decide)] at hopening hclosing
  rw [commentStep, if_neg hopening, if_neg hclosing, hread]
  by_cases hfeed : o = Line.feed
  · rw [if_pos hfeed, if_pos hfeed]
    exact ⟨depth + 1, s.current + 1, s.line + 1, rfl, by rw [hone], by omega, by omega⟩
  · rw [if_neg hfeed, if_neg hfeed]
    exact ⟨depth + 1, s.current + 1, s.line, rfl, by rw [hone], by omega, by omega⟩

/-- Jumps find the end that the reader of every octet finds, at the same index, depth and line. -/
theorem commentDepth_eq (lib : Library) (hle : s.current ≤ s.octets.length)
    (hlimit : s.left.length < limit) (depth : Nat) :
    commentDepth lib limit depth s =
      let stop := readComment depth s.current s.line s.left
      .ok stop.depth (s.put stop.index stop.line) := by
  rw [commentDepth]
  induction limit generalizing depth s with
  | zero => exact absurd hlimit (Nat.not_lt_zero _)
  | succ limit ih =>
    cases depth with
    | zero =>
      rw [readComment]
      rfl
    | succ depth =>
      have hlength := s.length_left
      cases hfind : s.left.findIdx? matters with
      | none =>
        have hround : commentRound lib (depth + 1) s =
            .ok (.inr (depth + 1)) (s.put s.octets.length s.line) := by
          rw [commentRound, if_neg (Nat.succ_ne_zero depth), bind_of_ok (remaining_apply hle),
            findAny?_matters, hfind]
          rfl
        have hall : ∀ x ∈ s.left, matters x = false := List.findIdx?_eq_none_iff.mp hfind
        have hread := @readComment_append depth s.current s.line s.left [] hall
        rw [List.append_nil, readComment] at hread
        rw [repeated_of_inr hround, hread, hlength, Nat.add_sub_cancel' hle]
      | some count =>
        obtain ⟨passed, o, rest, hleft, rfl, hpassed, -⟩ := exists_jump hfind
        have hmoved : (s.moved passed.length).left = o :: rest := by
          rw [s.left_moved, hleft, List.drop_left]
        obtain ⟨depth', index, line, hstep, hread, hlt, hindex⟩ :=
          @exists_commentStep depth o rest _ hmoved
        replace hlt : s.current + passed.length < index := hlt
        replace hindex : index ≤ s.octets.length := hindex
        replace hread : readComment (depth + 1) (s.current + passed.length) s.line (o :: rest) =
          readComment depth' index line (s.put index line).left := hread
        have hlimit' : (s.put index line).left.length < limit := by
          rw [s.left_put, List.length_drop]
          omega
        rw [hleft, readComment_append hpassed, hread]
        have hround : commentRound lib (depth + 1) s = .ok (.inl depth') (s.put index line) :=
          (commentRound_jump hfind hle hleft).trans hstep
        rw [repeated_of_inl hround]
        exact ih hindex hlimit' depth'

end Jumps

/-! ### Comments of a text -/

section Characters

variable {c : Char} {cs taken after : List Char}

/-- A character with which neither an opening nor a closing begins is passed over. -/
theorem readComment_cons (hopening : ¬ ['/', '*'] <+: c :: cs)
    (hclosing : ¬ ['*', '/'] <+: c :: cs) (depth index line : Nat) :
    readComment (depth + 1) index line (encode (c :: cs)) = readComment (depth + 1)
      (index + (encode [c]).length) (line + [c].count '\n') (encode cs) := by
  rcases Nat.lt_or_ge c.toNat 0x80 with hc | hc
  · replace hopening := (prefix_encode_iff (by simp)).not.mpr hopening
    replace hclosing := (prefix_encode_iff (by simp)).not.mpr hclosing
    rw [encode_ascii hc] at hopening hclosing
    rw [encode_ascii hc, readComment_other hopening hclosing, encode_ascii hc]
    by_cases hfeed : c = '\n'
    · subst hfeed
      rfl
    · have hne : c.toUInt8 ≠ Line.feed := Line.ne_feed_of_mem_encodeChar hfeed (by
        rw [encodeChar_ascii hc]
        exact List.mem_cons_self)
      rw [if_neg hne, List.count_eq_zero.mpr (by simpa using Ne.symm hfeed)]
      rfl
  · have hmatters : ∀ o ∈ encode [c], matters o = false := by
      intro o ho
      rw [encode_cons, encode_nil, List.append_nil] at ho
      have hle := le_of_mem_encodeChar hc ho
      rw [matters_eq_false_iff]
      refine ⟨?_, ?_, ?_⟩ <;> rintro rfl <;> exact absurd hle (by decide)
    have hne : c ≠ '\n' := by
      rintro rfl
      exact absurd hc (by decide)
    rw [← List.singleton_append, encode_append, readComment_append hmatters,
      List.count_eq_zero.mpr (by simpa using hne.symm)]
    rfl

/-- The end of a comment that the octets of a text give is the one that its characters give, if they
give one, and otherwise the end of the text. -/
theorem exists_readComment_encode (depth index line : Nat) (cs : List Char) :
    ∃ taken after depth', cs = taken ++ after ∧
      readComment depth index line (encode cs) =
        ⟨depth', index + (encode taken).length, line + taken.count '\n'⟩ ∧
      (depth' = 0 ∧ afterComment depth cs = some after ∨
        0 < depth' ∧ after = [] ∧ afterComment depth cs = none) := by
  induction hn : cs.length using Nat.strong_induction_on generalizing depth index line cs with
  | _ n ih =>
    subst hn
    cases depth with
    | zero => exact ⟨[], cs, 0, rfl, by rw [readComment]; rfl, .inl ⟨rfl, by rw [afterComment]⟩⟩
    | succ depth =>
      cases cs with
      | nil =>
        exact ⟨[], [], depth + 1, rfl, rfl, .inr ⟨Nat.succ_pos _, rfl, by rw [afterComment]⟩⟩
      | cons c cs =>
        by_cases hopening : ['/', '*'] <+: c :: cs
        · obtain ⟨cs, heq⟩ := hopening
          obtain ⟨rfl, rfl⟩ := List.cons.inj heq.symm
          obtain ⟨taken, after, depth', rfl, hread, hafter⟩ :=
            ih cs.length (by simp) (depth + 2) (index + 2) line cs rfl
          refine ⟨'/' :: '*' :: taken, after, depth', rfl, ?_, hafter⟩
          have hlength : (encode ('/' :: '*' :: taken)).length = (encode taken).length + 2 := rfl
          rw [hlength, ← Nat.add_assoc, Nat.add_right_comm]
          exact readComment_opening.trans hread
        by_cases hclosing : ['*', '/'] <+: c :: cs
        · obtain ⟨cs, heq⟩ := hclosing
          obtain ⟨rfl, rfl⟩ := List.cons.inj heq.symm
          obtain ⟨taken, after, depth', rfl, hread, hafter⟩ :=
            ih cs.length (by simp) depth (index + 2) line cs rfl
          refine ⟨'*' :: '/' :: taken, after, depth', rfl, ?_, hafter⟩
          have hlength : (encode ('*' :: '/' :: taken)).length = (encode taken).length + 2 := rfl
          rw [hlength, ← Nat.add_assoc, Nat.add_right_comm]
          exact readComment_closing.trans hread
        obtain ⟨taken, after, depth', rfl, hread, hafter⟩ :=
          ih cs.length (by simp) (depth + 1) (index + (encode [c]).length) (line + [c].count '\n')
            cs rfl
        refine ⟨c :: taken, after, depth', rfl, ?_, ?_⟩
        · have hlength := congrArg List.length (encode_append [c] taken)
          have hcount := @List.count_append _ _ '\n' [c] taken
          rw [List.length_append] at hlength
          rw [List.singleton_append] at hlength hcount
          rw [readComment_cons hopening hclosing, hread, hlength, hcount, Nat.add_assoc,
            Nat.add_assoc]
        · rw [afterComment_plain hopening hclosing]
          exact hafter

variable {lib : Library} {limit : Nat} {s : Place}

/-- A comment of a text is taken as a whole. -/
theorem blockComment_of_some (hle : s.current ≤ s.octets.length) (hlimit : s.left.length < limit)
    (hleft : s.left = encode (taken ++ after))
    (hcomment : afterComment 1 (taken ++ after) = some after) :
    blockComment lib limit s = .ok () (s.past taken) := by
  obtain ⟨taken', after', depth', heq, hread, ⟨rfl, hafter⟩ | ⟨-, -, hnone⟩⟩ :=
    exists_readComment_encode 1 s.current s.line (taken ++ after)
  · cases hcomment.symm.trans hafter
    obtain rfl := List.append_cancel_right heq
    have hdepth := commentDepth_eq lib hle hlimit 1
    rw [hleft, hread] at hdepth
    exact bind_of_ok hdepth
  · cases hcomment.symm.trans hnone

/-- A comment that a text leaves open is a fault on the line of its end. -/
theorem blockComment_of_none (hle : s.current ≤ s.octets.length) (hlimit : s.left.length < limit)
    (hleft : s.left = encode cs) (hcomment : afterComment 1 cs = none) :
    blockComment lib limit s =
      .error (.fault ⟨.unterminatedComment, (s.past cs).line⟩) (s.past cs) := by
  obtain ⟨taken, after, depth', rfl, hread, ⟨-, hsome⟩ | ⟨hdepth', rfl, -⟩⟩ :=
    exists_readComment_encode 1 s.current s.line cs
  · cases hcomment.symm.trans hsome
  · have hdepth := commentDepth_eq lib hle hlimit 1
    rw [hleft, hread] at hdepth
    rw [List.append_nil, blockComment, bind_of_ok hdepth, if_pos hdepth']
    rfl

end Characters

end Scanner

/-! ### Comments made from trees -/

/-- A text without slashes and stars. -/
structure PlainText where
  /-- Its characters. -/
  chars : List Char
  slash_notMem : '/' ∉ chars
  star_notMem : '*' ∉ chars

/-- What a comment contains. -/
inductive CommentTree
  /-- A text. -/
  | text (t : PlainText)
  /-- A text, then a comment with what it contains, then what comes after that comment. -/
  | comment (t : PlainText) (inner after : CommentTree)

namespace CommentTree

open Token

/-- What a comment contains, as a text. -/
def contents : CommentTree → List Char
  | text t => t.chars
  | comment t inner after =>
    t.chars ++ '/' :: '*' :: (inner.contents ++ '*' :: '/' :: after.contents)

/-- A comment from its opening to its closing. -/
def chars (tree : CommentTree) : List Char :=
  '/' :: '*' :: (tree.contents ++ ['*', '/'])

/-- A text without slashes and stars changes no depth. -/
theorem nested_append {cs rest : List Char} (hslash : '/' ∉ cs) (hstar : '*' ∉ cs)
    (h : Nested rest) : Nested (cs ++ rest) := by
  induction cs with
  | nil => exact h
  | cons c cs ih =>
    rw [List.mem_cons, not_or] at hslash hstar
    refine .plain (fun hp => hslash.1 ?_) (fun hp => hstar.1 ?_) (ih hslash.2 hstar.2)
    · exact (List.cons_prefix_cons.mp hp).1
    · exact (List.cons_prefix_cons.mp hp).1

/-- A comment made from a tree has the closing of each of its openings. -/
theorem nested (tree : CommentTree) : Nested (tree.contents ++ ['*', '/']) := by
  induction tree with
  | text t => exact nested_append t.slash_notMem t.star_notMem .closing
  | comment t inner after ihinner ihafter =>
    have hinner := Nested.inner ihinner ihafter
    rw [contents, List.append_assoc]
    exact nested_append t.slash_notMem t.star_notMem (by simpa using hinner)

/-- A comment of which the end is cut off is left open. -/
theorem afterComment_of_prefix {body cut : List Char} (h : Nested (body ++ cut)) (hcut : cut ≠ []) :
    afterComment 1 body = none := by
  by_contra hsome
  obtain ⟨rest, hsome⟩ := Option.ne_none_iff_exists'.mp hsome
  obtain ⟨inner, mid, rfl, hinner, -⟩ := exists_nested hsome
  have hwhole := afterComment_append h 0 []
  rw [List.append_nil, List.append_assoc, afterComment_append hinner] at hwhole
  simp only [afterComment, Option.some_inj, List.append_eq_nil_iff] at hwhole
  exact hcut hwhole.2

end CommentTree

end Treewalk
