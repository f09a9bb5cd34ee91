import Treewalk.Proofs.Syntax.Drafts.Program
import Treewalk.Proofs.Scope.Shape
import Treewalk.Value

/-!
# The shape of drafts

The drafts read from the tokens of a text mean the program that is read from them, whatever the tokens
are and also where faults are noted. At any depth their operators are those of their kinds of operations,
their names are names, and their superclasses are variables.

An operator with two operands can be applied by its token alone: any two values are compared for
equality, some are added, and for everything else both have to be numbers. Then the token is asked once
more, and it could turn out to be none of the operators. In a draft that is read it never does.

Every call and every declaration of a function or method that has been read to its end is noted to be
too long just once for each argument or parameter after the first `maxArguments` ones.

## Main definitions

* `Token.operate?`: operations by their tokens.
* `DraftProgram.Has`: the nodes of a program at any depth.
* `DraftProgram.Describes`: drafts from which evaluation can begin.

## Main results

* `Token.operate?_eq_some`: a token that spells an operator does what the operator does.
* `DraftProgram.describes_ofTokens`: what is read from the tokens of a text.
-/

namespace Treewalk

/-! ### Operations by their tokens -/

/-- The value of an operation, found from its token. There is none if the operands are numbers and the
token, after it has been compared with all operators, is none of them. -/
def Token.operate? (text : Value → String) (operator : Token) (v w : Value) :
    Option (Except RuntimeFault Value) :=
  match operator.kind with
  | .mark .equalEqual => some (.ok (.bool (v.equal w)))
  | .mark .bangEqual => some (.ok (.bool !(v.equal w)))
  | .mark .plus =>
    some <| match v, w with
      | .number x, .number y => .ok (.number (x + y))
      | .string s, w => .ok (.string (s ++ text w))
      | v, .string s => .ok (.string (text v ++ s))
      | _, _ => .error numbersOrStringRequired
  | kind =>
    match v, w with
    | .number x, .number y =>
      match kind with
      | .mark .minus => some (.ok (.number (x - y)))
      | .mark .star => some (.ok (.number (x * y)))
      | .mark .slash => some (if y == 0 then .error .divisionByZero else .ok (.number (x / y)))
      | .mark .greater => some (.ok (.bool (decide (y < x))))
      | .mark .greaterEqual => some (.ok (.bool (decide (y ≤ x))))
      | .mark .less => some (.ok (.bool (decide (x < y))))
      | .mark .lessEqual => some (.ok (.bool (decide (x ≤ y))))
      | _ => none
    | _, _ => some (.error numbersRequired)

theorem Token.exists_binaryOp? {t : Token} (h : ∃ m ∈ DraftNode.binaryMarks, t.is (.mark m)) :
    ∃ op, t.binaryOp? = some op := by
  obtain ⟨m, hm, ht⟩ := h
  obtain ⟨kind, lexeme, line⟩ := t
  cases kind with
  | mark m' =>
    obtain rfl : m' = m := by simpa [is, TokenKind.sameCategory] using ht
    refine Option.isSome_iff_exists.mp ?_
    change m'.binaryOp?.isSome
    exact (by decide : ∀ m ∈ DraftNode.binaryMarks, m.binaryOp?.isSome) m' hm
  | _ => cases ht

/-- A token that spells an operator does what the operator does. -/
theorem Token.operate?_eq_some {operator : Token} {op : BinaryOp} (h : operator.binaryOp? = some op)
    (text : Value → String) (v w : Value) :
    operator.operate? text v w = some (op.apply text v w) := by
  obtain ⟨kind, lexeme, line⟩ := operator
  cases kind with
  | mark m =>
    obtain rfl : m = op.mark := by
      rw [binaryOp?_eq_some, is_mark] at h
      exact Sign.mark.inj h
    cases op <;> cases v <;> cases w <;> rfl
  | _ => cases h

/-! ### Programs -/

namespace DraftProgram

/-- A node of a program, at any depth. -/
def Has (d : DraftProgram) (n : DraftNode) : Prop :=
  ∃ s ∈ d.body, (DraftNode.stmt s).Within n

/-- Drafts, read from tokens, that describe a program from which evaluation can begin. -/
structure Describes (d : DraftProgram) (tokens : List Token) (p : Program) : Prop where
  /-- The drafts mean the program. -/
  body : StmtDraft.stmts? d.body = some p.body
  /-- The faults noted are those of the program. -/
  errors : d.noted.map Noted.error = p.errors
  /-- As many node numbers were drawn. -/
  nextId : d.nextId = p.nextId
  /-- Every operator is one of its kind of operation, and every superclass is a variable. -/
  shape : ∀ n, d.Has n → n.HasShape
  /-- Every name is a name among the tokens. -/
  names : ∀ n, d.Has n → ∀ t ∈ n.names, t.is .identifier ∧ t ∈ tokens
  /-- In a program text no name is a reserved word. -/
  unreserved : ∀ source, tokens = Token.tokensOf (Token.scan source) →
    ∀ n, d.Has n → ∀ t ∈ n.names, ∀ k : Keyword, t.lexeme ≠ k.text
  /-- The token of every operation with two operands does what its operator does. -/
  operations : ∀ left operator right, d.Has (.expr (.binary left operator right)) →
    ∃ op : BinaryOp, operator.is (.mark op.mark) ∧
      ∀ text v w, operator.operate? text v w = some (op.apply text v w)
  /-- Every call and every declaration is listed. -/
  listed : ∀ n, d.Has n → n.list?.isSome → ∃ l ∈ d.listings, l.node = n
  /-- Every call and every declaration that was read to its end is noted to be too long just once for
  each argument or parameter that is too many. -/
  reported : ∀ l ∈ d.listings, l.IsReported d.noted
  /-- No two arguments or parameters share what is noted for them. -/
  distinct : (d.listings.flatMap Listing.starts).Nodup
  /-- If no list is noted to be too long, none is. -/
  short : (∀ e ∈ p.errors, e.fault.isTooMany = false) → ∀ n, d.Has n → ∀ fault size,
    n.list? = some (fault, size) → size ≤ maxArguments

end DraftProgram

/-- A list that is too long is noted somewhere. -/
theorem Listing.IsReported.length_le {noted : List Noted} {l : Listing} (h : l.IsReported noted)
    (hnoted : ∀ e ∈ noted, e.error.fault.isTooMany = false) : l.starts.length ≤ maxArguments := by
  obtain ⟨fault, -, hreported⟩ := h
  by_contra hlong
  have hnone (place : Nat) : faultsAt noted place = [] := by
    refine List.filter_eq_nil_iff.mpr fun fault hfault => ?_
    obtain ⟨e, he, rfl⟩ := List.mem_map.mp hfault
    simp [hnoted e (List.mem_of_mem_filter he)]
  have hplace : l.starts[maxArguments]? = some _ := List.getElem?_eq_getElem (Nat.lt_of_not_le hlong)
  have hreport := hreported maxArguments _ hplace
  rw [hnone, if_pos (by simp)] at hreport
  cases hreport

/-- A program that is drawn, on a trail in order. -/
theorem DraftProgram.Describes.of_draws {tokens : List Token} {d : DraftProgram} {p : Program}
    (hdraws : Draws (tokensBeforeEnd tokens) d.body p.body d.listings)
    (herrors : d.noted.map Noted.error = p.errors) (hnextId : d.nextId = p.nextId)
    (hreported : ∀ l ∈ d.listings, l.IsReported d.noted)
    (hdistinct : (d.listings.flatMap Listing.starts).Nodup) : d.Describes tokens p := by
  have hfits : ∀ n, d.Has n → n.Fits (tokensBeforeEnd tokens) d.listings := by
    rintro n ⟨s, hs, hn⟩
    exact hdraws.all_of_mem _ (List.mem_map_of_mem hs) n hn
  have hnames : ∀ n, d.Has n → ∀ t ∈ n.names, t.is .identifier ∧ t ∈ tokens := fun n hn t ht =>
    ⟨((hfits n hn).names t ht).1, List.takeWhile_subset _ ((hfits n hn).names t ht).2⟩
  refine ⟨hdraws.stmts?_eq_some, herrors, hnextId, fun n hn => (hfits n hn).shape, hnames, ?_, ?_,
    fun n hn => (hfits n hn).listed, hreported, hdistinct, ?_⟩
  · rintro source rfl n hn t ht k
    obtain ⟨hname, hmem⟩ := hnames n hn t ht
    have hsign : t.sign.IsFree := Token.isFree_scan source t hmem
    rw [Token.is_identifier.mp hname] at hsign
    have hfree : t.toName.IsFree := hsign
    exact hfree.ne_text k
  · intro left operator right hn
    obtain ⟨op, hop⟩ := Token.exists_binaryOp? (hfits _ hn).shape
    exact ⟨op, Token.binaryOp?_eq_some.mp hop, Token.operate?_eq_some hop⟩
  · intro hshort n hn fault size hlist
    obtain ⟨l, hl, rfl⟩ := (hfits n hn).listed (by simp [hlist])
    obtain ⟨fault', hlist', -⟩ := hreported l hl
    obtain ⟨-, rfl⟩ : fault = fault' ∧ size = l.starts.length := by
      simpa using hlist.symm.trans hlist'
    refine (hreported l hl).length_le fun e he => hshort _ ?_
    rw [← herrors]
    exact List.mem_map_of_mem he

/-- The drafts read from the tokens of a text describe the program that is read from them. -/
theorem DraftProgram.describes_ofTokens (nextId : Nat) (tokens : List Token) :
    (DraftProgram.ofTokens nextId tokens).Describes tokens (Program.ofTokens nextId tokens) := by
  let s : Trail := ⟨⟨tokensBeforeEnd tokens, [], nextId⟩, [], []⟩
  have hs : s.Sound (tokensBeforeEnd tokens) s.place :=
    ⟨List.suffix_refl _, rfl, fun _ _ => rfl, by simp [s], by simp [s], by simp [s]⟩
  let bound := 3 * (tokensBeforeEnd tokens).length + 3
  cases (StatementsMirror.all bound).items false [] s hs (List.nil_subset _) with
  | @answer body ss s' hx hy hsound _ hq =>
    rw [DraftProgram.ofTokens, Program.ofTokens]
    simp only [s, bound] at hx hy
    simp only [hx, hy]
    exact .of_draws hq hsound.errors rfl hsound.reported hsound.distinct
  | @failure e s' hx hy hsound _ hfault =>
    rw [DraftProgram.ofTokens, Program.ofTokens]
    simp only [s, bound] at hx hy
    simp only [hx, hy]
    have hsound' := hsound.noting hfault
    exact .of_draws .nil hsound'.errors rfl hsound'.reported hsound'.distinct

/-- A call with one argument too many, in a statement that is given up. -/
example :
    let name : Token := ⟨.identifier, "f", 1⟩
    let d := DraftProgram.ofTokens 0 ([name, ⟨.mark .leftParen, "(", 1⟩] ++
      (List.replicate 16 [name, ⟨.mark .comma, ",", 1⟩]).flatten ++
        [name, ⟨.mark .rightParen, ")", 1⟩, ⟨.endOfText, "", 1⟩])
    d.noted.map (fun e => (e.place, e.error.fault)) =
        [(2, .tooManyArguments), (0, .expressionEnd)] ∧
      d.listings.map (fun l => l.starts.length) = [17] := by
  cbv

end Treewalk
