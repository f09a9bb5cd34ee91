import Treewalk.Proofs.Syntax.Completeness.Program
import Treewalk.Proofs.Syntax.Soundness.Program

/-!
# Reading what was written

A program that was read without a fault can be written and read again. The trees are the same up to
lines and node numbers, so precedence, grouping and the place of every `else` are in the trees, and
nothing of the text is lost: without `for` loops, which are written as the loops that they stand
for, the signs that are written are those that were read.

## Main definitions

* `Program.write`: what a program is written as.

## Main results

* `Program.ofTokens_write`: reading, writing and reading again.
-/

namespace Treewalk

/-- What a program is written as, up to the end of its text. -/
def Program.write (program : Program) : List Sign :=
  Stmt.writeAll program.body ++ [.endOfText]

theorem ReadsItems.rereads {ts : List Sign} {ss : List Stmt} (h : ReadsItems ts ss) :
    ReadsItems (Stmt.writeAll ss) ss := by
  obtain ⟨body, rfl, rfl, hb⟩ := h
  rw [← Stmt.flatten_rewritten, ← Stmt.map_snd_rewritten]
  exact ⟨_, rfl, rfl, Stmt.reads_rewritten fun p hp => (hb p hp).rereads⟩

theorem ReadsItems.write_eq {ts : List Sign} {ss : List Stmt} (h : ReadsItems ts ss)
    (hfor : .keyword .forWord ∉ ts) : Stmt.writeAll ss = ts := by
  obtain ⟨body, rfl, rfl, hb⟩ := h
  exact Stmt.writeAll_eq_signs fun p hp => (hb p hp).write_eq fun hmem =>
    hfor (List.mem_flatten.mpr ⟨p.1, List.mem_map_of_mem hp, hmem⟩)

/-! ### The end of the text -/

theorem mem_separated {s : Sign} {texts : List (List Sign)} (h : s ∈ separated texts) :
    s = .mark .comma ∨ ∃ ts ∈ texts, s ∈ ts := by
  induction texts with
  | nil => cases h
  | cons ts rest ih =>
    cases rest with
    | nil => exact .inr ⟨ts, List.mem_singleton_self ts, by simpa using h⟩
    | cons us rest =>
      rw [separated, List.intercalate_cons_cons, List.append_assoc] at h
      rcases List.mem_append.mp h with h | h
      · exact .inr ⟨ts, List.mem_cons_self, h⟩
      rcases List.mem_cons.mp h with rfl | h
      · exact .inl rfl
      · rcases ih h with rfl | ⟨vs, hvs, h⟩
        · exact .inl rfl
        · exact .inr ⟨vs, List.mem_cons_of_mem _ hvs, h⟩

theorem Literal.sign_ne_endOfText (l : Literal) : .endOfText ≠ l.sign := by
  cases l with
  | bool b => cases b <;> nofun
  | _ => nofun

/-- The end of the text is no part of an expression. -/
theorem Expr.Reads.endOfText_notMem {tier : Tier} {ts : List Sign} {e : Expr}
    (h : Expr.Reads tier ts e) : .endOfText ∉ ts := by
  induction h with
  | literal l => simpa using l.sign_ne_endOfText
  | call line arguments _ _ _ ihc iha =>
    have hargs : .endOfText ∉ separated (arguments.map (·.1)) := fun hmem => by
      rcases mem_separated hmem with h | ⟨ts, hts, h⟩
      · cases h
      · obtain ⟨a, ha, rfl⟩ := List.mem_map.mp hts
        exact iha a ha h
    simp [ihc, hargs]
  | ofPrimary _ ih | ofCall _ ih | ofOperand _ _ ih | ofEquality _ ih | ofOr _ ih => exact ih
  | _ => simp_all [Name.sign, UnaryOp.sign, BinaryOp.sign, LogicalOp.sign]

theorem Expr.ReadsOptional.endOfText_notMem {ts : List Sign} {e : Option Expr}
    (h : Expr.ReadsOptional ts e) : .endOfText ∉ ts := by
  cases h with
  | none => simp
  | some h => exact h.endOfText_notMem

theorem Expr.ReadsInitializer.endOfText_notMem {ts : List Sign} {e : Option Expr}
    (h : Expr.ReadsInitializer ts e) : .endOfText ∉ ts := by
  cases h with
  | none => simp
  | some h => simpa using h.endOfText_notMem

theorem Stmt.ReadsClause.endOfText_notMem {ts : List Sign} {s : Option Stmt}
    (h : Stmt.ReadsClause ts s) : .endOfText ∉ ts := by
  cases h with
  | none => simp
  | «variable» name h => simp [h.endOfText_notMem, Name.sign]
  | expression h => simp [h.endOfText_notMem]

theorem endOfText_notMem_flatten {body : List (List Sign × Stmt)}
    (h : ∀ p ∈ body, .endOfText ∉ p.1) : .endOfText ∉ (body.map (·.1)).flatten := by
  intro hmem
  obtain ⟨ts, hts, hmem⟩ := List.mem_flatten.mp hmem
  obtain ⟨p, hp, rfl⟩ := List.mem_map.mp hts
  exact h p hp hmem

theorem RoutineText.endOfText_notMem {f : RoutineText} (h : ∀ p ∈ f.body, .endOfText ∉ p.1) :
    .endOfText ∉ f.signs := by
  have hparams : .endOfText ∉ separated (f.params.map fun p => [p.sign]) := fun hmem => by
    rcases mem_separated hmem with h | ⟨ts, hts, h⟩
    · cases h
    · obtain ⟨p, -, rfl⟩ := List.mem_map.mp hts
      simp [Name.sign] at h
  have hname : .endOfText ≠ f.name.sign := by simp [Name.sign]
  simp [signs, routineSigns, hparams, hname, endOfText_notMem_flatten h]

/-- The end of the text is no part of a statement. -/
theorem Stmt.Reads.endOfText_notMem {phrase : Phrase} {ts : List Sign} {s : Stmt}
    (h : Stmt.Reads phrase ts s) : .endOfText ∉ ts := by
  induction h with
  | ofStatement _ ih => exact ih
  | «class» name superclass methods hn hb ih =>
    have hmethods : .endOfText ∉ (methods.map (·.signs)).flatten := fun hmem => by
      obtain ⟨ts, hts, hmem⟩ := List.mem_flatten.mp hmem
      obtain ⟨m, hm, rfl⟩ := List.mem_map.mp hts
      exact RoutineText.endOfText_notMem (ih m hm) hmem
    cases superclass <;> simp [classSigns, Superclass.signs, hmethods, Name.sign]
  | function f hn hb ih => simp [RoutineText.endOfText_notMem ih]
  | «variable» name h => simp [h.endOfText_notMem, Name.sign]
  | expression h => simp [h.endOfText_notMem]
  | loop hi hc hs _ ih =>
    simp [hi.endOfText_notMem, hc.endOfText_notMem, hs.endOfText_notMem, ih]
  | ifThen hc _ ih => simp [hc.endOfText_notMem, ih]
  | ifElse hc _ _ iht ihe => simp [hc.endOfText_notMem, iht, ihe]
  | «while» hc _ ih => simp [hc.endOfText_notMem, ih]
  | «return» line h => simp [h.endOfText_notMem]
  | block body _ ih => simp [endOfText_notMem_flatten ih]

theorem ReadsItems.endOfText_notMem {ts : List Sign} {ss : List Stmt} (h : ReadsItems ts ss) :
    .endOfText ∉ ts := by
  obtain ⟨body, rfl, -, hb⟩ := h
  exact endOfText_notMem_flatten fun p hp => (hb p hp).endOfText_notMem

/-- The tokens before the end of a text whose signs have no end in them but the last one. -/
theorem map_sign_tokensBeforeEnd {tokens : List Token} {ts : List Sign}
    (h : tokens.map Token.sign = ts ++ [.endOfText]) (hts : .endOfText ∉ ts) :
    (tokensBeforeEnd tokens).map Token.sign = ts := by
  obtain ⟨us, vs, rfl, rfl, hvs⟩ := List.map_eq_append_iff.mp h
  obtain ⟨last, rfl, hlast⟩ := List.map_eq_singleton_iff.mp hvs
  have hus : ∀ t ∈ us, (!t.kind.isEnd) = true := fun t ht => by
    cases he : t.kind.isEnd with
    | false => rfl
    | true => exact absurd (List.mem_map_of_mem ht) (Token.isEnd_iff.mp he ▸ hts)
  rw [tokensBeforeEnd, List.takeWhile_append_of_pos hus]
  simp [Token.isEnd_iff.mpr hlast]

/-- A program that is read without a fault and written is read again without a fault, as the same
program up to lines and node numbers; and if there is no `for` in it, it is written as it was
read. -/
theorem Program.ofTokens_write {nextId : Nat} {tokens : List Token}
    (h : (Program.ofTokens nextId tokens).errors = []) :
    (∀ nextId' us, us.map Token.sign = (Program.ofTokens nextId tokens).write →
      (Program.ofTokens nextId' us).errors = [] ∧
        (Program.ofTokens nextId' us).body.map Stmt.bare =
          (Program.ofTokens nextId tokens).body.map Stmt.bare) ∧
    ((∀ t ∈ tokensBeforeEnd tokens, ¬ t.is (.keyword .forWord)) →
      (Program.ofTokens nextId tokens).write =
        (tokensBeforeEnd tokens).map Token.sign ++ [.endOfText]) := by
  have hread := Program.ofTokens_sound h
  refine ⟨fun nextId' us hus => ?_, fun hfor => ?_⟩
  · have hagain := hread.rereads
    rw [← map_sign_tokensBeforeEnd hus hagain.endOfText_notMem] at hagain
    exact Program.ofTokens_complete hagain nextId'
  · rw [Program.write, hread.write_eq fun hmem => ?_]
    obtain ⟨t, ht, hs⟩ := List.mem_map.mp hmem
    exact hfor t ht (Token.is_keyword.mpr hs)

/-- The signs of `if (a) if (b) -x + y; else f(x).m = nil;`. -/
def danglingElse : List Sign :=
  [.keyword .ifWord, .mark .leftParen, .name "a", .mark .rightParen, .keyword .ifWord,
    .mark .leftParen, .name "b", .mark .rightParen, .mark .minus, .name "x", .mark .plus,
    .name "y", .mark .semicolon, .keyword .elseWord, .name "f", .mark .leftParen, .name "x",
    .mark .rightParen, .mark .dot, .name "m", .mark .equal, .keyword .nilWord, .mark .semicolon]

/-- A choice without braces is written as it was read, and read again as the same choice. -/
theorem Program.ofTokens_write_danglingElse :
    let tokens := (danglingElse ++ [Sign.endOfText]).map Sign.token
    let program := Program.ofTokens 0 tokens
    program.errors = [] ∧ program.write = tokens.map Token.sign ∧
      (Program.ofTokens 7 tokens).body.map Stmt.bare = program.body.map Stmt.bare := by
  intro tokens program
  have herrors : program.errors = [] := List.isEmpty_iff.mp (by decide +kernel)
  obtain ⟨hagain, hwrite⟩ := Program.ofTokens_write herrors
  have hsigns : program.write = tokens.map Token.sign := hwrite (by decide +kernel)
  exact ⟨herrors, hsigns, (hagain 7 tokens hsigns.symm).2⟩

end Treewalk
