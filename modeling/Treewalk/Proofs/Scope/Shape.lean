import Treewalk.Proofs.Syntax.Reading
import Treewalk.Token.Scan

/-!
# The shape of programs

What is read from a text has a shape that the trees do not impose by themselves: the parts of a
conditional statement and of a loop are no declarations, and no name that is declared or assigned to
is a reserved word.

## Main definitions

* `Name.IsFree`: a name that is not a reserved word.
* `Stmt.isDeclaration`, `Expr.Proper`, `Stmt.Proper`: declarations, and the shape.

## Main results

* `Token.isFree_scan`: the names of a text are not reserved words.
* `ReadsItems.proper`: the statements read from such names have the shape.
-/

namespace Treewalk

/-! ### Names that are not reserved -/

/-- A name that is not a reserved word. -/
def Name.IsFree (name : Name) : Prop :=
  Keyword.ofText? name.text = none

theorem Name.IsFree.ne_text {name : Name} (h : name.IsFree) (k : Keyword) : name.text ≠ k.text := by
  intro heq
  rw [IsFree, heq] at h
  cases k <;> exact absurd h (by decide)

/-- The names of sealed frames are reserved. -/
theorem Name.IsFree.unreserved {name : Name} (h : name.IsFree) :
    name.text ≠ "this" ∧ name.text ≠ "super" :=
  ⟨h.ne_text .thisWord, h.ne_text .superWord⟩

/-- A sign that is not a name with the spelling of a reserved word. -/
def Sign.IsFree : Sign → Prop
  | .name text => Keyword.ofText? text = none
  | _ => True

namespace Token

/-- Only words are names. -/
theorem pieceAt_eq_wordPiece {c : Char} {rest : List Char}
    (h : (pieceAt c rest).meaning = .token .identifier) : pieceAt c rest = wordPiece c rest := by
  unfold pieceAt at h ⊢
  split at h
  · cases h
  split at h
  · unfold slashPiece nestedComment at h
    split at h
    · cases h
    · split at h <;> cases h
    · cases h
  split at h
  · simp only [stringPiece] at h
    split at h <;> cases h
  split at h
  · simp only [numberPiece] at h
    split at h
    · split at h <;> cases h
    · cases h
  split at h
  · simp_all
  split at h
  · cases h
  · unfold markOrEqual at h
    split at h <;> cases h
  · cases h

/-- A name is a word that is not reserved. -/
theorem ofText?_pieceAt {c : Char} {rest : List Char}
    (h : (pieceAt c rest).meaning = .token .identifier) :
    Keyword.ofText? (String.ofList (pieceAt c rest).taken) = none := by
  have hword := pieceAt_eq_wordPiece h
  rw [hword] at h ⊢
  simp only [wordPiece] at h ⊢
  split at h
  · cases h
  · assumption

theorem isFree_scanFrom (line : Nat) (text : List Char) :
    ∀ t ∈ tokensOf (scanFrom line text), t.sign.IsFree := by
  fun_induction scanFrom line text with
  | case1 line =>
    intro t ht
    obtain rfl : t = ⟨.endOfText, "", line⟩ := by simpa [tokensOf] using ht
    trivial
  | case2 line c text piece line' hmeaning ih => exact ih
  | case3 line c text piece line' kind hmeaning ih =>
    intro t ht
    rcases List.mem_cons.mp ht with rfl | ht
    · cases kind with
      | identifier => exact ofText?_pieceAt hmeaning
      | _ => trivial
    · exact ih t ht
  | case4 line c text piece line' f hmeaning ih => exact ih

/-- The names of a text are not reserved words. -/
theorem isFree_scan (text : String) : ∀ t ∈ tokensOf (scan text), t.sign.IsFree :=
  isFree_scanFrom 1 text.toList

end Token

/-! ### The shape of expressions -/

mutual

/-- The shape of an expression. -/
def Expr.Proper : Expr → Prop
  | .literal _ | .variable _ _ | .this _ _ | .super _ _ _ => True
  | .grouping inner => inner.Proper
  | .unary _ _ operand => operand.Proper
  | .binary _ _ left right => left.Proper ∧ right.Proper
  | .logical _ _ left right => left.Proper ∧ right.Proper
  | .ternary condition whenTrue whenFalse =>
    condition.Proper ∧ whenTrue.Proper ∧ whenFalse.Proper
  | .assign _ name value => name.IsFree ∧ value.Proper
  | .call callee _ arguments => callee.Proper ∧ Expr.ProperAll arguments
  | .get object _ => object.Proper
  | .set object _ value => object.Proper ∧ value.Proper

/-- The shape of expressions. -/
def Expr.ProperAll : List Expr → Prop
  | [] => True
  | e :: es => e.Proper ∧ Expr.ProperAll es

end

@[simp] theorem Expr.properAll_iff {es : List Expr} :
    Expr.ProperAll es ↔ ∀ e ∈ es, e.Proper := by
  induction es with
  | nil => simp [Expr.ProperAll]
  | cons e es ih => simp [Expr.ProperAll, ih]

theorem mem_separated_of_mem {sign : Sign} {texts : List (List Sign)} {ts : List Sign}
    (hts : ts ∈ texts) (h : sign ∈ ts) : sign ∈ separated texts := by
  induction texts with
  | nil => cases hts
  | cons us rest ih =>
    cases rest with
    | nil =>
      obtain rfl := List.mem_singleton.mp hts
      simpa using h
    | cons vs rest =>
      rw [separated, List.intercalate_cons_cons, List.append_assoc]
      rcases List.mem_cons.mp hts with rfl | hts
      · exact List.mem_append_left _ h
      · exact List.mem_append_right _ (List.mem_append_right _ (ih hts))

/-- The name of a variable stands in its text. -/
theorem Expr.Reads.sign_mem {tier : Tier} {ts : List Sign} {id : Nat} {name : Name}
    (h : Expr.Reads tier ts (.variable id name)) : name.sign ∈ ts := by
  generalize he : Expr.variable id name = e at h
  induction h with
  | «variable» id' name' =>
    cases he
    exact List.mem_singleton_self _
  | ofPrimary _ ih | ofCall _ ih | ofOperand _ _ ih | ofEquality _ ih | ofOr _ ih => exact ih he
  | _ => cases he

/-- What is read from names that are not reserved has the shape. -/
theorem Expr.Reads.proper {tier : Tier} {ts : List Sign} {e : Expr} (h : Expr.Reads tier ts e)
    (hfree : ∀ sign ∈ ts, sign.IsFree) : e.Proper := by
  induction h with
  | literal | «variable» | this | super => trivial
  | ofPrimary _ ih | ofCall _ ih | ofOperand _ _ ih | ofEquality _ ih | ofOr _ ih => exact ih hfree
  | grouping _ ih => exact ih fun sign hsign => hfree sign (by simp [hsign])
  | unary op line _ ih => exact ih fun sign hsign => hfree sign (List.mem_cons_of_mem _ hsign)
  | get name _ ih => exact ih fun sign hsign => hfree sign (by simp [hsign])
  | binary op line _ _ _ ihl ihr | logical op line _ _ _ ihl ihr =>
    exact ⟨ihl fun sign hsign => hfree sign (by simp [hsign]),
      ihr fun sign hsign => hfree sign (by simp [hsign])⟩
  | ternary _ _ _ ihc iht ihf =>
    exact ⟨ihc fun sign hsign => hfree sign (by simp [hsign]),
      iht fun sign hsign => hfree sign (by simp [hsign]),
      ihf fun sign hsign => hfree sign (by simp [hsign])⟩
  | @call ts callee line arguments _ _ _ ihc iha =>
    refine ⟨ihc fun sign hsign => hfree sign (by simp [hsign]), ?_⟩
    rw [Expr.properAll_iff]
    intro e he
    obtain ⟨a, ha, rfl⟩ := List.mem_map.mp he
    refine iha a ha fun sign hsign => hfree sign ?_
    have hin : sign ∈ separated (arguments.map (·.1)) :=
      mem_separated_of_mem (List.mem_map_of_mem ha) hsign
    simp [hin]
  | assign id ht _ _ ihv =>
    exact ⟨hfree _ (List.mem_append_left _ ht.sign_mem),
      ihv fun sign hsign => hfree sign (by simp [hsign])⟩
  | set _ _ iht ihv =>
    exact ⟨iht fun sign hsign => hfree sign (by simp [hsign]),
      ihv fun sign hsign => hfree sign (by simp [hsign])⟩

theorem Expr.ReadsOptional.proper {ts : List Sign} {e : Option Expr} (h : Expr.ReadsOptional ts e)
    (hfree : ∀ sign ∈ ts, sign.IsFree) : ∀ e' ∈ e, e'.Proper := by
  cases h with
  | none => exact fun _ he => nomatch he
  | some h =>
    rintro _ ⟨⟩
    exact h.proper hfree

theorem Expr.ReadsInitializer.proper {ts : List Sign} {e : Option Expr}
    (h : Expr.ReadsInitializer ts e) (hfree : ∀ sign ∈ ts, sign.IsFree) : ∀ e' ∈ e, e'.Proper := by
  cases h with
  | none => exact fun _ he => nomatch he
  | some h =>
    rintro _ ⟨⟩
    exact h.proper fun sign hsign => hfree sign (List.mem_cons_of_mem _ hsign)

/-! ### The shape of statements -/

/-- Whether a statement is a declaration. -/
def Stmt.isDeclaration : Stmt → Bool
  | .variable _ _ | .function _ | .class _ _ _ => true
  | _ => false

mutual

/-- The shape of a statement. -/
def Stmt.Proper : Stmt → Prop
  | .expression e => e.Proper
  | .variable name initializer => name.IsFree ∧ ∀ e ∈ initializer, e.Proper
  | .block body => Stmt.ProperAll body
  | .ifThen condition thenBranch =>
    condition.Proper ∧ thenBranch.isDeclaration = false ∧ thenBranch.Proper
  | .ifElse condition thenBranch elseBranch =>
    condition.Proper ∧ (thenBranch.isDeclaration = false ∧ thenBranch.Proper) ∧
      elseBranch.isDeclaration = false ∧ elseBranch.Proper
  | .while condition body => condition.Proper ∧ body.isDeclaration = false ∧ body.Proper
  | .function decl => decl.Proper
  | .return _ value => ∀ e ∈ value, e.Proper
  | .class name _ methods => name.IsFree ∧ Stmt.ProperMethods methods

/-- The shape of statements. -/
def Stmt.ProperAll : List Stmt → Prop
  | [] => True
  | s :: ss => s.Proper ∧ Stmt.ProperAll ss

/-- The shape of a function. -/
def FunctionDecl.Proper : FunctionDecl → Prop
  | ⟨name, params, body⟩ => name.IsFree ∧ (∀ p ∈ params, p.IsFree) ∧ Stmt.ProperAll body

/-- The shape of methods. -/
def Stmt.ProperMethods : List FunctionDecl → Prop
  | [] => True
  | m :: ms => m.Proper ∧ Stmt.ProperMethods ms

end

@[simp] theorem Stmt.properAll_iff {ss : List Stmt} :
    Stmt.ProperAll ss ↔ ∀ s ∈ ss, s.Proper := by
  induction ss with
  | nil => simp [Stmt.ProperAll]
  | cons s ss ih => simp [Stmt.ProperAll, ih]

@[simp] theorem Stmt.properMethods_iff {ms : List FunctionDecl} :
    Stmt.ProperMethods ms ↔ ∀ m ∈ ms, m.Proper := by
  induction ms with
  | nil => simp [Stmt.ProperMethods]
  | cons m ms ih => simp [Stmt.ProperMethods, ih]

/-- What is read as a part of another statement is no declaration. -/
theorem Stmt.Reads.isDeclaration_eq_false {dangles : Bool} {ts : List Sign} {s : Stmt}
    (h : Stmt.Reads (.statement dangles) ts s) : s.isDeclaration = false := by
  cases h with
  | @loop _ _ _ _ initializer _ increment =>
    cases initializer <;> rfl
  | _ => rfl

theorem Stmt.ReadsClause.proper {ts : List Sign} {s : Stmt} (h : Stmt.ReadsClause ts (some s))
    (hfree : ∀ sign ∈ ts, sign.IsFree) : s.Proper := by
  cases h with
  | «variable» name h =>
    exact ⟨hfree name.sign (by simp), h.proper fun sign hsign => hfree sign (by simp [hsign])⟩
  | expression h => exact h.proper fun sign hsign => hfree sign (by simp [hsign])

theorem Stmt.proper_loopStmt {initializer : Option Stmt} {condition increment : Option Expr}
    {body : Stmt} (hi : ∀ s, initializer = some s → s.Proper) (hc : ∀ e ∈ condition, e.Proper)
    (hs : ∀ e ∈ increment, e.Proper) (hb : body.Proper) (hd : body.isDeclaration = false) :
    (loopStmt initializer condition increment body).Proper := by
  cases initializer <;> cases condition <;> cases increment <;>
    simp_all [loopStmt, Stmt.Proper, Stmt.isDeclaration, Expr.Proper]

theorem RoutineText.proper {f : RoutineText} (hfree : ∀ sign ∈ f.signs, sign.IsFree)
    (hb : ∀ p ∈ f.body, (∀ sign ∈ p.1, sign.IsFree) → p.2.Proper) : f.decl.Proper := by
  refine ⟨hfree f.name.sign (by simp [signs, routineSigns]), fun p hp => hfree p.sign ?_, ?_⟩
  · have hin : p.sign ∈ separated (f.params.map fun p => [p.sign]) :=
      mem_separated_of_mem (List.mem_map_of_mem hp) (List.mem_singleton_self _)
    simp [signs, routineSigns, hin]
  · rw [Stmt.properAll_iff]
    intro s hs
    obtain ⟨p, hp, rfl⟩ := List.mem_map.mp hs
    exact hb p hp fun sign hsign => hfree sign (RoutineText.mem_signs hp hsign)

/-- What is read from names that are not reserved has the shape. -/
theorem Stmt.Reads.proper {phrase : Phrase} {ts : List Sign} {s : Stmt}
    (h : Stmt.Reads phrase ts s) (hfree : ∀ sign ∈ ts, sign.IsFree) : s.Proper := by
  induction h with
  | ofStatement _ ih => exact ih hfree
  | «class» name superclass methods hn hb ih =>
    refine ⟨hfree name.sign (by simp [classSigns]), ?_⟩
    rw [Stmt.properMethods_iff]
    intro d hd
    obtain ⟨m, hm, rfl⟩ := List.mem_map.mp hd
    refine RoutineText.proper (fun sign hsign => hfree sign ?_) (ih m hm)
    have hin : sign ∈ (methods.map (·.signs)).flatten :=
      List.mem_flatten.mpr ⟨m.signs, List.mem_map_of_mem hm, hsign⟩
    simp [classSigns, hin]
  | function f hn hb ih =>
    exact RoutineText.proper (fun sign hsign => hfree sign (List.mem_cons_of_mem _ hsign)) ih
  | «variable» name h =>
    exact ⟨hfree name.sign (by simp), h.proper fun sign hsign => hfree sign (by simp [hsign])⟩
  | expression h => exact h.proper fun sign hsign => hfree sign (by simp [hsign])
  | loop hi hc hs hb ih =>
    refine Stmt.proper_loopStmt (fun s hs => ?_)
      (hc.proper fun sign hsign => hfree sign (by simp [hsign]))
      (hs.proper fun sign hsign => hfree sign (by simp [hsign]))
      (ih fun sign hsign => hfree sign (by simp [hsign])) hb.isDeclaration_eq_false
    subst hs
    exact hi.proper fun sign hsign => hfree sign (by simp [hsign])
  | ifThen hc ht ih =>
    exact ⟨hc.proper fun sign hsign => hfree sign (by simp [hsign]), ht.isDeclaration_eq_false,
      ih fun sign hsign => hfree sign (by simp [hsign])⟩
  | ifElse hc ht he iht ihe =>
    exact ⟨hc.proper fun sign hsign => hfree sign (by simp [hsign]),
      ⟨ht.isDeclaration_eq_false, iht fun sign hsign => hfree sign (by simp [hsign])⟩,
      he.isDeclaration_eq_false, ihe fun sign hsign => hfree sign (by simp [hsign])⟩
  | «while» hc hb ih =>
    exact ⟨hc.proper fun sign hsign => hfree sign (by simp [hsign]), hb.isDeclaration_eq_false,
      ih fun sign hsign => hfree sign (by simp [hsign])⟩
  | «return» line h => exact h.proper fun sign hsign => hfree sign (by simp [hsign])
  | block body hb ih =>
    change Stmt.ProperAll (body.map (·.2))
    rw [Stmt.properAll_iff]
    intro s hs
    obtain ⟨p, hp, rfl⟩ := List.mem_map.mp hs
    refine ih p hp fun sign hsign => hfree sign ?_
    have hin : sign ∈ (body.map (·.1)).flatten :=
      List.mem_flatten.mpr ⟨p.1, List.mem_map_of_mem hp, hsign⟩
    simp [hin]

/-- The statements of a text that reads from names that are not reserved have the shape. -/
theorem ReadsItems.proper {ts : List Sign} {ss : List Stmt} (h : ReadsItems ts ss)
    (hfree : ∀ sign ∈ ts, sign.IsFree) : ∀ s ∈ ss, s.Proper := by
  obtain ⟨body, rfl, rfl, hb⟩ := h
  intro s hs
  obtain ⟨p, hp, rfl⟩ := List.mem_map.mp hs
  exact (hb p hp).proper fun sign hsign =>
    hfree sign (List.mem_flatten.mpr ⟨p.1, List.mem_map_of_mem hp, hsign⟩)

end Treewalk
