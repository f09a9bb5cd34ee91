import Treewalk.Proofs.Syntax.Sign

/-!
# Readings

Which signs read as which tree, said without a reader: an expression reads at a *tier*, from
assignments down to primary expressions, and a statement reads as an item of a list of statements or
as a part of another statement. A tree reads with any lines and node numbers.

A statement *dangles* if an `else` right after it would belong to it. The statement between a
condition and its `else` must not.

A tree can also be written: parentheses stand around groupings and where the syntax has them, and
nowhere else.

## Main definitions

* `Tier`, `Expr.Reads`: expressions.
* `Phrase`, `Stmt.Reads`, `ReadsItems`: statements, and statements one after the other.
* `Expr.write`, `Stmt.write`: the writer.

## Main results

* `Expr.Reads.write_eq`: an expression is written as it was read.
* `Stmt.Reads.rereads`: what a statement is written as reads as the statement.
* `Stmt.Reads.write_eq`: without `for`, it is what was read.
-/

namespace Treewalk

/-! ### Expressions -/

/-- The tiers of expressions, from the loosest to the tightest. -/
inductive Tier
  | assignment
  | level (l : Level)
  | ternary | unary | call | primary
  deriving DecidableEq

/-- Where the operands of a level of infix operators stand. -/
def Level.operand : Level → Tier
  | or => .level .and
  | and => .ternary
  | equality => .level .comparison
  | comparison => .level .sum
  | sum => .level .product
  | product => .unary

/-- The level of an operator. -/
def BinaryOp.level : BinaryOp → Level
  | equal | notEqual => .equality
  | greater | greaterEqual | less | lessEqual => .comparison
  | add | subtract => .sum
  | multiply | divide => .product

/-- The level of an operator. -/
def LogicalOp.level : LogicalOp → Level
  | and => .and
  | or => .or

/-- Texts with commas between them. -/
abbrev separated (texts : List (List Sign)) : List Sign :=
  [.mark .comma].intercalate texts

/-- Signs read as an expression at a tier. -/
inductive Expr.Reads : Tier → List Sign → Expr → Prop
  | literal (l : Literal) : Reads .primary [l.sign] (.literal l)
  | variable (id : Nat) (name : Name) : Reads .primary [name.sign] (.variable id name)
  | this (id line : Nat) : Reads .primary [.keyword .thisWord] (.this id line)
  | super (id line : Nat) (method : Name) :
    Reads .primary [.keyword .superWord, .mark .dot, method.sign] (.super id line method)
  | grouping {ts e} (he : Reads .assignment ts e) :
    Reads .primary (.mark .leftParen :: ts ++ [.mark .rightParen]) (.grouping e)
  | ofPrimary {ts e} (h : Reads .primary ts e) : Reads .call ts e
  | call {ts callee} (line : Nat) (arguments : List (List Sign × Expr))
      (hc : Reads .call ts callee) (ha : ∀ a ∈ arguments, Reads .assignment a.1 a.2)
      (hn : arguments.length ≤ maxArguments) :
    Reads .call (ts ++ .mark .leftParen :: separated (arguments.map (·.1)) ++ [.mark .rightParen])
      (.call callee line (arguments.map (·.2)))
  | get {ts object} (name : Name) (ho : Reads .call ts object) :
    Reads .call (ts ++ [.mark .dot, name.sign]) (.get object name)
  | ofCall {ts e} (h : Reads .call ts e) : Reads .unary ts e
  | unary {ts e} (op : UnaryOp) (line : Nat) (he : Reads .unary ts e) :
    Reads .unary (op.sign :: ts) (.unary op line e)
  | ofOperand {ts e} (l : Level) (h : Reads l.operand ts e) : Reads (.level l) ts e
  | binary {ts us left right l} (op : BinaryOp) (line : Nat) (hl : op.level = l)
      (h : Reads (.level l) ts left) (h' : Reads l.operand us right) :
    Reads (.level l) (ts ++ op.sign :: us) (.binary op line left right)
  | logical {ts us left right l} (op : LogicalOp) (line : Nat) (hl : op.level = l)
      (h : Reads (.level l) ts left) (h' : Reads l.operand us right) :
    Reads (.level l) (ts ++ op.sign :: us) (.logical op line left right)
  | ofEquality {ts e} (h : Reads (.level .equality) ts e) : Reads .ternary ts e
  | ternary {ts us vs condition whenTrue whenFalse} (hc : Reads (.level .equality) ts condition)
      (ht : Reads (.level .equality) us whenTrue) (hf : Reads .ternary vs whenFalse) :
    Reads .ternary (ts ++ .mark .question :: us ++ .mark .colon :: vs)
      (.ternary condition whenTrue whenFalse)
  | ofOr {ts e} (h : Reads (.level .or) ts e) : Reads .assignment ts e
  | assign {ts us target name value} (id : Nat)
      (ht : Reads (.level .or) ts (.variable target name)) (hv : Reads .assignment us value) :
    Reads .assignment (ts ++ .mark .equal :: us) (.assign id name value)
  | set {ts us object name value} (ht : Reads (.level .or) ts (.get object name))
      (hv : Reads .assignment us value) :
    Reads .assignment (ts ++ .mark .equal :: us) (.set object name value)

/-- Signs read as an expression that may be absent. -/
inductive Expr.ReadsOptional : List Sign → Option Expr → Prop
  | none : ReadsOptional [] none
  | some {ts e} (h : Expr.Reads .assignment ts e) : ReadsOptional ts (some e)

/-- Signs read as the initializer of a variable, which may be absent. -/
inductive Expr.ReadsInitializer : List Sign → Option Expr → Prop
  | none : ReadsInitializer [] none
  | some {ts e} (h : Expr.Reads .assignment ts e) :
    ReadsInitializer (.mark .equal :: ts) (some e)

/-! ### Statements -/

/-- What a statement is read as. -/
inductive Phrase
  /-- An item of a list of statements, which may be a declaration. -/
  | item
  /-- A part of another statement. The flag says whether it dangles. -/
  | statement (dangles : Bool)

/-- A function or method declaration with the signs of each statement of its body. -/
structure RoutineText where
  /-- The name of the function. -/
  name : Name
  /-- The names of its parameters. -/
  params : List Name
  /-- The statements of its body, each with its signs. -/
  body : List (List Sign × Stmt)

/-- The declaration that was read. -/
def RoutineText.decl (f : RoutineText) : FunctionDecl :=
  ⟨f.name, f.params, f.body.map (·.2)⟩

/-- What a function or method with a body of some signs looks like from its name on. -/
def routineSigns (name : Name) (params : List Name) (body : List Sign) : List Sign :=
  name.sign :: .mark .leftParen :: separated (params.map fun p => [p.sign]) ++
    .mark .rightParen :: .mark .leftBrace :: body ++ [.mark .rightBrace]

/-- The signs from the name on. -/
def RoutineText.signs (f : RoutineText) : List Sign :=
  routineSigns f.name f.params (f.body.map (·.1)).flatten

/-- What the superclass of a class declaration looks like. -/
def Superclass.signs (s : Option Superclass) : List Sign :=
  s.elim [] fun s => [.mark .less, s.name.sign]

/-- What a class declaration with methods of some signs looks like. -/
def classSigns (name : Name) (superclass : Option Superclass) (methods : List Sign) : List Sign :=
  .keyword .classWord :: name.sign :: Superclass.signs superclass ++
    .mark .leftBrace :: methods ++ [.mark .rightBrace]

/-- Signs read as the first clause of a loop with its semicolon. -/
inductive Stmt.ReadsClause : List Sign → Option Stmt → Prop
  | none : ReadsClause [.mark .semicolon] none
  | variable {ts e} (name : Name) (h : Expr.ReadsInitializer ts e) :
    ReadsClause (.keyword .varWord :: name.sign :: ts ++ [.mark .semicolon])
      (some (.variable name e))
  | expression {ts e} (h : Expr.Reads .assignment ts e) :
    ReadsClause (ts ++ [.mark .semicolon]) (some (.expression e))

/-- Signs read as a statement. -/
inductive Stmt.Reads : Phrase → List Sign → Stmt → Prop
  | ofStatement {dangles ts s} (h : Reads (.statement dangles) ts s) : Reads .item ts s
  | «class» (name : Name) (superclass : Option Superclass) (methods : List RoutineText)
      (hn : ∀ m ∈ methods, m.params.length ≤ maxArguments)
      (hb : ∀ m ∈ methods, ∀ p ∈ m.body, Reads .item p.1 p.2) :
    Reads .item (classSigns name superclass (methods.map (·.signs)).flatten)
      (.class name superclass (methods.map (·.decl)))
  | function (f : RoutineText) (hn : f.params.length ≤ maxArguments)
      (hb : ∀ p ∈ f.body, Reads .item p.1 p.2) :
    Reads .item (.keyword .funWord :: f.signs) (.function f.decl)
  | variable {ts e} (name : Name) (h : Expr.ReadsInitializer ts e) :
    Reads .item (.keyword .varWord :: name.sign :: ts ++ [.mark .semicolon]) (.variable name e)
  | expression {ts e} (h : Expr.Reads .assignment ts e) :
    Reads (.statement false) (ts ++ [.mark .semicolon]) (.expression e)
  | loop {ts us vs ws initializer condition increment body dangles}
      (hi : Stmt.ReadsClause ts initializer) (hc : Expr.ReadsOptional us condition)
      (hs : Expr.ReadsOptional vs increment) (hb : Reads (.statement dangles) ws body) :
    Reads (.statement dangles)
      (.keyword .forWord :: .mark .leftParen :: ts ++ us ++ .mark .semicolon :: vs ++
        .mark .rightParen :: ws)
      (loopStmt initializer condition increment body)
  | ifThen {ts us condition thenBranch dangles} (hc : Expr.Reads .assignment ts condition)
      (ht : Reads (.statement dangles) us thenBranch) :
    Reads (.statement true)
      (.keyword .ifWord :: .mark .leftParen :: ts ++ .mark .rightParen :: us)
      (.ifThen condition thenBranch)
  | ifElse {ts us vs condition thenBranch elseBranch dangles}
      (hc : Expr.Reads .assignment ts condition) (ht : Reads (.statement false) us thenBranch)
      (he : Reads (.statement dangles) vs elseBranch) :
    Reads (.statement dangles)
      (.keyword .ifWord :: .mark .leftParen :: ts ++ .mark .rightParen :: us ++
        .keyword .elseWord :: vs)
      (.ifElse condition thenBranch elseBranch)
  | while {ts us condition body dangles} (hc : Expr.Reads .assignment ts condition)
      (hb : Reads (.statement dangles) us body) :
    Reads (.statement dangles)
      (.keyword .whileWord :: .mark .leftParen :: ts ++ .mark .rightParen :: us)
      (.while condition body)
  | return {ts value} (line : Nat) (h : Expr.ReadsOptional ts value) :
    Reads (.statement false) (.keyword .returnWord :: ts ++ [.mark .semicolon])
      (.return line value)
  | block (body : List (List Sign × Stmt)) (hb : ∀ p ∈ body, Reads .item p.1 p.2) :
    Reads (.statement false)
      (.mark .leftBrace :: (body.map (·.1)).flatten ++ [.mark .rightBrace])
      (.block (body.map (·.2)))

theorem Stmt.Reads.ne_nil {phrase : Phrase} {ts : List Sign} {s : Stmt}
    (h : Stmt.Reads phrase ts s) : ts ≠ [] := by
  induction h with
  | ofStatement _ ih => exact ih
  | _ => simp [classSigns]

/-- Items that stand one after the other. -/
def ReadsItems (ts : List Sign) (ss : List Stmt) : Prop :=
  ∃ body : List (List Sign × Stmt), ts = (body.map (·.1)).flatten ∧ ss = body.map (·.2) ∧
    ∀ p ∈ body, Stmt.Reads .item p.1 p.2

theorem ReadsItems.nil : ReadsItems [] [] :=
  ⟨[], rfl, rfl, by simp⟩

theorem ReadsItems.cons {ts us : List Sign} {s : Stmt} {ss : List Stmt}
    (h : Stmt.Reads .item ts s) (hs : ReadsItems us ss) : ReadsItems (ts ++ us) (s :: ss) := by
  obtain ⟨body, rfl, rfl, hb⟩ := hs
  exact ⟨(ts, s) :: body, rfl, rfl, List.forall_mem_cons.mpr ⟨h, hb⟩⟩

/-- A function or method from its name on. -/
def ReadsRoutine (ts : List Sign) (d : FunctionDecl) : Prop :=
  ∃ f : RoutineText, ts = f.signs ∧ d = f.decl ∧ f.params.length ≤ maxArguments ∧
    ∀ p ∈ f.body, Stmt.Reads .item p.1 p.2

/-- Methods that stand one after the other. -/
def ReadsMethods (ts : List Sign) (ds : List FunctionDecl) : Prop :=
  ∃ methods : List RoutineText, ts = (methods.map (·.signs)).flatten ∧
    ds = methods.map (·.decl) ∧ (∀ m ∈ methods, m.params.length ≤ maxArguments) ∧
      ∀ m ∈ methods, ∀ p ∈ m.body, Stmt.Reads .item p.1 p.2

theorem ReadsMethods.nil : ReadsMethods [] [] :=
  ⟨[], rfl, rfl, by simp, by simp⟩

theorem ReadsMethods.cons {ts us : List Sign} {d : FunctionDecl} {ds : List FunctionDecl}
    (h : ReadsRoutine ts d) (hs : ReadsMethods us ds) : ReadsMethods (ts ++ us) (d :: ds) := by
  obtain ⟨f, rfl, rfl, hn, hb⟩ := h
  obtain ⟨methods, rfl, rfl, hns, hbs⟩ := hs
  exact ⟨f :: methods, rfl, rfl, List.forall_mem_cons.mpr ⟨hn, hns⟩,
    List.forall_mem_cons.mpr ⟨hb, hbs⟩⟩

/-! ### Writing -/

mutual

/-- What an expression is written as. -/
def Expr.write : Expr → List Sign
  | .literal l => [l.sign]
  | .grouping inner => .mark .leftParen :: inner.write ++ [.mark .rightParen]
  | .unary op _ operand => op.sign :: operand.write
  | .binary op _ left right => left.write ++ op.sign :: right.write
  | .logical op _ left right => left.write ++ op.sign :: right.write
  | .ternary condition whenTrue whenFalse =>
    condition.write ++ .mark .question :: whenTrue.write ++ .mark .colon :: whenFalse.write
  | .variable _ name => [name.sign]
  | .assign _ name value => name.sign :: .mark .equal :: value.write
  | .call callee _ arguments =>
    callee.write ++ .mark .leftParen :: separated (Expr.writeEach arguments) ++
      [.mark .rightParen]
  | .get object name => object.write ++ [.mark .dot, name.sign]
  | .set object name value =>
    object.write ++ .mark .dot :: name.sign :: .mark .equal :: value.write
  | .this _ _ => [.keyword .thisWord]
  | .super _ _ method => [.keyword .superWord, .mark .dot, method.sign]

/-- What expressions are written as, each by itself. -/
def Expr.writeEach : List Expr → List (List Sign)
  | [] => []
  | e :: es => e.write :: Expr.writeEach es

end

/-- What an expression that may be absent is written as. -/
def Expr.writeOptional (e : Option Expr) : List Sign :=
  e.elim [] Expr.write

/-- What the initializer of a variable is written as. -/
def Expr.writeInitializer (e : Option Expr) : List Sign :=
  e.elim [] fun e => .mark .equal :: e.write

mutual

/-- What a statement is written as. -/
def Stmt.write : Stmt → List Sign
  | .expression e => e.write ++ [.mark .semicolon]
  | .variable name initializer =>
    .keyword .varWord :: name.sign :: Expr.writeInitializer initializer ++ [.mark .semicolon]
  | .block body => .mark .leftBrace :: Stmt.writeAll body ++ [.mark .rightBrace]
  | .ifThen condition thenBranch =>
    .keyword .ifWord :: .mark .leftParen :: condition.write ++ .mark .rightParen ::
      thenBranch.write
  | .ifElse condition thenBranch elseBranch =>
    .keyword .ifWord :: .mark .leftParen :: condition.write ++ .mark .rightParen ::
      thenBranch.write ++ .keyword .elseWord :: elseBranch.write
  | .while condition body =>
    .keyword .whileWord :: .mark .leftParen :: condition.write ++ .mark .rightParen :: body.write
  | .function decl => .keyword .funWord :: decl.write
  | .return _ value => .keyword .returnWord :: Expr.writeOptional value ++ [.mark .semicolon]
  | .class name superclass methods => classSigns name superclass (Stmt.writeMethods methods)

/-- What statements are written as, one after the other. -/
def Stmt.writeAll : List Stmt → List Sign
  | [] => []
  | s :: ss => s.write ++ Stmt.writeAll ss

/-- What a function is written as, from its name on. -/
def FunctionDecl.write : FunctionDecl → List Sign
  | ⟨name, params, body⟩ => routineSigns name params (Stmt.writeAll body)

/-- What methods are written as, one after the other. -/
def Stmt.writeMethods : List FunctionDecl → List Sign
  | [] => []
  | m :: ms => m.write ++ Stmt.writeMethods ms

end

@[simp] theorem Expr.writeEach_eq_map (es : List Expr) :
    Expr.writeEach es = es.map Expr.write := by
  induction es with
  | nil => rfl
  | cons e es ih => rw [Expr.writeEach, ih, List.map_cons]

/-- What reads as a call reads as a disjunction. -/
theorem Expr.Reads.or_of_call {ts : List Sign} {e : Expr} (h : Expr.Reads .call ts e) :
    Expr.Reads (.level .or) ts e :=
  have equality : Expr.Reads (.level .equality) ts e :=
    .ofOperand .equality <| .ofOperand .comparison <| .ofOperand .sum <| .ofOperand .product h.ofCall
  .ofOperand .or <| .ofOperand .and equality.ofEquality

/-- An expression is written as it was read. -/
theorem Expr.Reads.write_eq {tier : Tier} {ts : List Sign} {e : Expr} (h : Expr.Reads tier ts e) :
    e.write = ts := by
  induction h with
  | literal | «variable» | this | super => rfl
  | grouping _ ih => rw [Expr.write, ih]
  | call line arguments hc ha hn ihc iha =>
    have hargs : (arguments.map (·.2)).map Expr.write = arguments.map (·.1) := by
      rw [List.map_map]
      exact List.map_congr_left fun a ha => iha a ha
    rw [Expr.write, ihc, Expr.writeEach_eq_map, hargs]
  | get name _ ih => rw [Expr.write, ih]
  | unary op line _ ih => rw [Expr.write, ih]
  | binary op line hl _ _ ih ih' => rw [Expr.write, ih, ih']
  | logical op line hl _ _ ih ih' => rw [Expr.write, ih, ih']
  | ternary _ _ _ ihc iht ihf => rw [Expr.write, ihc, iht, ihf, List.append_assoc, List.cons_append]
  | assign id _ _ iht ihv => rw [Expr.write, ihv, ← iht]; rfl
  | set _ _ iht ihv =>
    rw [Expr.write, ihv, ← iht, Expr.write, List.append_assoc]
    rfl
  | ofPrimary _ ih | ofCall _ ih | ofOperand _ _ ih | ofEquality _ ih | ofOr _ ih => exact ih

theorem Expr.ReadsOptional.write_eq {ts : List Sign} {e : Option Expr}
    (h : Expr.ReadsOptional ts e) : Expr.writeOptional e = ts := by
  cases h with
  | none => rfl
  | some h => exact h.write_eq

theorem Expr.ReadsInitializer.write_eq {ts : List Sign} {e : Option Expr}
    (h : Expr.ReadsInitializer ts e) : Expr.writeInitializer e = ts := by
  cases h with
  | none => rfl
  | some h => exact congrArg (Sign.mark .equal :: ·) h.write_eq

/-! ### What is written reads again

A loop with clauses is written as the blocks that it stands for, so only a text without `for` is
written as it was read. A block does not dangle, but the body of the loop may, so the written text
dangles at most as the text did. -/

/-- A statement reads from what it is written as, and dangles at most as a given phrase. -/
def Stmt.Rereads (s : Stmt) : Phrase → Prop
  | .item => Stmt.Reads .item s.write s
  | .statement dangles => ∃ d, (d = true → dangles = true) ∧ Stmt.Reads (.statement d) s.write s

theorem Stmt.Rereads.item {s : Stmt} {phrase : Phrase} (h : s.Rereads phrase) :
    Stmt.Reads .item s.write s := by
  cases phrase with
  | item => exact h
  | statement dangles =>
    obtain ⟨d, -, h⟩ := h
    exact h.ofStatement

/-- Statements that are each written again. -/
theorem Stmt.writeAll_eq_flatten (ss : List Stmt) :
    Stmt.writeAll ss = (ss.map Stmt.write).flatten := by
  induction ss with
  | nil => rfl
  | cons s ss ih => rw [Stmt.writeAll, ih, List.map_cons, List.flatten_cons]

theorem Stmt.writeMethods_eq_flatten (ms : List FunctionDecl) :
    Stmt.writeMethods ms = (ms.map FunctionDecl.write).flatten := by
  induction ms with
  | nil => rfl
  | cons m ms ih => rw [Stmt.writeMethods, ih, List.map_cons, List.flatten_cons]

/-- Statements with what they are written as. -/
def Stmt.rewritten (body : List (List Sign × Stmt)) : List (List Sign × Stmt) :=
  body.map fun p => (p.2.write, p.2)

theorem Stmt.map_snd_rewritten (body : List (List Sign × Stmt)) :
    (Stmt.rewritten body).map (·.2) = body.map (·.2) := by
  simp [Stmt.rewritten]

theorem Stmt.flatten_rewritten (body : List (List Sign × Stmt)) :
    ((Stmt.rewritten body).map (·.1)).flatten = Stmt.writeAll (body.map (·.2)) := by
  rw [Stmt.writeAll_eq_flatten, Stmt.rewritten, List.map_map, List.map_map]
  rfl

theorem Stmt.reads_rewritten {body : List (List Sign × Stmt)}
    (h : ∀ p ∈ body, Stmt.Reads .item p.2.write p.2) :
    ∀ p ∈ Stmt.rewritten body, Stmt.Reads .item p.1 p.2 := by
  intro p hp
  obtain ⟨q, hq, rfl⟩ := List.mem_map.mp hp
  exact h q hq

/-- A function with what its statements are written as. -/
def RoutineText.rewritten (f : RoutineText) : RoutineText :=
  ⟨f.name, f.params, Stmt.rewritten f.body⟩

theorem RoutineText.decl_rewritten (f : RoutineText) : f.rewritten.decl = f.decl := by
  rw [rewritten, decl, Stmt.map_snd_rewritten, decl]

theorem RoutineText.signs_rewritten (f : RoutineText) : f.rewritten.signs = f.decl.write := by
  rw [rewritten, signs, Stmt.flatten_rewritten, decl, FunctionDecl.write]

theorem Stmt.reads_block {ss : List Stmt} (h : ∀ s ∈ ss, Stmt.Reads .item s.write s) :
    Stmt.Reads (.statement false) (Stmt.block ss).write (.block ss) := by
  have hb := Stmt.Reads.block (ss.map fun s => (s.write, s)) fun p hp => by
    obtain ⟨s, hs, rfl⟩ := List.mem_map.mp hp
    exact h s hs
  have hm : (ss.map fun s => (s.write, s)).map (·.2) = ss := by simp [Function.comp_def]
  have hw : ((ss.map fun s => (s.write, s)).map (·.1)).flatten = Stmt.writeAll ss := by
    rw [Stmt.writeAll_eq_flatten, List.map_map]
    rfl
  rwa [hm, hw] at hb

theorem Stmt.ReadsClause.reads {ts : List Sign} {s : Stmt} (h : Stmt.ReadsClause ts (some s)) :
    Stmt.Reads .item s.write s := by
  cases h with
  | «variable» name h =>
    rw [Stmt.write, h.write_eq]
    exact .variable name h
  | expression h =>
    rw [Stmt.write, h.write_eq]
    exact (Stmt.Reads.expression h).ofStatement

theorem Stmt.eq_or_eq_of_mem {s a b : Stmt} (h : s ∈ [a, b]) : s = a ∨ s = b := by
  simpa using h

/-- A loop with clauses reads from the blocks that it is written as. -/
theorem Stmt.rereads_loop {ts us vs : List Sign} {initializer : Option Stmt}
    {condition increment : Option Expr} {body : Stmt} {dangles : Bool}
    (hi : Stmt.ReadsClause ts initializer) (hc : Expr.ReadsOptional us condition)
    (hs : Expr.ReadsOptional vs increment) (hb : body.Rereads (.statement dangles)) :
    (loopStmt initializer condition increment body).Rereads (.statement dangles) := by
  have hcond : Expr.Reads .assignment (condition.getD (.literal (.bool true))).write
      (condition.getD (.literal (.bool true))) := by
    cases hc with
    | none => exact (Expr.Reads.literal (.bool true)).ofPrimary.or_of_call.ofOr
    | some h => rwa [Option.getD_some, h.write_eq]
  have hplain {body : Stmt} (hb : body.Rereads (.statement dangles)) :
      (loopStmt initializer condition none body).Rereads (.statement dangles) := by
    obtain ⟨d, hd, hbody⟩ := hb
    have hloop := Stmt.Reads.while hcond hbody
    cases initializer with
    | none => exact ⟨d, hd, hloop⟩
    | some s =>
      refine ⟨false, by simp, Stmt.reads_block fun s' hm => ?_⟩
      rcases Stmt.eq_or_eq_of_mem hm with rfl | rfl
      · exact hi.reads
      · exact hloop.ofStatement
  cases hs with
  | none => exact hplain hb
  | @some _ e h =>
    -- The third clause is the last statement of the body.
    have hbody : (Stmt.block [body, .expression e]).Rereads (.statement dangles) := by
      refine ⟨false, by simp, Stmt.reads_block fun s hm => ?_⟩
      rcases Stmt.eq_or_eq_of_mem hm with rfl | rfl
      · exact hb.item
      · rw [Stmt.write, h.write_eq]
        exact (Stmt.Reads.expression h).ofStatement
    exact hplain hbody

/-- Every statement reads from what it is written as. -/
theorem Stmt.Reads.rereads {phrase : Phrase} {ts : List Sign} {s : Stmt}
    (h : Stmt.Reads phrase ts s) : s.Rereads phrase := by
  induction h with
  | ofStatement _ ih => exact ih.item
  | «class» name superclass methods hn hb ih =>
    have hw := Stmt.Reads.class name superclass (methods.map RoutineText.rewritten)
      (fun m hm => by
        obtain ⟨f, hf, rfl⟩ := List.mem_map.mp hm
        exact hn f hf)
      (fun m hm => by
        obtain ⟨f, hf, rfl⟩ := List.mem_map.mp hm
        exact Stmt.reads_rewritten (ih f hf))
    simp only [List.map_map, Function.comp_def, RoutineText.decl_rewritten,
      RoutineText.signs_rewritten] at hw
    change Stmt.Reads .item (Stmt.class name superclass (methods.map (·.decl))).write _
    rwa [Stmt.write, Stmt.writeMethods_eq_flatten, List.map_map]
  | function f hn hb ih =>
    have hw := Stmt.Reads.function f.rewritten hn (Stmt.reads_rewritten ih)
    rwa [RoutineText.decl_rewritten, RoutineText.signs_rewritten] at hw
  | «variable» name h =>
    change Stmt.Reads .item (Stmt.variable name _).write _
    rw [Stmt.write, h.write_eq]
    exact .variable name h
  | expression h =>
    refine ⟨false, id, ?_⟩
    rw [Stmt.write, h.write_eq]
    exact .expression h
  | loop hi hc hs hb ih => exact Stmt.rereads_loop hi hc hs ih
  | ifThen hc ht ih =>
    obtain ⟨d, -, ht⟩ := ih
    refine ⟨true, id, ?_⟩
    rw [Stmt.write, hc.write_eq]
    exact .ifThen hc ht
  | ifElse hc ht he iht ihe =>
    obtain ⟨d, hd, ht⟩ := iht
    obtain ⟨d', hd', he⟩ := ihe
    have hclosed : d = false := by
      cases d with
      | false => rfl
      | true => exact absurd (hd rfl) Bool.false_ne_true
    subst hclosed
    refine ⟨d', hd', ?_⟩
    rw [Stmt.write, hc.write_eq]
    simpa using Stmt.Reads.ifElse hc ht he
  | «while» hc hb ih =>
    obtain ⟨d, hd, hb⟩ := ih
    refine ⟨d, hd, ?_⟩
    rw [Stmt.write, hc.write_eq]
    exact .while hc hb
  | «return» line h =>
    refine ⟨false, id, ?_⟩
    rw [Stmt.write, h.write_eq]
    exact .return line h
  | block body hb ih =>
    refine ⟨false, id, Stmt.reads_block fun s hs => ?_⟩
    obtain ⟨p, hp, rfl⟩ := List.mem_map.mp hs
    exact ih p hp

/-! ### What is written as it was read -/

theorem Stmt.writeAll_eq_signs {body : List (List Sign × Stmt)}
    (h : ∀ p ∈ body, p.2.write = p.1) :
    Stmt.writeAll (body.map (·.2)) = (body.map (·.1)).flatten := by
  rw [Stmt.writeAll_eq_flatten, List.map_map]
  exact congrArg List.flatten (List.map_congr_left h)

theorem RoutineText.write_decl {f : RoutineText} (h : ∀ p ∈ f.body, p.2.write = p.1) :
    f.decl.write = f.signs := by
  rw [decl, FunctionDecl.write, Stmt.writeAll_eq_signs h, signs]

theorem RoutineText.mem_signs {f : RoutineText} {p : List Sign × Stmt} {sign : Sign}
    (hp : p ∈ f.body) (h : sign ∈ p.1) : sign ∈ f.signs := by
  have hin : sign ∈ (f.body.map (·.1)).flatten :=
    List.mem_flatten.mpr ⟨p.1, List.mem_map_of_mem hp, h⟩
  simp [signs, routineSigns, hin]

/-- A statement is written as it was read, unless it has a `for` loop in it. -/
theorem Stmt.Reads.write_eq {phrase : Phrase} {ts : List Sign} {s : Stmt}
    (h : Stmt.Reads phrase ts s) (hfor : .keyword .forWord ∉ ts) : s.write = ts := by
  induction h with
  | ofStatement _ ih => exact ih hfor
  | «class» name superclass methods hn hb ih =>
    have hm : ∀ m ∈ methods, m.decl.write = m.signs := fun m hm => by
      refine RoutineText.write_decl fun p hp => ih m hm p hp fun hmem => hfor ?_
      have hin : Sign.keyword .forWord ∈ (methods.map (·.signs)).flatten :=
        List.mem_flatten.mpr ⟨m.signs, List.mem_map_of_mem hm, RoutineText.mem_signs hp hmem⟩
      simp [classSigns, hin]
    rw [Stmt.write, Stmt.writeMethods_eq_flatten, List.map_map]
    exact congrArg (classSigns name superclass ·.flatten) (List.map_congr_left hm)
  | function f hn hb ih =>
    rw [Stmt.write, RoutineText.write_decl fun p hp => ih p hp fun hmem =>
      hfor (List.mem_cons_of_mem _ (RoutineText.mem_signs hp hmem))]
  | «variable» name h => rw [Stmt.write, h.write_eq]
  | expression h => rw [Stmt.write, h.write_eq]
  | loop => exact absurd (by simp) hfor
  | ifThen hc _ ih =>
    rw [Stmt.write, hc.write_eq, ih fun hmem => hfor (by simp [hmem])]
  | ifElse hc _ _ iht ihe =>
    rw [Stmt.write, hc.write_eq, iht fun hmem => hfor (by simp [hmem]),
      ihe fun hmem => hfor (by simp [hmem])]
  | «while» hc _ ih =>
    rw [Stmt.write, hc.write_eq, ih fun hmem => hfor (by simp [hmem])]
  | «return» line h => rw [Stmt.write, h.write_eq]
  | block body hb ih =>
    rw [Stmt.write, Stmt.writeAll_eq_signs fun p hp => ih p hp fun hmem => hfor ?_]
    have hin : Sign.keyword .forWord ∈ (body.map (·.1)).flatten :=
      List.mem_flatten.mpr ⟨p.1, List.mem_map_of_mem hp, hmem⟩
    simp [hin]

end Treewalk
