import Treewalk.Proofs.Syntax.Reader
import Treewalk.Syntax.Program

/-!
# Node numbers

The nodes of what is read from tokens have numbers of their own: no number occurs twice, and all of
them were drawn while the text was read, whatever faults it has. So nodes of different texts never
share a number either.

## Main definitions

* `Expr.ids`, `Stmt.ids`: the node numbers of a tree.
* `Numbered`: numbers that were drawn between two states of the counter, each of them once.

## Main results

* `Program.ofTokens_numbered`: the numbers of a program.
-/

namespace Treewalk

mutual

/-- The numbers of the nodes of an expression. -/
def Expr.ids : Expr → List Nat
  | .literal _ => []
  | .grouping inner => inner.ids
  | .unary _ _ operand => operand.ids
  | .binary _ _ left right => left.ids ++ right.ids
  | .logical _ _ left right => left.ids ++ right.ids
  | .ternary condition whenTrue whenFalse => condition.ids ++ whenTrue.ids ++ whenFalse.ids
  | .variable id _ => [id]
  | .assign id _ value => id :: value.ids
  | .call callee _ arguments => callee.ids ++ Expr.idsAll arguments
  | .get object _ => object.ids
  | .set object _ value => object.ids ++ value.ids
  | .this id _ => [id]
  | .super id _ _ => [id]

/-- The numbers of the nodes of expressions. -/
def Expr.idsAll : List Expr → List Nat
  | [] => []
  | e :: es => e.ids ++ Expr.idsAll es

end

/-- The numbers of the nodes of an expression that may be absent. -/
def Expr.idsOf (e : Option Expr) : List Nat :=
  e.elim [] Expr.ids

/-- The number of the occurrence of a superclass that may be absent. -/
def Superclass.idsOf (s : Option Superclass) : List Nat :=
  s.elim [] fun s => [s.id]

mutual

/-- The numbers of the nodes of a statement. -/
def Stmt.ids : Stmt → List Nat
  | .expression e => e.ids
  | .variable _ initializer => Expr.idsOf initializer
  | .block body => Stmt.idsAll body
  | .ifThen condition thenBranch => condition.ids ++ thenBranch.ids
  | .ifElse condition thenBranch elseBranch =>
    condition.ids ++ thenBranch.ids ++ elseBranch.ids
  | .while condition body => condition.ids ++ body.ids
  | .function decl => decl.ids
  | .return _ value => Expr.idsOf value
  | .class _ superclass methods => Superclass.idsOf superclass ++ Stmt.methodIds methods

/-- The numbers of the nodes of statements. -/
def Stmt.idsAll : List Stmt → List Nat
  | [] => []
  | s :: ss => s.ids ++ Stmt.idsAll ss

/-- The numbers of the nodes of the body of a function. -/
def FunctionDecl.ids : FunctionDecl → List Nat
  | ⟨_, _, body⟩ => Stmt.idsAll body

/-- The numbers of the nodes of the bodies of methods. -/
def Stmt.methodIds : List FunctionDecl → List Nat
  | [] => []
  | m :: ms => m.ids ++ Stmt.methodIds ms

end

/-- Numbers that were drawn, each of them once, while the counter went from `first` to `next`. -/
structure Numbered (first next : Nat) (ids : List Nat) : Prop where
  le : first ≤ next
  nodup : ids.Nodup
  mem : ∀ id ∈ ids, first ≤ id ∧ id < next

namespace Numbered

variable {a b c : Nat} {xs ys : List Nat}

theorem nil (h : a ≤ b) : Numbered a b [] :=
  ⟨h, List.nodup_nil, fun _ h => absurd h List.not_mem_nil⟩

theorem single (a : Nat) : Numbered a (a + 1) [a] :=
  ⟨Nat.le_succ a, List.nodup_singleton a, fun id h => by simp_all⟩

/-- Numbers drawn later are different from those drawn before. -/
theorem append (hx : Numbered a b xs) (hy : Numbered b c ys) : Numbered a c (xs ++ ys) where
  le := Nat.le_trans hx.le hy.le
  nodup := by
    refine hx.nodup.append hy.nodup fun id h h' => ?_
    have := hx.mem id h
    have := hy.mem id h'
    omega
  mem id h := by
    have := hx.le
    have := hy.le
    rcases List.mem_append.mp h with h | h
    · have := hx.mem id h
      omega
    · have := hy.mem id h
      omega

theorem of_perm (h : Numbered a b xs) (hp : xs.Perm ys) : Numbered a b ys :=
  ⟨h.le, hp.nodup_iff.mp h.nodup, fun id hid => h.mem id (hp.mem_iff.mpr hid)⟩

/-- The counter may have gone on. -/
theorem widen {a' b' : Nat} (h : Numbered a b xs) (ha : a' ≤ a) (hb : b ≤ b') :
    Numbered a' b' xs where
  le := Nat.le_trans ha (Nat.le_trans h.le hb)
  nodup := h.nodup
  mem id hid := by
    have := h.mem id hid
    omega

/-- A number drawn last, put in front. -/
theorem cons (h : Numbered a b xs) : Numbered a (b + 1) (b :: xs) :=
  (h.append (single b)).of_perm (List.perm_append_singleton b xs)

end Numbered

namespace Reader

/-- The numbers in what a reader answers are those that it drew. -/
abbrev Numbers {α : Type} (r : Reader α) (ids : α → List Nat) : Prop :=
  Ensures r fun _ _ _ first next a => Numbered first next (ids a)

/-! ### Expressions -/

theorem ids_of_combine? {level : Level} {t : Token} {combine : Expr → Expr → Expr}
    (h : level.combine? t = some combine) (left right : Expr) :
    (combine left right).ids = left.ids ++ right.ids := by
  unfold Level.combine? at h
  split at h
  · cases h; rfl
  · cases h; rfl
  · obtain ⟨op, -, rfl⟩ := Option.map_eq_some_iff.mp h
    rfl
  · cases h

theorem chainFrom_numbers {level : Level} {operand : Reader Expr} (h : operand.Numbers Expr.ids)
    (bound : Nat) (left : Expr) :
    Ensures (chainFrom level operand bound left) fun _ _ _ first next e =>
      ∀ start, Numbered start first left.ids → Numbered start next e.ids := by
  induction bound generalizing left with
  | zero =>
    refine (Ensures.pure left).mono ?_
    rintro _ _ _ _ _ _ ⟨-, -, rfl, rfl⟩ start hleft
    exact hleft
  | succ bound ih =>
    refine (Ensures.acceptBy? (fun combine => h.bind fun right => ih (combine left right))
      (Ensures.pure left)).mono ?_
    rintro _ _ _ _ _ _ (⟨t, combine, _, -, hcombine, right, _, _, _, _, _, -, -, hright, hrest⟩ |
      ⟨-, -, -, rfl, rfl⟩) start hleft
    · exact hrest start (ids_of_combine? hcombine left right ▸ hleft.append hright)
    · exact hleft

theorem chain_numbers {level : Level} {operand : Reader Expr} (h : operand.Numbers Expr.ids) :
    (chain level operand).Numbers Expr.ids := by
  refine (h.bind fun left => Ensures.bounded fun bound =>
    chainFrom_numbers h bound left).mono ?_
  rintro _ _ _ _ _ _ ⟨left, _, _, _, _, _, -, -, hleft, hrest⟩
  exact hrest _ hleft

theorem equality_numbers {operand : Reader Expr} (h : operand.Numbers Expr.ids) :
    (equality operand).Numbers Expr.ids :=
  chain_numbers (chain_numbers (chain_numbers (chain_numbers h)))

theorem argumentsFrom_numbers {argument : Reader Expr} (h : argument.Numbers Expr.ids)
    (bound count : Nat) : (argumentsFrom argument bound count).Numbers Expr.idsAll := by
  induction bound generalizing count with
  | zero => exact Ensures.fail _
  | succ bound ih =>
    refine ((Ensures.noteBeyond count _).bind fun _ => h.bind fun first =>
      Ensures.accept ((ih (count + 1)).bind fun others => Ensures.pure (first :: others))
        (Ensures.pure [first])).mono ?_
    rintro _ _ _ _ _ _ ⟨-, _, _, _, _, _, -, -, ⟨-, -, rfl⟩, first, _, _, _, _, _, -, -, hfirst,
      ⟨_, _, -, -, others, _, _, _, _, _, -, -, hothers, -, -, rfl, rfl⟩ | ⟨-, -, -, rfl, rfl⟩⟩
    · exact hfirst.append hothers
    · simpa [Expr.idsAll] using hfirst

theorem arguments_numbers {argument : Reader Expr} (h : argument.Numbers Expr.ids) :
    (arguments argument).Numbers Expr.idsAll := by
  refine (Ensures.check (Q := fun _ _ _ _ first next es => Numbered first next (Expr.idsAll es))
    fun b => ?_).mono fun _ _ _ _ _ _ hq => hq
  cases b with
  | true =>
    refine (Ensures.pure []).mono ?_
    rintro _ _ _ _ _ _ ⟨-, -, rfl, rfl⟩
    exact .nil (Nat.le_refl _)
  | false => exact Ensures.bounded fun bound => argumentsFrom_numbers h (bound + 1) 0

theorem callOf_numbers {argument : Reader Expr} (h : argument.Numbers Expr.ids) (callee : Expr) :
    Ensures (callOf argument callee) fun _ _ _ first next e =>
      ∀ start, Numbered start first callee.ids → Numbered start next e.ids := by
  refine ((arguments_numbers h).bind fun es => Ensures.expect fun t =>
    Ensures.pure (Expr.call callee t.line es)).mono ?_
  rintro _ _ _ _ _ _ ⟨es, _, _, _, _, _, -, -, hes, _, _, -, -, -, -, rfl, rfl⟩ start hcallee
  exact hcallee.append hes

theorem suffixes_numbers {argument : Reader Expr} (h : argument.Numbers Expr.ids) (bound : Nat)
    (e : Expr) : Ensures (suffixes argument bound e) fun _ _ _ first next e' =>
      ∀ start, Numbered start first e.ids → Numbered start next e'.ids := by
  induction bound generalizing e with
  | zero =>
    refine (Ensures.pure e).mono ?_
    rintro _ _ _ _ _ _ ⟨-, -, rfl, rfl⟩ start he
    exact he
  | succ bound ih =>
    refine (Ensures.accept ((callOf_numbers h e).bind fun e' => ih e') (Ensures.accept
      (Ensures.expect fun name => ih (.get e name.toName)) (Ensures.pure e))).mono ?_
    rintro _ _ _ _ _ _ (⟨_, _, -, -, e', _, _, _, _, _, -, -, hcall, hrest⟩ |
      ⟨-, ⟨_, _, -, -, name, _, -, -, hrest⟩ | ⟨-, -, -, rfl, rfl⟩⟩) start he
    · exact hrest start (hcall start he)
    · exact hrest start he
    · exact he

theorem groupingOf_numbers {inner : Reader Expr} (h : inner.Numbers Expr.ids) :
    (groupingOf inner).Numbers Expr.ids := by
  refine (h.bind fun e => Ensures.expect fun _ => Ensures.pure (Expr.grouping e)).mono ?_
  rintro _ _ _ _ _ _ ⟨e, _, _, _, _, _, -, -, he, _, _, -, -, -, -, rfl, rfl⟩
  exact he

theorem superOf_numbers (line : Nat) : (superOf line).Numbers Expr.ids := by
  refine (Ensures.expect fun _ => Ensures.expect fun name => Ensures.freshId fun id =>
    Ensures.pure (Expr.super id line name.toName)).mono ?_
  rintro _ _ _ first _ _ ⟨_, _, -, -, name, _, -, -, -, -, rfl, rfl⟩
  exact .single first

theorem primary_numbers {inner : Reader Expr} (h : inner.Numbers Expr.ids) :
    (primary inner).Numbers Expr.ids := by
  refine (Ensures.acceptBy? (fun l => Ensures.pure (Expr.literal l)) <|
    Ensures.accept? (fun name => Ensures.freshId fun id =>
      Ensures.pure (Expr.variable id name.toName)) <|
    Ensures.accept? (fun t => Ensures.freshId fun id => Ensures.pure (Expr.this id t.line)) <|
    Ensures.accept? (fun t => superOf_numbers t.line) <|
    Ensures.accept (groupingOf_numbers h) (Ensures.fail (Q := fun _ _ _ _ _ _ => False) _)).mono ?_
  rintro _ _ _ first _ _ (⟨_, l, _, -, -, -, -, rfl, rfl⟩ | ⟨-, ⟨name, _, -, -, -, -, rfl, rfl⟩ |
    ⟨-, ⟨t, _, -, -, -, -, rfl, rfl⟩ | ⟨-, ⟨t, _, -, -, he⟩ | ⟨-, ⟨_, _, -, -, he⟩ | ⟨-, ⟨⟩⟩⟩⟩⟩⟩)
  · exact .nil (Nat.le_refl _)
  · exact .single first
  · exact .single first
  · exact he
  · exact he

theorem call_numbers {inner : Reader Expr} (h : inner.Numbers Expr.ids) :
    (call inner).Numbers Expr.ids := by
  refine ((primary_numbers h).bind fun e => Ensures.bounded fun bound =>
    suffixes_numbers h bound e).mono ?_
  rintro _ _ _ _ _ _ ⟨e, _, _, _, _, _, -, -, he, hrest⟩
  exact hrest _ he

theorem assignTo_numbers (target : Expr) (equals : Token) (value : Expr) :
    Ensures (assignTo target equals value) fun _ _ _ first next e =>
      ∀ start middle, Numbered start middle target.ids → Numbered middle first value.ids →
        Numbered start next e.ids := by
  unfold assignTo
  split
  · next id name =>
    refine (Ensures.freshId fun id => Ensures.pure (Expr.assign id name value)).mono ?_
    rintro _ _ _ first _ _ ⟨-, -, rfl, rfl⟩ start middle ht hv
    exact hv.cons.widen ht.le (Nat.le_refl _)
  · next object name =>
    refine (Ensures.pure (Expr.set object name value)).mono ?_
    rintro _ _ _ _ _ _ ⟨-, -, rfl, rfl⟩ start middle ht hv
    exact ht.append hv
  · refine ((Ensures.note _).bind fun _ => Ensures.pure target).mono ?_
    rintro _ _ _ _ _ _ ⟨_, _, _, _, _, _, -, -, ⟨-, -, rfl⟩, -, -, rfl, rfl⟩ start middle ht hv
    exact ht.widen (Nat.le_refl _) hv.le

theorem levels_numbers (bound : Nat) : (assignment bound).Numbers Expr.ids ∧
    (ternary bound).Numbers Expr.ids ∧ (unary bound).Numbers Expr.ids := by
  induction bound with
  | zero => exact ⟨Ensures.fail _, Ensures.fail _, Ensures.fail _⟩
  | succ bound ih =>
    obtain ⟨iha, iht, ihu⟩ := ih
    refine ⟨?_, ?_, ?_⟩
    · refine ((chain_numbers (chain_numbers iht)).bind fun target => Ensures.accept?
        (fun equals => iha.bind fun value => assignTo_numbers target equals value)
        (Ensures.pure target)).mono ?_
      rintro _ _ _ _ _ _ ⟨target, _, _, _, _, _, -, -, ht,
        ⟨_, _, -, -, value, _, _, _, _, _, -, -, hv, he⟩ | ⟨-, -, -, rfl, rfl⟩⟩
      · exact he _ _ ht hv
      · exact ht
    · refine ((equality_numbers ihu).bind fun condition => Ensures.accept
        ((equality_numbers ihu).bind fun whenTrue => Ensures.expect fun _ =>
          iht.bind fun whenFalse => Ensures.pure (Expr.ternary condition whenTrue whenFalse))
        (Ensures.pure condition)).mono ?_
      rintro _ _ _ _ _ _ ⟨condition, _, _, _, _, _, -, -, hc, ⟨_, _, -, -, whenTrue, _, _, _, _, _,
        -, -, ht, _, _, -, -, whenFalse, _, _, _, _, _, -, -, hf, -, -, rfl, rfl⟩ | ⟨-, -, -, rfl, rfl⟩⟩
      · exact (hc.append ht).append hf
      · exact hc
    · refine (Ensures.acceptBy? (fun apply => ihu.bind fun e => Ensures.pure (apply e))
        (call_numbers iha)).mono ?_
      rintro _ _ _ _ _ _ (⟨t, apply, _, -, happly, e, _, _, _, _, _, -, -, he, -, -, rfl, rfl⟩ |
        ⟨-, he⟩)
      · obtain ⟨op, -, rfl⟩ := Option.map_eq_some_iff.mp happly
        exact he
      · exact he

theorem expression_numbers : expression.Numbers Expr.ids :=
  Ensures.bounded fun tokens => (levels_numbers (3 * tokens + 3)).1

/-! ### Statements -/

theorem ids_loopStmt (initializer : Option Stmt) (condition increment : Option Expr) (body : Stmt) :
    (loopStmt initializer condition increment body).ids.Perm
      (initializer.elim [] Stmt.ids ++ Expr.idsOf condition ++ Expr.idsOf increment ++ body.ids) := by
  have hc : (condition.getD (.literal (.bool true))).ids = Expr.idsOf condition := by
    cases condition <;> rfl
  cases increment with
  | none => cases initializer <;> simp [loopStmt, Stmt.ids, Stmt.idsAll, Expr.idsOf, hc]
  | some e =>
    -- The increment is read before the body and stands after it.
    have hb : (Expr.idsOf condition ++ (body.ids ++ e.ids)).Perm
        (Expr.idsOf condition ++ (e.ids ++ body.ids)) :=
      List.perm_append_comm.append_left _
    cases initializer with
    | none => simpa [loopStmt, Stmt.ids, Stmt.idsAll, Expr.idsOf, hc] using hb
    | some s => simpa [loopStmt, Stmt.ids, Stmt.idsAll, Expr.idsOf, hc] using hb.append_left s.ids

theorem expressionUnless_numbers (kind : TokenKind) :
    (expressionUnless kind).Numbers Expr.idsOf := by
  refine (Ensures.check (Q := fun _ _ _ _ first next e => Numbered first next (Expr.idsOf e))
    fun b => ?_).mono fun _ _ _ _ _ _ hq => hq
  cases b with
  | true =>
    refine (Ensures.pure none).mono ?_
    rintro _ _ _ _ _ _ ⟨-, -, rfl, rfl⟩
    exact .nil (Nat.le_refl _)
  | false =>
    refine (expression_numbers.bind fun e => Ensures.pure (some e)).mono ?_
    rintro _ _ _ _ _ _ ⟨e, _, _, _, _, _, -, -, he, -, -, rfl, rfl⟩
    exact he

theorem initializer?_numbers : initializer?.Numbers Expr.idsOf := by
  refine (Ensures.accept (expression_numbers.bind fun e => Ensures.pure (some e))
    (Ensures.pure none)).mono ?_
  rintro _ _ _ _ _ _ (⟨_, _, -, -, e, _, _, _, _, _, -, -, he, -, -, rfl, rfl⟩ | ⟨-, -, -, rfl, rfl⟩)
  · exact he
  · exact .nil (Nat.le_refl _)

theorem variableDecl_numbers : variableDecl.Numbers Stmt.ids := by
  refine (Ensures.expect fun name => initializer?_numbers.bind fun e => Ensures.expect fun _ =>
    Ensures.pure (Stmt.variable name.toName e)).mono ?_
  rintro _ _ _ _ _ _ ⟨name, _, -, -, e, _, _, _, _, _, -, -, he, _, _, -, -, -, -, rfl, rfl⟩
  exact he

theorem expressionStmt_numbers : expressionStmt.Numbers Stmt.ids := by
  refine (expression_numbers.bind fun e => Ensures.expect fun _ =>
    Ensures.pure (Stmt.expression e)).mono ?_
  rintro _ _ _ _ _ _ ⟨e, _, _, _, _, _, -, -, he, _, _, -, -, -, -, rfl, rfl⟩
  exact he

theorem returnStmt_numbers (line : Nat) : (returnStmt line).Numbers Stmt.ids := by
  refine ((expressionUnless_numbers _).bind fun e => Ensures.expect fun _ =>
    Ensures.pure (Stmt.return line e)).mono ?_
  rintro _ _ _ _ _ _ ⟨e, _, _, _, _, _, -, -, he, _, _, -, -, -, -, rfl, rfl⟩
  exact he

theorem loopInitializer_numbers :
    loopInitializer.Numbers fun s : Option Stmt => s.elim [] Stmt.ids := by
  refine (Ensures.accept (Ensures.pure none) <| Ensures.accept
    (variableDecl_numbers.bind fun s => Ensures.pure (some s))
    (expressionStmt_numbers.bind fun s => Ensures.pure (some s))).mono ?_
  rintro _ _ _ _ _ _ (⟨_, _, -, -, -, -, rfl, rfl⟩ |
    ⟨-, ⟨_, _, -, -, s, _, _, _, _, _, -, -, hs, -, -, rfl, rfl⟩ |
      ⟨-, s, _, _, _, _, _, -, -, hs, -, -, rfl, rfl⟩⟩)
  · exact .nil (Nat.le_refl _)
  · exact hs
  · exact hs

theorem superclass?_numbers : superclass?.Numbers Superclass.idsOf := by
  refine (Ensures.accept (Ensures.expect fun name => Ensures.freshId fun id =>
    Ensures.pure (some (⟨id, name.toName⟩ : Superclass))) (Ensures.pure none)).mono ?_
  rintro _ _ _ first _ _ (⟨_, _, -, -, name, _, -, -, -, -, rfl, rfl⟩ | ⟨-, -, -, rfl, rfl⟩)
  · exact .single first
  · exact .nil (Nat.le_refl _)

theorem parametersFrom_numbers (bound count : Nat) :
    (parametersFrom bound count).Numbers fun _ => [] := by
  induction bound generalizing count with
  | zero => exact Ensures.fail _
  | succ bound ih =>
    refine ((Ensures.noteBeyond count _).bind fun _ => Ensures.expect fun t => Ensures.accept
      ((ih (count + 1)).bind fun others => Ensures.pure (t.toName :: others))
      (Ensures.pure [t.toName])).mono ?_
    rintro _ _ _ _ _ _ ⟨-, _, _, _, _, _, -, -, ⟨-, -, rfl⟩, t, _, -, -,
      ⟨_, _, -, -, others, _, _, _, _, _, -, -, hothers, -, -, rfl, -⟩ | ⟨-, -, -, rfl, -⟩⟩
    · exact hothers
    · exact .nil (Nat.le_refl _)

theorem parameters_numbers : parameters.Numbers fun _ => [] := by
  refine (Ensures.check (Q := fun _ _ _ _ first next _ => Numbered first next [])
    fun b => ?_).mono fun _ _ _ _ _ _ hq => hq
  cases b with
  | true =>
    refine (Ensures.pure []).mono ?_
    rintro _ _ _ _ _ _ ⟨-, -, rfl, -⟩
    exact .nil (Nat.le_refl _)
  | false => exact Ensures.bounded fun bound => parametersFrom_numbers (bound + 1) 0

/-- The numbers of the readers that call each other. -/
structure StatementNumbers (bound : Nat) : Prop where
  item : (item bound).Numbers fun s => s.elim [] Stmt.ids
  statement : (statement bound).Numbers Stmt.ids
  items : ∀ inBlock, (items bound inBlock).Numbers Stmt.idsAll
  routine : ∀ kind, (routine bound kind).Numbers FunctionDecl.ids
  methods : (methods bound).Numbers Stmt.methodIds

theorem StatementNumbers.zero : StatementNumbers 0 where
  item := by
    refine (Ensures.pure none).mono ?_
    rintro _ _ _ _ _ _ ⟨-, -, rfl, rfl⟩
    exact .nil (Nat.le_refl _)
  statement := Ensures.fail _
  items _ := by
    refine (Ensures.pure []).mono ?_
    rintro _ _ _ _ _ _ ⟨-, -, rfl, rfl⟩
    exact .nil (Nat.le_refl _)
  routine _ := Ensures.fail _
  methods := by
    refine (Ensures.pure []).mono ?_
    rintro _ _ _ _ _ _ ⟨-, -, rfl, rfl⟩
    exact .nil (Nat.le_refl _)

namespace StatementNumbers

variable {bound : Nat}

theorem statement_succ (h : StatementNumbers bound) :
    (Reader.statement (bound + 1)).Numbers Stmt.ids := by
  refine (Ensures.accept (Ensures.expect fun _ => loopInitializer_numbers.bind fun initializer =>
    (expressionUnless_numbers _).bind fun condition => Ensures.expect fun _ =>
      (expressionUnless_numbers _).bind fun increment => Ensures.expect fun _ =>
        h.statement.bind fun body =>
          Ensures.pure (loopStmt initializer condition increment body)) <|
    Ensures.accept (Ensures.expect fun _ => expression_numbers.bind fun condition =>
      Ensures.expect fun _ => h.statement.bind fun thenBranch => Ensures.accept
        (h.statement.bind fun elseBranch =>
          Ensures.pure (Stmt.ifElse condition thenBranch elseBranch))
        (Ensures.pure (Stmt.ifThen condition thenBranch))) <|
    Ensures.accept (Ensures.expect fun _ => expression_numbers.bind fun condition =>
      Ensures.expect fun _ => h.statement.bind fun body =>
        Ensures.pure (Stmt.while condition body)) <|
    Ensures.accept? (fun t => returnStmt_numbers t.line) <|
    Ensures.accept ((h.items true).bind fun body => Ensures.expect fun _ =>
      Ensures.pure (Stmt.block body)) expressionStmt_numbers).mono ?_
  rintro _ _ _ _ _ _ (⟨_, _, -, -, _, _, -, -, initializer, _, _, _, _, _, -, -, hi, condition, _, _,
    _, _, _, -, -, hc, _, _, -, -, increment, _, _, _, _, _, -, -, he, _, _, -, -, body, _, _, _, _,
    _, -, -, hb, -, -, rfl, rfl⟩ | ⟨-, h⟩)
  · exact (((hi.append hc).append he).append hb).of_perm
      (ids_loopStmt initializer condition increment body).symm
  rcases h with ⟨_, _, -, -, _, _, -, -, condition, _, _, _, _, _, -, -, hc, _, _, -, -, thenBranch,
    _, _, _, _, _, -, -, ht, ⟨_, _, -, -, elseBranch, _, _, _, _, _, -, -, he, -, -, rfl, rfl⟩ |
      ⟨-, -, -, rfl, rfl⟩⟩ | ⟨-, h⟩
  · exact (hc.append ht).append he
  · exact hc.append ht
  rcases h with ⟨_, _, -, -, _, _, -, -, condition, _, _, _, _, _, -, -, hc, _, _, -, -, body, _, _,
    _, _, _, -, -, hb, -, -, rfl, rfl⟩ | ⟨-, ⟨_, _, -, -, hr⟩ | ⟨-, ⟨_, _, -, -, body, _, _, _, _, _,
    -, -, hb, _, _, -, -, -, -, rfl, rfl⟩ | ⟨-, he⟩⟩⟩
  · exact hc.append hb
  · exact hr
  · exact hb
  · exact he

theorem item_succ (h : StatementNumbers bound) :
    (Reader.item (bound + 1)).Numbers fun s => s.elim [] Stmt.ids := by
  refine (Ensures.orRecover (Q := fun _ _ _ first next s => Numbered first next s.ids) <|
    (Ensures.accept (Ensures.expect fun name => superclass?_numbers.bind fun superclass =>
        Ensures.expect fun _ => h.methods.bind fun methods => Ensures.expect fun _ =>
          Ensures.pure (Stmt.class name.toName superclass methods)) <|
      Ensures.accept ((h.routine .function).bind fun decl => Ensures.pure (Stmt.function decl)) <|
      Ensures.accept variableDecl_numbers h.statement).mono ?_).mono ?_
  · rintro _ _ _ _ _ _ (⟨_, _, -, -, name, _, -, -, superclass, _, _, _, _, _, -, -, hs, _, _, -, -,
      methods, _, _, _, _, _, -, -, hm, _, _, -, -, -, -, rfl, rfl⟩ | ⟨-, ⟨_, _, -, -, decl, _, _, _,
      _, _, -, -, hd, -, -, rfl, rfl⟩ | ⟨-, ⟨_, _, -, -, hv⟩ | ⟨-, hs⟩⟩⟩)
    · exact hs.append hm
    · exact hd
    · exact hv
    · exact hs
  · rintro _ _ _ _ _ _ (⟨s, rfl, hs⟩ | ⟨rfl, -, hle⟩)
    · exact hs
    · exact .nil hle

theorem items_succ (h : StatementNumbers bound) (inBlock : Bool) :
    (Reader.items (bound + 1) inBlock).Numbers Stmt.idsAll := by
  rw [Reader.items_succ]
  refine (Ensures.untilEnd (h.item.bind fun first => (h.items inBlock).bind fun others =>
    Ensures.pure (first.toList ++ others))).mono ?_
  rintro _ _ _ _ _ _ (⟨-, -, -, rfl, rfl⟩ | ⟨first, _, _, _, _, _, -, -, hf, others, _, _, _, _, _, -,
    -, ho, -, -, rfl, rfl⟩)
  · exact .nil (Nat.le_refl _)
  · have hall := hf.append ho
    cases first with
    | none => exact hall
    | some s => exact hall

theorem routine_succ (h : StatementNumbers bound) (kind : Routine) :
    (Reader.routine (bound + 1) kind).Numbers FunctionDecl.ids := by
  refine (Ensures.expect fun name => Ensures.expect fun _ => parameters_numbers.bind fun params =>
    Ensures.expect fun _ => Ensures.expect fun _ => (h.items true).bind fun body =>
      Ensures.expect fun _ =>
        Ensures.pure (⟨name.toName, params, body⟩ : FunctionDecl)).mono ?_
  rintro _ _ _ _ _ _ ⟨_, _, -, -, _, _, -, -, params, _, _, _, _, _, -, -, hp, _, _, -, -, _, _, -,
    -, body, _, _, _, _, _, -, -, hb, _, _, -, -, -, -, rfl, rfl⟩
  exact hp.append hb

theorem methods_succ (h : StatementNumbers bound) :
    (Reader.methods (bound + 1)).Numbers Stmt.methodIds := by
  rw [Reader.methods_succ]
  refine (Ensures.untilEnd ((h.routine .method).bind fun first => h.methods.bind fun others =>
    Ensures.pure (first :: others))).mono ?_
  rintro _ _ _ _ _ _ (⟨-, -, -, rfl, rfl⟩ | ⟨first, _, _, _, _, _, -, -, hf, others, _, _, _, _, _, -,
    -, ho, -, -, rfl, rfl⟩)
  · exact .nil (Nat.le_refl _)
  · exact hf.append ho

theorem succ (h : StatementNumbers bound) : StatementNumbers (bound + 1) where
  item := h.item_succ
  statement := h.statement_succ
  items := h.items_succ
  routine := h.routine_succ
  methods := h.methods_succ

theorem all : (bound : Nat) → StatementNumbers bound
  | 0 => zero
  | bound + 1 => (all bound).succ

end StatementNumbers

end Reader

/-- Whatever the tokens are, the nodes of what is read from them have numbers of their own, drawn
from the first number on that was free. -/
theorem Program.ofTokens_numbered (nextId : Nat) (tokens : List Token) :
    Numbered nextId (Program.ofTokens nextId tokens).nextId
      (Stmt.idsAll (Program.ofTokens nextId tokens).body) := by
  have h := (Reader.StatementNumbers.all (3 * (tokensBeforeEnd tokens).length + 3)).items false
    ⟨tokensBeforeEnd tokens, [], nextId⟩
  unfold Program.ofTokens
  dsimp only
  split
  · next body c hr =>
    rw [hr] at h
    obtain ⟨_, _, -, hids⟩ := h
    exact hids
  · next e c hr =>
    rw [hr] at h
    obtain ⟨-, _, _, hl⟩ := h
    exact .nil hl.nextId

end Treewalk
