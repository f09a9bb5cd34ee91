import Treewalk.Proofs.Syntax.Drafts.Drafter
import Treewalk.Proofs.Syntax.Sign

/-!
# Drafts that mean trees

A draft draws a tree if it means the tree and all its nodes, at any depth, are as they should be. There
is one rule for each kind of node: what its parts draw, and what is known of its tokens, make the node
draw its tree.

Some of the calls and declarations of a text are listed. A node that is one of them has to be listed
too, so whether a draft draws a tree depends on the listings; more of them do no harm.

## Main definitions

* `DraftNode.Fits`: nodes as they should be.
* `Draft`, `Draws`: drafts of any type, and the trees that they draw.

## Main results

* `Draws.mono`: more listings.
* `Draws.operation`, `Draws.call`, `Draws.class`, …: one rule for each kind of node.
-/

namespace Treewalk

/-- A node is as it should be: its operators are those of its kind, its names are names among the
tokens, and it is listed if it is a call or a declaration. -/
structure DraftNode.Fits (tokens : List Token) (listings : List Listing) (n : DraftNode) : Prop where
  shape : n.HasShape
  names : ∀ t ∈ n.names, t.is .identifier ∧ t ∈ tokens
  listed : n.list?.isSome → ∃ l ∈ listings, l.node = n

theorem DraftNode.Fits.mono {tokens : List Token} {listings listings' : List Listing} {n : DraftNode}
    (h : n.Fits tokens listings) (hsub : listings ⊆ listings') : n.Fits tokens listings' where
  shape := h.shape
  names := h.names
  listed hlist :=
    let ⟨l, hl, heq⟩ := h.listed hlist
    ⟨l, hsub hl, heq⟩

section Fits

variable {tokens : List Token} {listings : List Listing} {n : DraftNode}

/-- A node that has no name and is not listed. -/
theorem DraftNode.Fits.of_unnamed (hshape : n.HasShape) (hnames : n.names = [])
    (hlist : n.list? = none) : n.Fits tokens listings :=
  ⟨hshape, by simp [hnames], by simp [hlist]⟩

/-- A node that has one name and is not listed. -/
theorem DraftNode.Fits.of_named {name : Token} (hshape : n.HasShape) (hnames : n.names = [name])
    (hname : name.is .identifier ∧ name ∈ tokens) (hlist : n.list? = none) :
    n.Fits tokens listings :=
  ⟨hshape, by simpa [hnames] using hname, by simp [hlist]⟩

end Fits

/-! ### Operators -/

namespace Token

variable {t : Token}

theorem is_of_unaryOp? {op : UnaryOp} (h : t.unaryOp? = some op) :
    t.is (.mark .bang) ∨ t.is (.mark .minus) := by
  rw [unaryOp?_eq_some] at h
  cases op
  · exact .inr (is_mark.mpr h)
  · exact .inl (is_mark.mpr h)

theorem binaryOp?_eq_some {op : BinaryOp} : t.binaryOp? = some op ↔ t.is (.mark op.mark) := by
  obtain ⟨kind, lexeme, line⟩ := t
  cases kind with
  | mark m =>
    cases m <;> cases op <;>
      simp [binaryOp?, Mark.binaryOp?, is, TokenKind.sameCategory, BinaryOp.mark]
  | _ => simp [binaryOp?, is, TokenKind.sameCategory]

theorem logicalOp?_eq_some {op : LogicalOp} :
    t.logicalOp? = some op ↔ t.is (.keyword op.keyword) := by
  obtain ⟨kind, lexeme, line⟩ := t
  cases kind with
  | keyword k =>
    cases k <;> cases op <;> simp [logicalOp?, is, TokenKind.sameCategory, LogicalOp.keyword]
  | _ => cases op <;> simp [logicalOp?, is, TokenKind.sameCategory]

theorem is_of_binaryOp? {op : BinaryOp} (h : t.binaryOp? = some op) :
    ∃ m ∈ DraftNode.binaryMarks, t.is (.mark m) :=
  ⟨op.mark, by cases op <;> decide, binaryOp?_eq_some.mp h⟩

theorem is_of_logicalOp? {op : LogicalOp} (h : t.logicalOp? = some op) :
    t.is (.keyword .andWord) ∨ t.is (.keyword .orWord) := by
  rw [logicalOp?_eq_some] at h
  cases op
  · exact .inl h
  · exact .inr h

end Token

/-- Drafts of trees of some type. -/
class Draft (α : Type) (β : outParam Type) where
  /-- The tree that a draft means. -/
  meaning? : α → Option β
  /-- The outermost nodes of a draft. -/
  nodes : α → List DraftNode

section Instances

variable {α β : Type} [Draft α β]

instance : Draft ExprDraft Expr := ⟨ExprDraft.expr?, fun e => [.expr e]⟩

instance : Draft StmtDraft Stmt := ⟨StmtDraft.stmt?, fun s => [.stmt s]⟩

instance : Draft FunctionDraft FunctionDecl := ⟨FunctionDraft.decl?, fun d => [.function d]⟩

instance : Draft (Option α) (Option β) :=
  ⟨Option.mapM Draft.meaning?, fun o => o.toList.flatMap Draft.nodes⟩

instance : Draft (List α) (List β) := ⟨List.mapM Draft.meaning?, List.flatMap Draft.nodes⟩

end Instances

/-- A draft means a tree, and its nodes are as they should be. -/
structure Draws {α β : Type} [Draft α β] (tokens : List Token) (a : α) (b : β)
    (listings : List Listing) : Prop where
  meaning : Draft.meaning? a = some b
  nodes : ∀ n ∈ Draft.nodes a, n.All (DraftNode.Fits tokens listings)

namespace Draws

variable {tokens : List Token} {listings listings' : List Listing}

section Collections

variable {α β : Type} [Draft α β] {a : α} {b : β} {as as' : List α} {bs bs' : List β}

theorem mono (h : Draws tokens a b listings) (hsub : listings ⊆ listings') :
    Draws tokens a b listings' :=
  ⟨h.meaning, fun n hn => (h.nodes n hn).mono fun _ hm => hm.mono hsub⟩

theorem none : Draws tokens (none : Option α) none listings :=
  ⟨rfl, by simp [Draft.nodes]⟩

theorem some (h : Draws tokens a b listings) : Draws tokens (some a) (some b) listings :=
  ⟨by simp [Draft.meaning?, h.meaning], by simpa [Draft.nodes] using h.nodes⟩

theorem nil : Draws tokens ([] : List α) [] listings :=
  ⟨rfl, by simp [Draft.nodes]⟩

theorem cons (h : Draws tokens a b listings) (hs : Draws tokens as bs listings) :
    Draws tokens (a :: as) (b :: bs) listings := by
  have hmeaning : List.mapM Draft.meaning? as = Option.some bs := hs.meaning
  refine ⟨by simp [Draft.meaning?, h.meaning, hmeaning], fun n hn => ?_⟩
  rcases List.mem_append.mp (List.flatMap_cons ▸ hn : n ∈ Draft.nodes a ++ Draft.nodes as) with hn | hn
  · exact h.nodes n hn
  · exact hs.nodes n hn

theorem append (h : Draws tokens as bs listings) (h' : Draws tokens as' bs' listings) :
    Draws tokens (as ++ as') (bs ++ bs') listings := by
  have hmeaning : List.mapM Draft.meaning? as = Option.some bs := h.meaning
  have hmeaning' : List.mapM Draft.meaning? as' = Option.some bs' := h'.meaning
  refine ⟨by simp [Draft.meaning?, hmeaning, hmeaning'], fun n hn => ?_⟩
  rcases List.mem_append.mp
    (List.flatMap_append ▸ hn : n ∈ Draft.nodes as ++ Draft.nodes as') with hn | hn
  · exact h.nodes n hn
  · exact h'.nodes n hn

theorem option_cases {o : Option α} {o' : Option β} (h : Draws tokens o o' listings) :
    (o = Option.none ∧ o' = Option.none) ∨
      ∃ a b, o = Option.some a ∧ o' = Option.some b ∧ Draws tokens a b listings := by
  cases o with
  | none => exact .inl ⟨rfl, (Option.some.inj h.meaning).symm⟩
  | some a =>
    obtain ⟨b, hb, rfl⟩ : ∃ b, Draft.meaning? a = Option.some b ∧ Option.some b = o' := by
      simpa [Draft.meaning?, Option.map_eq_some_iff] using h.meaning
    exact .inr ⟨a, b, rfl, rfl, hb, by simpa [Draft.nodes] using h.nodes⟩

theorem toList {o : Option α} {o' : Option β} (h : Draws tokens o o' listings) :
    Draws tokens o.toList o'.toList listings := by
  obtain ⟨rfl, rfl⟩ | ⟨a, b, rfl, rfl, hab⟩ := h.option_cases
  · exact .nil
  · exact .cons hab .nil

end Collections

/-! ### Expressions -/

section Expressions

variable {a l r c : ExprDraft} {e le re ce : Expr} {as : List ExprDraft} {es : List Expr}
  {operator name : Token}

theorem exprs?_eq (as : List ExprDraft) : ExprDraft.exprs? as = as.mapM ExprDraft.expr? := by
  induction as with
  | nil => rfl
  | cons a as ih => simp [ih]

theorem all (h : Draws tokens a e listings) :
    (DraftNode.expr a).All (DraftNode.Fits tokens listings) :=
  h.nodes _ (List.mem_singleton_self _)

theorem expr?_eq (h : Draws tokens a e listings) : a.expr? = Option.some e :=
  h.meaning

/-- An expression draws what it means if it is as it should be and its parts are too. -/
theorem of_parts (hmeaning : a.expr? = Option.some e) (hfits : (DraftNode.expr a).Fits tokens listings)
    (hparts : ∀ part ∈ a.parts, (DraftNode.expr part).All (DraftNode.Fits tokens listings)) :
    Draws tokens a e listings := by
  refine ⟨hmeaning, fun n hn => ?_⟩
  obtain rfl := List.mem_singleton.mp hn
  refine DraftNode.all_iff.mpr ⟨hfits, fun part hpart => ?_⟩
  obtain ⟨p, hp, rfl⟩ := List.mem_map.mp hpart
  exact hparts p hp

theorem literal (value : Literal) :
    Draws tokens (ExprDraft.literal value) (Expr.literal value) listings :=
  .of_parts rfl (.of_unnamed trivial rfl rfl) (by simp)

theorem grouping (h : Draws tokens a e listings) :
    Draws tokens (ExprDraft.grouping a) (Expr.grouping e) listings :=
  .of_parts (by simp [h.expr?_eq]) (.of_unnamed trivial rfl rfl)
    (by simp [h.all])

theorem unary {op : UnaryOp} (hop : operator.unaryOp? = Option.some op)
    (h : Draws tokens a e listings) :
    Draws tokens (ExprDraft.unary operator a) (Expr.unary op operator.line e) listings :=
  .of_parts (by simp [h.expr?_eq, hop])
    (.of_unnamed (Token.is_of_unaryOp? hop) rfl rfl) (by simp [h.all])

theorem binary {op : BinaryOp} (hop : operator.binaryOp? = Option.some op)
    (hl : Draws tokens l le listings) (hr : Draws tokens r re listings) :
    Draws tokens (ExprDraft.binary l operator r) (Expr.binary op operator.line le re) listings :=
  .of_parts (by simp [hl.expr?_eq, hr.expr?_eq, hop])
    (.of_unnamed (Token.is_of_binaryOp? hop) rfl rfl) (by simp [hl.all, hr.all])

theorem logical {op : LogicalOp} (hop : operator.logicalOp? = Option.some op)
    (hl : Draws tokens l le listings) (hr : Draws tokens r re listings) :
    Draws tokens (ExprDraft.logical l operator r) (Expr.logical op operator.line le re) listings :=
  .of_parts (by simp [hl.expr?_eq, hr.expr?_eq, hop])
    (.of_unnamed (Token.is_of_logicalOp? hop) rfl rfl) (by simp [hl.all, hr.all])

theorem ternary (hc : Draws tokens c ce listings) (hl : Draws tokens l le listings)
    (hr : Draws tokens r re listings) :
    Draws tokens (ExprDraft.ternary c l r) (Expr.ternary ce le re) listings :=
  .of_parts (by simp [hc.expr?_eq, hl.expr?_eq, hr.expr?_eq])
    (.of_unnamed trivial rfl rfl) (by simp [hc.all, hl.all, hr.all])

theorem ofVariable (id : Nat) (hname : name.is .identifier ∧ name ∈ tokens) :
    Draws tokens (ExprDraft.variable id name) (Expr.variable id name.toName) listings :=
  .of_parts rfl (.of_named trivial rfl hname rfl) (by simp)

theorem assign (id : Nat) (hname : name.is .identifier ∧ name ∈ tokens)
    (h : Draws tokens a e listings) :
    Draws tokens (ExprDraft.assign id name a) (Expr.assign id name.toName e) listings :=
  .of_parts (by simp [h.expr?_eq]) (.of_named trivial rfl hname rfl)
    (by simp [h.all])

theorem call (closing : Token) (h : Draws tokens a e listings) (hs : Draws tokens as es listings)
    (hlisted : ∃ l ∈ listings, l.node = .expr (.call a closing as)) :
    Draws tokens (ExprDraft.call a closing as) (Expr.call e closing.line es) listings := by
  have hmeaning : as.mapM ExprDraft.expr? = Option.some es := hs.meaning
  have hparts : ∀ part ∈ as, (DraftNode.expr part).All (DraftNode.Fits tokens listings) :=
    fun part hpart => hs.nodes _ (List.mem_flatMap.mpr ⟨part, hpart, List.mem_singleton_self _⟩)
  refine .of_parts (by simp [h.expr?_eq, exprs?_eq, hmeaning])
    ⟨trivial, by simp [DraftNode.names], fun _ => hlisted⟩ ?_
  simpa [h.all] using hparts

theorem get (hname : name.is .identifier ∧ name ∈ tokens) (h : Draws tokens a e listings) :
    Draws tokens (ExprDraft.get a name) (Expr.get e name.toName) listings :=
  .of_parts (by simp [h.expr?_eq]) (.of_named trivial rfl hname rfl)
    (by simp [h.all])

theorem set (hname : name.is .identifier ∧ name ∈ tokens) (hl : Draws tokens l le listings)
    (hr : Draws tokens r re listings) :
    Draws tokens (ExprDraft.set l name r) (Expr.set le name.toName re) listings :=
  .of_parts (by simp [hl.expr?_eq, hr.expr?_eq]) (.of_named trivial rfl hname rfl)
    (by simp [hl.all, hr.all])

theorem this (id : Nat) (keyword : Token) :
    Draws tokens (ExprDraft.this id keyword) (Expr.this id keyword.line) listings :=
  .of_parts rfl (.of_unnamed trivial rfl rfl) (by simp)

theorem super (id : Nat) (keyword : Token) (hname : name.is .identifier ∧ name ∈ tokens) :
    Draws tokens (ExprDraft.super id keyword name) (Expr.super id keyword.line name.toName) listings :=
  .of_parts rfl (.of_named trivial rfl hname rfl) (by simp)

/-- What draws a variable is one. -/
theorem eq_variable {id : Nat} {n : Name} (h : Draws tokens a (.variable id n) listings) :
    ∃ name, a = .variable id name ∧ name.toName = n ∧ name.is .identifier ∧ name ∈ tokens := by
  have hmeaning := h.expr?_eq
  cases a with
  | «variable» id' name =>
    cases hmeaning
    exact ⟨name, rfl, rfl, (h.all _ (.self _)).names name (List.mem_singleton_self _)⟩
  | _ => simp [Option.bind_eq_some_iff] at hmeaning

/-- What draws a property is one. -/
theorem eq_get {n : Name} (h : Draws tokens a (.get e n) listings) :
    ∃ object name, a = .get object name ∧ name.toName = n ∧ Draws tokens object e listings ∧
      name.is .identifier ∧ name ∈ tokens := by
  have hmeaning := h.expr?_eq
  cases a with
  | get object name =>
    obtain ⟨e', he', heq⟩ : ∃ e', object.expr? = Option.some e' ∧ e' = e ∧ name.toName = n := by
      simpa [Option.bind_eq_some_iff] using hmeaning
    obtain ⟨rfl, hname⟩ := heq
    refine ⟨object, name, rfl, hname, ⟨he', fun m hm => ?_⟩,
      (h.all _ (.self _)).names name (List.mem_singleton_self _)⟩
    obtain rfl := List.mem_singleton.mp hm
    exact (DraftNode.all_iff.mp h.all).2 _ (List.mem_singleton_self _)
  | _ => simp [Option.bind_eq_some_iff] at hmeaning

end Expressions

/-! ### Statements -/

section Statements

variable {c : ExprDraft} {ce : Expr} {s s' : StmtDraft} {t t' : Stmt} {ss : List StmtDraft}
  {ts : List Stmt} {o : Option ExprDraft} {eo : Option Expr} {d : FunctionDraft} {f : FunctionDecl}
  {ds : List FunctionDraft} {fs : List FunctionDecl} {name : Token}

theorem stmts?_eq (ss : List StmtDraft) : StmtDraft.stmts? ss = ss.mapM StmtDraft.stmt? := by
  induction ss with
  | nil => rfl
  | cons s ss ih => simp [ih]

theorem decls?_eq (ds : List FunctionDraft) :
    FunctionDraft.decls? ds = ds.mapM FunctionDraft.decl? := by
  induction ds with
  | nil => rfl
  | cons d ds ih => simp [ih]

theorem stmt?_eq (h : Draws tokens s t listings) : s.stmt? = Option.some t :=
  h.meaning

theorem decl?_eq (h : Draws tokens d f listings) : d.decl? = Option.some f :=
  h.meaning

theorem optional_eq (h : Draws tokens o eo listings) : o.mapM ExprDraft.expr? = Option.some eo :=
  h.meaning

theorem stmts?_eq_some (h : Draws tokens ss ts listings) : StmtDraft.stmts? ss = Option.some ts :=
  (stmts?_eq ss).trans h.meaning

theorem decls?_eq_some (h : Draws tokens ds fs listings) : FunctionDraft.decls? ds = Option.some fs :=
  (decls?_eq ds).trans h.meaning

/-- A statement draws what it means if it is as it should be and the nodes in it are too. -/
theorem of_children (hmeaning : s.stmt? = Option.some t)
    (hfits : (DraftNode.stmt s).Fits tokens listings)
    (hchildren : ∀ n ∈ s.children, n.All (DraftNode.Fits tokens listings)) :
    Draws tokens s t listings := by
  refine ⟨hmeaning, fun n hn => ?_⟩
  obtain rfl := List.mem_singleton.mp hn
  exact DraftNode.all_iff.mpr ⟨hfits, hchildren⟩

theorem all_stmt (h : Draws tokens s t listings) :
    (DraftNode.stmt s).All (DraftNode.Fits tokens listings) :=
  h.nodes _ (List.mem_singleton_self _)

theorem all_of_mem (h : Draws tokens ss ts listings) :
    ∀ n ∈ ss.map DraftNode.stmt, n.All (DraftNode.Fits tokens listings) := by
  intro n hn
  obtain ⟨s, hs, rfl⟩ := List.mem_map.mp hn
  exact h.nodes _ (List.mem_flatMap.mpr ⟨s, hs, List.mem_singleton_self _⟩)

theorem all_of_mem_methods (h : Draws tokens ds fs listings) :
    ∀ n ∈ ds.map DraftNode.function, n.All (DraftNode.Fits tokens listings) := by
  intro n hn
  obtain ⟨d, hd, rfl⟩ := List.mem_map.mp hn
  exact h.nodes _ (List.mem_flatMap.mpr ⟨d, hd, List.mem_singleton_self _⟩)

theorem all_of_mem_option (h : Draws tokens o eo listings) :
    ∀ n ∈ o.toList.map DraftNode.expr, n.All (DraftNode.Fits tokens listings) := by
  intro n hn
  obtain ⟨e, he, rfl⟩ := List.mem_map.mp hn
  exact h.nodes _ (List.mem_flatMap.mpr ⟨e, he, List.mem_singleton_self _⟩)

theorem expression (h : Draws tokens c ce listings) :
    Draws tokens (StmtDraft.expression c) (Stmt.expression ce) listings :=
  .of_children (by simp [h.expr?_eq]) (.of_unnamed trivial rfl rfl)
    (by simp [h.all])

theorem declaration (hname : name.is .identifier ∧ name ∈ tokens) (h : Draws tokens o eo listings) :
    Draws tokens (StmtDraft.variable name o) (Stmt.variable name.toName eo) listings :=
  .of_children (by simp [h.optional_eq]) (.of_named trivial rfl hname rfl)
    h.all_of_mem_option

theorem block (h : Draws tokens ss ts listings) :
    Draws tokens (StmtDraft.block ss) (Stmt.block ts) listings :=
  .of_children (by simp [h.stmts?_eq_some]) (.of_unnamed trivial rfl rfl)
    h.all_of_mem

theorem ifThen (hc : Draws tokens c ce listings) (h : Draws tokens s t listings) :
    Draws tokens (StmtDraft.ifThen c s) (Stmt.ifThen ce t) listings :=
  .of_children (by simp [hc.expr?_eq, h.stmt?_eq]) (.of_unnamed trivial rfl rfl)
    (by simp [hc.all, h.all_stmt])

theorem ifElse (hc : Draws tokens c ce listings) (h : Draws tokens s t listings)
    (h' : Draws tokens s' t' listings) :
    Draws tokens (StmtDraft.ifElse c s s') (Stmt.ifElse ce t t') listings :=
  .of_children (by simp [hc.expr?_eq, h.stmt?_eq, h'.stmt?_eq]) (.of_unnamed trivial rfl rfl)
    (by simp [hc.all, h.all_stmt, h'.all_stmt])

theorem loop (hc : Draws tokens c ce listings) (h : Draws tokens s t listings) :
    Draws tokens (StmtDraft.while c s) (Stmt.while ce t) listings :=
  .of_children (by simp [hc.expr?_eq, h.stmt?_eq]) (.of_unnamed trivial rfl rfl)
    (by simp [hc.all, h.all_stmt])

theorem function (h : Draws tokens d f listings) :
    Draws tokens (StmtDraft.function d) (Stmt.function f) listings :=
  .of_children (by simp [h.decl?_eq]) (.of_unnamed trivial rfl rfl) h.nodes

theorem returning (keyword : Token) (h : Draws tokens o eo listings) :
    Draws tokens (StmtDraft.return keyword o) (Stmt.return keyword.line eo) listings :=
  .of_children (by simp [h.optional_eq]) (.of_unnamed trivial rfl rfl) h.all_of_mem_option

/-- What draws a superclass is a variable. -/
theorem superclass_eq {so : Option Superclass} (h : Draws tokens o (so.map Superclass.expr) listings) :
    o.mapM ExprDraft.superclass? = Option.some so ∧
      ∀ a, o = Option.some a → ∃ id name, a = .variable id name := by
  obtain ⟨rfl, hso⟩ | ⟨a, e, rfl, hso, ha⟩ := h.option_cases
  · obtain rfl := Option.map_eq_none_iff.mp hso
    exact ⟨rfl, by simp⟩
  · obtain ⟨s, rfl, rfl⟩ := Option.map_eq_some_iff.mp hso
    obtain ⟨name, rfl, hname, -⟩ := ha.eq_variable
    exact ⟨by simp [ExprDraft.superclass?, hname], by simp⟩

theorem classDecl {so : Option Superclass} (hname : name.is .identifier ∧ name ∈ tokens)
    (hsuper : Draws tokens o (so.map Superclass.expr) listings) (h : Draws tokens ds fs listings) :
    Draws tokens (StmtDraft.class name o ds) (Stmt.class name.toName so fs) listings := by
  obtain ⟨hmeaning, hvariable⟩ := hsuper.superclass_eq
  have hshape : (DraftNode.stmt (.class name o ds)).HasShape := by
    cases o with
    | none => trivial
    | some a => exact hvariable a rfl
  refine .of_children (by simp [hmeaning, h.decls?_eq_some]) (.of_named hshape rfl hname rfl) ?_
  intro n hn
  rcases List.mem_append.mp hn with hn | hn
  · exact hsuper.all_of_mem_option n hn
  · exact h.all_of_mem_methods n hn

/-- A declaration of a function or method draws what it means if it is listed. -/
theorem routine {params : List Token} (hname : name.is .identifier ∧ name ∈ tokens)
    (hparams : ∀ t ∈ params, t.is .identifier ∧ t ∈ tokens) (h : Draws tokens ss ts listings)
    (hlisted : ∃ l ∈ listings, l.node = .function ⟨name, params, ss⟩) :
    Draws tokens (FunctionDraft.mk name params ss)
      (FunctionDecl.mk name.toName (params.map Token.toName) ts) listings := by
  have hmeaning : FunctionDraft.decl? ⟨name, params, ss⟩ =
      Option.some ⟨name.toName, params.map Token.toName, ts⟩ := by
    simp [h.stmts?_eq_some]
  refine ⟨hmeaning, fun n hn => ?_⟩
  obtain rfl := List.mem_singleton.mp hn
  refine DraftNode.all_iff.mpr ⟨⟨trivial, ?_, fun _ => hlisted⟩, h.all_of_mem⟩
  simpa [DraftNode.names, hname] using hparams

end Statements

end Draws

end Treewalk
