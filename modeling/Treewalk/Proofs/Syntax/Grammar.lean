import Treewalk.Proofs.Syntax.Reading

/-!
# The grammar

The rules of the language in extended Backus–Naur form, and the texts that can be derived from them.
A call has at most `maxArguments` arguments, and a function or method at most so many parameters.

## Main definitions

* `Ebnf`: right sides of rules.
* `Rule`, `Rule.body`: the rules.
* `Derives`: the texts of a right side.
* `Ebnf.Means`: the texts of a right side when those of the rules in it are given.

## Main results

* `Derives.means`: a reading of all rules that is closed under each of them reads every text that
  can be derived.
* `Derives.rule_iff`: a rule derives what its right side means.
-/

namespace Treewalk

/-- The terminals of the grammar. -/
inductive Terminal
  | mark (m : Mark)
  | keyword (k : Keyword)
  | identifier | number | string | endOfText
  deriving DecidableEq

/-- Whether a sign is one of a terminal. -/
def Sign.Fits : Sign → Terminal → Prop
  | .mark m, .mark m' => m = m'
  | .keyword k, .keyword k' => k = k'
  | .name _, .identifier => True
  | .string _, .string => True
  | .number _, .number => True
  | .endOfText, .endOfText => True
  | _, _ => False

/-- The rules of the grammar. -/
inductive Rule
  | program | declaration | classDecl | funDecl | function | varDecl
  | statement | exprStmt | forStmt | ifStmt | returnStmt | whileStmt | block
  | parameters | expression | assignment | logicOr | logicAnd | ternary
  | equality | comparison | term | factor | unary | call | arguments | primary
  deriving DecidableEq

/-- Right sides of rules. -/
inductive Ebnf
  | terminal (t : Terminal)
  | rule (r : Rule)
  | seq (first second : Ebnf)
  | alt (first second : Ebnf)
  /-- A part repeated any number of times, or up to a limit. -/
  | repeated (limit : Option Nat) (part : Ebnf)

namespace Ebnf

instance : Append Ebnf := ⟨seq⟩

instance : OrOp Ebnf := ⟨alt⟩

/-- A mark. -/
abbrev mark (m : Mark) : Ebnf := terminal (.mark m)

/-- A reserved word. -/
abbrev word (k : Keyword) : Ebnf := terminal (.keyword k)

/-- A name. -/
abbrev identifier : Ebnf := terminal .identifier

/-- A part that may be absent. -/
abbrev opt (part : Ebnf) : Ebnf := repeated (some 1) part

/-- A part repeated any number of times. -/
abbrev many (part : Ebnf) : Ebnf := repeated none part

/-- One to `maxArguments` parts with commas between them. -/
abbrev commaList (part : Ebnf) : Ebnf :=
  part ++ repeated (some (maxArguments - 1)) (mark .comma ++ part)

end Ebnf

open Ebnf in
/-- The right side of a rule. -/
def Rule.body : Rule → Ebnf
  | program => many (rule declaration) ++ terminal .endOfText
  | declaration => rule classDecl ||| rule funDecl ||| rule varDecl ||| rule statement
  | classDecl =>
    word .classWord ++ identifier ++ opt (mark .less ++ identifier) ++ mark .leftBrace ++
      many (rule function) ++ mark .rightBrace
  | funDecl => word .funWord ++ rule function
  | function =>
    identifier ++ mark .leftParen ++ opt (rule parameters) ++ mark .rightParen ++ rule block
  | varDecl =>
    word .varWord ++ identifier ++ opt (mark .equal ++ rule expression) ++ mark .semicolon
  | statement =>
    rule exprStmt ||| rule forStmt ||| rule ifStmt ||| rule returnStmt ||| rule whileStmt |||
      rule block
  | exprStmt => rule expression ++ mark .semicolon
  | forStmt =>
    word .forWord ++ mark .leftParen ++ (rule varDecl ||| rule exprStmt ||| mark .semicolon) ++
      opt (rule expression) ++ mark .semicolon ++ opt (rule expression) ++ mark .rightParen ++
      rule statement
  | ifStmt =>
    word .ifWord ++ mark .leftParen ++ rule expression ++ mark .rightParen ++ rule statement ++
      opt (word .elseWord ++ rule statement)
  | returnStmt => word .returnWord ++ opt (rule expression) ++ mark .semicolon
  | whileStmt =>
    word .whileWord ++ mark .leftParen ++ rule expression ++ mark .rightParen ++ rule statement
  | block => mark .leftBrace ++ many (rule declaration) ++ mark .rightBrace
  | parameters => commaList identifier
  | expression => rule assignment
  | assignment =>
    opt (rule call ++ mark .dot) ++ identifier ++ mark .equal ++ rule assignment ||| rule logicOr
  | logicOr => rule logicAnd ++ many (word .orWord ++ rule logicAnd)
  | logicAnd => rule ternary ++ many (word .andWord ++ rule ternary)
  | ternary =>
    rule equality ++ opt (mark .question ++ rule equality ++ mark .colon ++ rule ternary)
  | equality =>
    rule comparison ++ many ((mark .bangEqual ||| mark .equalEqual) ++ rule comparison)
  | comparison =>
    rule term ++ many ((mark .greater ||| mark .greaterEqual ||| mark .less ||| mark .lessEqual) ++
      rule term)
  | term => rule factor ++ many ((mark .minus ||| mark .plus) ++ rule factor)
  | factor => rule unary ++ many ((mark .slash ||| mark .star) ++ rule unary)
  | unary => (mark .bang ||| mark .minus) ++ rule unary ||| rule call
  | call =>
    rule primary ++ many (mark .leftParen ++ opt (rule arguments) ++ mark .rightParen |||
      mark .dot ++ identifier)
  | arguments => commaList (rule expression)
  | primary =>
    terminal .number ||| terminal .string ||| word .trueWord ||| word .falseWord |||
      word .nilWord ||| word .thisWord ||| identifier |||
      mark .leftParen ++ rule expression ++ mark .rightParen |||
      word .superWord ++ mark .dot ++ identifier

/-- The texts that can be derived from a right side. -/
inductive Derives : Ebnf → List Sign → Prop
  | terminal {s t} (h : Sign.Fits s t) : Derives (.terminal t) [s]
  | rule {r ts} (h : Derives r.body ts) : Derives (.rule r) ts
  | seq {g g' ts ts'} (h : Derives g ts) (h' : Derives g' ts') : Derives (.seq g g') (ts ++ ts')
  | first {g g' ts} (h : Derives g ts) : Derives (.alt g g') ts
  | second {g g' ts} (h : Derives g' ts) : Derives (.alt g g') ts
  | repeated {limit g} (parts : List (List Sign)) (h : ∀ p ∈ parts, Derives g p)
      (hl : ∀ n ∈ limit, parts.length ≤ n) : Derives (.repeated limit g) parts.flatten

/-- The texts of a right side when those of the rules in it are given. -/
def Ebnf.Means (texts : Rule → List Sign → Prop) : Ebnf → List Sign → Prop
  | terminal t, ts => ∃ s, ts = [s] ∧ s.Fits t
  | rule r, ts => texts r ts
  | seq g g', ts => ∃ us vs, ts = us ++ vs ∧ g.Means texts us ∧ g'.Means texts vs
  | alt g g', ts => g.Means texts ts ∨ g'.Means texts ts
  | repeated limit g, ts => ∃ parts : List (List Sign), ts = parts.flatten ∧
    (∀ p ∈ parts, g.Means texts p) ∧ ∀ n ∈ limit, parts.length ≤ n

/-- If all texts of the right side of each rule are texts of the rule, then so are all texts that
can be derived. -/
theorem Derives.means {texts : Rule → List Sign → Prop}
    (closed : ∀ r ts, (r.body).Means texts ts → texts r ts) {g : Ebnf} {ts : List Sign}
    (h : Derives g ts) : g.Means texts ts := by
  induction h with
  | terminal h => exact ⟨_, rfl, h⟩
  | rule _ ih => exact closed _ _ ih
  | seq _ _ ih ih' => exact ⟨_, _, rfl, ih, ih'⟩
  | first _ ih => exact .inl ih
  | second _ ih => exact .inr ih
  | repeated parts _ hl ih => exact ⟨parts, rfl, ih, hl⟩

/-- What a right side means when its rules derive their texts, it derives. -/
theorem Derives.of_means {g : Ebnf} {ts : List Sign}
    (h : g.Means (fun r ts => Derives (.rule r) ts) ts) : Derives g ts := by
  induction g generalizing ts with
  | terminal t =>
    obtain ⟨s, rfl, hs⟩ := h
    exact .terminal hs
  | rule r => exact h
  | seq g g' ih ih' =>
    obtain ⟨us, vs, rfl, hg, hg'⟩ := h
    exact .seq (ih hg) (ih' hg')
  | alt g g' ih ih' =>
    rcases h with h | h
    · exact .first (ih h)
    · exact .second (ih' h)
  | repeated limit g ih =>
    obtain ⟨parts, rfl, hp, hl⟩ := h
    exact .repeated parts (fun p hp' => ih (hp p hp')) hl

theorem Derives.body_of_rule {r : Rule} {ts : List Sign} (h : Derives (.rule r) ts) :
    Derives r.body ts := by
  rcases h with _ | h
  exact h

/-- A rule derives what its right side means. -/
theorem Derives.rule_iff {r : Rule} {ts : List Sign} :
    Derives (.rule r) ts ↔ r.body.Means (fun r ts => Derives (.rule r) ts) ts := by
  constructor
  · rintro (_ | h)
    exact h.means fun r ts h => .rule (.of_means h)
  · exact fun h => .rule (.of_means h)

/-- One more repetition. -/
theorem Derives.snoc {g part : Ebnf} {ts us : List Sign} (h : Derives (g ++ .many part) ts)
    (hp : Derives part us) : Derives (g ++ .many part) (ts ++ us) := by
  change Derives (.seq g (.repeated none part)) ts at h
  rcases h with _ | _ | ⟨hg, hm⟩
  rcases hm with _ | _ | _ | _ | _ | ⟨parts, hparts, -⟩
  have hmany : Derives (.repeated none part) (parts ++ [us]).flatten := by
    refine .repeated _ (fun p hp' => ?_) nofun
    rcases List.mem_append.mp hp' with hp' | hp'
    · exact hparts p hp'
    · exact List.mem_singleton.mp hp' ▸ hp
  rw [List.append_assoc, ← List.flatten_concat]
  exact hg.seq hmany

namespace Ebnf

variable {texts : Rule → List Sign → Prop} {ts : List Sign} {g g' : Ebnf}

theorem means_mark {m : Mark} : (mark m).Means texts ts ↔ ts = [.mark m] := by
  constructor
  · rintro ⟨s, rfl, hs⟩
    cases s with
    | mark m' => rw [show m' = m from hs]
    | _ => exact hs.elim
  · rintro rfl
    exact ⟨_, rfl, rfl⟩

theorem means_word {k : Keyword} : (word k).Means texts ts ↔ ts = [.keyword k] := by
  constructor
  · rintro ⟨s, rfl, hs⟩
    cases s with
    | keyword k' => rw [show k' = k from hs]
    | _ => exact hs.elim
  · rintro rfl
    exact ⟨_, rfl, rfl⟩

theorem means_identifier : identifier.Means texts ts ↔ ∃ name : Name, ts = [name.sign] := by
  constructor
  · rintro ⟨s, rfl, hs⟩
    cases s with
    | name text => exact ⟨⟨text, 0⟩, rfl⟩
    | _ => exact hs.elim
  · rintro ⟨name, rfl⟩
    exact ⟨_, rfl, trivial⟩

theorem means_opt : (opt g).Means texts ts ↔ ts = [] ∨ g.Means texts ts := by
  constructor
  · rintro ⟨parts, rfl, hp, hl⟩
    rcases parts with _ | ⟨p, _ | ⟨q, parts⟩⟩
    · exact .inl rfl
    · exact .inr (by simpa using hp p)
    · exact absurd (hl 1 rfl) (by simp)
  · rintro (rfl | h)
    · exact ⟨[], rfl, by simp, by simp⟩
    · exact ⟨[ts], by simp, by simpa using h, by simp⟩

theorem means_many : (many g).Means texts ts ↔
    ∃ parts : List (List Sign), ts = parts.flatten ∧ ∀ p ∈ parts, g.Means texts p := by
  constructor
  · rintro ⟨parts, rfl, hp, -⟩
    exact ⟨parts, rfl, hp⟩
  · rintro ⟨parts, rfl, hp⟩
    exact ⟨parts, rfl, hp, nofun⟩

/-- A list with commas consists of one to `maxArguments` parts. -/
theorem means_commaList : (commaList g).Means texts ts ↔
    ∃ parts : List (List Sign), ts = separated parts ∧ parts ≠ [] ∧ parts.length ≤ maxArguments ∧
      ∀ p ∈ parts, g.Means texts p := by
  constructor
  · rintro ⟨us, _, rfl, hus, parts, rfl, hp, hl⟩
    have hlen := hl (maxArguments - 1) rfl
    clear hl
    have hrest : ∃ rest : List (List Sign), us ++ parts.flatten = separated (us :: rest) ∧
        rest.length = parts.length ∧ ∀ p ∈ rest, g.Means texts p := by
      clear hlen
      induction parts generalizing us with
      | nil => exact ⟨[], by simp, rfl, by simp⟩
      | cons p parts ih =>
        obtain ⟨_, vs, rfl, hcomma, hvs⟩ := hp p List.mem_cons_self
        obtain rfl := means_mark.mp hcomma
        obtain ⟨rest, heq, hlen, hrest⟩ := ih vs hvs fun q hq => hp q (List.mem_cons_of_mem _ hq)
        refine ⟨vs :: rest, ?_, by simp [hlen], List.forall_mem_cons.mpr ⟨hvs, hrest⟩⟩
        rw [separated, List.intercalate_cons_cons, ← separated, ← heq]
        simp
    obtain ⟨rest, heq, hrlen, hrest⟩ := hrest
    refine ⟨us :: rest, heq, List.cons_ne_nil _ _, ?_, List.forall_mem_cons.mpr ⟨hus, hrest⟩⟩
    simp only [List.length_cons, hrlen]
    have : 0 < maxArguments := by decide
    omega
  · rintro ⟨parts, rfl, hne, hlen, hp⟩
    obtain ⟨us, rest, rfl⟩ := List.exists_cons_of_ne_nil hne
    refine ⟨us, (rest.map (.mark .comma :: ·)).flatten, ?_, hp us List.mem_cons_self,
      rest.map (.mark .comma :: ·), rfl, ?_, ?_⟩
    · clear hlen hp hne
      induction rest generalizing us with
      | nil => simp
      | cons vs rest ih =>
        rw [separated, List.intercalate_cons_cons, ← separated, ih vs]
        simp
    · intro p hp'
      obtain ⟨vs, hvs, rfl⟩ := List.mem_map.mp hp'
      exact ⟨[.mark .comma], vs, rfl, means_mark.mpr rfl, hp vs (List.mem_cons_of_mem _ hvs)⟩
    · rintro n ⟨⟩
      simp only [List.length_cons, List.length_map] at hlen ⊢
      omega

end Ebnf

end Treewalk
