/-!
# Bindings

A finite map from names, as a list of pairs in the order in which the names first appeared.

## Main definitions

* `Bindings.get?`, `Bindings.insert`: look-up and update.

## Main results

* `Bindings.get?_insert`: an update is seen at its own name and nowhere else.
-/

namespace Treewalk

/-- A finite map from names. -/
abbrev Bindings (α : Type) := List (String × α)

namespace Bindings

variable {α : Type}

/-- What a name is bound to. -/
def get? : Bindings α → String → Option α
  | [], _ => none
  | (key, value) :: rest, name => if key = name then some value else get? rest name

/-- Binds a name, in place of what it was bound to or at the end. -/
def insert : Bindings α → String → α → Bindings α
  | [], name, value => [(name, value)]
  | (key, old) :: rest, name, value =>
    if key = name then (key, value) :: rest else (key, old) :: insert rest name value

/-- Whether a name is bound. -/
def binds (b : Bindings α) (name : String) : Bool :=
  (b.get? name).isSome

/-- The bound names. -/
def names (b : Bindings α) : List String :=
  b.map (·.1)

theorem get?_insert (b : Bindings α) (name other : String) (value : α) :
    (b.insert name value).get? other = if name = other then some value else b.get? other := by
  induction b with
  | nil => rfl
  | cons p rest ih =>
    obtain ⟨key, old⟩ := p
    by_cases h : key = name
    · subst h
      by_cases h' : key = other <;> simp [insert, get?, h']
    · by_cases h' : key = other
      · subst h'
        simp [insert, get?, h, Ne.symm h]
      · simp [insert, get?, h, h', ih]

end Bindings

end Treewalk
