import Treewalk.Proofs.Syntax.Drafts.Drafter

/-!
# Trails of drafters

Places order everything on a trail. What a drafter notes about lists that are too long, and the places
of what it lists, lie between where it ends and where it began. So behind it the faults noted at a place
stay as they were, and ahead of it nothing is noted.

A list of arguments or parameters may have a fault noted at the very place where it begins, or where it
goes on after a comma. But a token has been taken just before, so what is noted there belongs to no
other list. The places of all members of all listings differ, and at each of them the faults of lists
that are too long are those of its own list.

## Main definitions

* `faultsAt`, `ReportedFrom`, `Listing.IsReported`: the faults of lists that are too long.
* `Trail.Sound`, `Trail.Leads`: trails from which drafters begin, and what they do to them.
* `Trail.Marks`: the places of the members of a list.

## Main results

* `Trail.Marks.cons`: a member and those after it.
* `Trail.Marks.sound_listing`: a list is listed.
-/

namespace Treewalk

/-! ### Lists that are too long -/

/-- Whether a fault is that of a list that is too long. -/
def SyntaxFault.isTooMany : SyntaxFault → Bool
  | tooManyParameters | tooManyArguments => true
  | _ => false

/-- The faults of lists that are too long, as far as they are noted at a place. -/
def faultsAt (noted : List Noted) (place : Nat) : List SyntaxFault :=
  ((noted.filter (·.place == place)).map (·.error.fault)).filter SyntaxFault.isTooMany

/-- A fault is noted, once, at the place of every member of a list that is too many, and at those of
the others none; `count` members stand before the ones that begin at the given places. -/
def ReportedFrom (noted : List Noted) (fault : SyntaxFault) (count : Nat) (starts : List Nat) : Prop :=
  ∀ k place, starts[k]? = some place →
    faultsAt noted place = if maxArguments ≤ count + k then [fault] else []

/-- The faults noted at the places of a listing are just those that it gives rise to. -/
def Listing.IsReported (noted : List Noted) (l : Listing) : Prop :=
  ∃ fault, l.node.list? = some (fault, l.starts.length) ∧ ReportedFrom noted fault 0 l.starts

section Places

variable {noted noted' : List Noted} {fault : SyntaxFault} {count place : Nat} {starts : List Nat}
  {e : SyntaxError} {l : Listing}

theorem faultsAt_append : faultsAt (noted ++ noted') place =
    faultsAt noted place ++ faultsAt noted' place := by
  simp [faultsAt]

theorem faultsAt_singleton : faultsAt [⟨count, e⟩] place =
    if count = place ∧ e.fault.isTooMany then [e.fault] else [] := by
  by_cases hplace : count = place <;> by_cases hfault : e.fault.isTooMany <;>
    simp [faultsAt, hplace, hfault]

theorem faultsAt_append_of_ne (h : place ≠ count) :
    faultsAt (noted ++ [⟨count, e⟩]) place = faultsAt noted place := by
  rw [faultsAt_append, faultsAt_singleton, if_neg fun h' => h h'.1.symm, List.append_nil]

theorem faultsAt_append_of_not (h : e.fault.isTooMany = false) :
    faultsAt (noted ++ [⟨count, e⟩]) place = faultsAt noted place := by
  simp [faultsAt_append, faultsAt_singleton, h]

namespace ReportedFrom

theorem nil : ReportedFrom noted fault count [] :=
  fun _ _ h => by simp at h

theorem cons (h : faultsAt noted place = if maxArguments ≤ count then [fault] else [])
    (hs : ReportedFrom noted fault (count + 1) starts) :
    ReportedFrom noted fault count (place :: starts) := by
  intro k place' hk
  cases k with
  | zero =>
    obtain rfl : place = place' := by simpa using hk
    simpa using h
  | succ k =>
    rw [hs k place' (by simpa using hk), Nat.add_assoc, Nat.add_comm 1 k]

/-- Only what is noted at the places of the members matters. -/
theorem congr (h : ReportedFrom noted fault count starts)
    (heq : ∀ place ∈ starts, faultsAt noted' place = faultsAt noted place) :
    ReportedFrom noted' fault count starts :=
  fun k place hk => (heq place (List.mem_of_getElem? hk)).trans (h k place hk)

end ReportedFrom

theorem Listing.IsReported.congr (h : l.IsReported noted)
    (heq : ∀ place ∈ l.starts, faultsAt noted' place = faultsAt noted place) :
    l.IsReported noted' :=
  let ⟨fault, hlist, hreported⟩ := h
  ⟨fault, hlist, hreported.congr heq⟩

end Places

/-! ### Trails -/

namespace Trail

/-- A trail from which a drafter begins that stays below a place. There no list is noted to be too long;
the listings are not there, their places differ, and their faults are noted. -/
structure Sound (tokens : List Token) (bound : Nat) (s : Trail) : Prop where
  rest : s.cursor.rest <:+ tokens
  errors : s.noted.map Noted.error = s.cursor.errors
  ahead : ∀ place < bound, faultsAt s.noted place = []
  behind : ∀ l ∈ s.listings, ∀ place ∈ l.starts, bound ≤ place
  reported : ∀ l ∈ s.listings, l.IsReported s.noted
  distinct : (s.listings.flatMap Listing.starts).Nodup

/-- A drafter that stays below a place leads from a trail to another one: it goes on, and what it notes
about lists that are too long, and what it lists, is below that place. -/
structure Leads (bound : Nat) (s s' : Trail) : Prop where
  rest : s'.cursor.rest <:+ s.cursor.rest
  listings : s.listings ⊆ s'.listings
  behind : ∀ place, bound ≤ place → faultsAt s'.noted place = faultsAt s.noted place
  ahead : ∀ l ∈ s'.listings, l ∈ s.listings ∨ ∀ place ∈ l.starts, place < bound

/-- The trail after some tokens have been taken and some numbers drawn. -/
def onward (s : Trail) (rest : List Token) (nextId : Nat) : Trail :=
  { s with cursor := ⟨rest, s.cursor.errors, nextId⟩ }

/-- The trail after a fault has been noted. -/
def noting (s : Trail) (e : SyntaxError) : Trail :=
  { s with
    cursor := { s.cursor with errors := s.cursor.errors ++ [e] }
    noted := s.noted ++ [⟨s.place, e⟩] }

/-- The trail after a call or a declaration has been listed. -/
def listing (s : Trail) (node : DraftNode) (starts : List Nat) : Trail :=
  { s with listings := s.listings ++ [⟨node, starts⟩] }

variable {tokens : List Token} {bound bound' : Nat} {s s' s'' : Trail} {rest : List Token}
  {nextId : Nat} {t : Token} {e : SyntaxError}

theorem moveTo_of_errors {c : Cursor} (h : c.errors = s.cursor.errors) :
    s.moveTo c = s.onward c.rest c.nextId := by
  simp [moveTo, onward, ← h]

theorem place_onward_lt (hrest : s.cursor.rest = t :: rest) : (s.onward rest nextId).place < s.place := by
  simp [place, onward, hrest]

namespace Leads

theorem refl (s : Trail) : s.Leads bound s :=
  ⟨List.suffix_refl _, List.Subset.refl _, fun _ _ => rfl, fun _ => .inl⟩

theorem place_le (h : s.Leads bound s') : s'.place ≤ s.place :=
  h.rest.length_le

theorem trans (h : s.Leads bound s') (h' : s'.Leads bound s'') : s.Leads bound s'' where
  rest := h'.rest.trans h.rest
  listings := List.Subset.trans h.listings h'.listings
  behind place hplace := (h'.behind place hplace).trans (h.behind place hplace)
  ahead l hl := (h'.ahead l hl).elim (h.ahead l) .inr

theorem mono (h : s.Leads bound s') (hbound : bound ≤ bound') : s.Leads bound' s' where
  rest := h.rest
  listings := h.listings
  behind place hplace := h.behind place (hbound.trans hplace)
  ahead l hl := (h.ahead l hl).imp_right fun h place hplace => (h place hplace).trans_le hbound

theorem onward (hrest : rest <:+ s.cursor.rest) : s.Leads bound (s.onward rest nextId) :=
  ⟨hrest, List.Subset.refl _, fun _ _ => rfl, fun _ => .inl⟩

theorem taken (hrest : s.cursor.rest = t :: rest) : s.Leads bound (s.onward rest nextId) :=
  .onward (hrest ▸ List.suffix_cons t rest)

theorem noting (he : e.fault.isTooMany = false) : s.Leads bound (s.noting e) :=
  ⟨List.suffix_refl _, List.Subset.refl _, fun _ _ => faultsAt_append_of_not he, fun _ => .inl⟩

/-- A place that is in no listing before the drafter begins there is in none after it. -/
theorem not_mem_starts (h : s.Leads s.place s') (hs : ∀ l ∈ s.listings, s.place ∉ l.starts) :
    ∀ l ∈ s'.listings, s.place ∉ l.starts := fun l hl hmem =>
  (h.ahead l hl).elim (fun hl => hs l hl hmem) fun hlt => Nat.lt_irrefl _ (hlt _ hmem)

end Leads

namespace Sound

theorem mono (h : s.Sound tokens bound) (hbound : bound' ≤ bound) : s.Sound tokens bound' where
  rest := h.rest
  errors := h.errors
  ahead place hplace := h.ahead place (hplace.trans_le hbound)
  behind l hl place hplace := hbound.trans (h.behind l hl place hplace)
  reported := h.reported
  distinct := h.distinct

theorem onward (h : s.Sound tokens bound) (hrest : rest <:+ s.cursor.rest) :
    (s.onward rest nextId).Sound tokens bound :=
  { h with rest := hrest.trans h.rest }

theorem taken (h : s.Sound tokens bound) (hrest : s.cursor.rest = t :: rest) :
    (s.onward rest nextId).Sound tokens bound :=
  h.onward (hrest ▸ List.suffix_cons t rest)

/-- A fault is noted that is not that of a list. -/
theorem noting (h : s.Sound tokens bound) (he : e.fault.isTooMany = false) :
    (s.noting e).Sound tokens bound where
  rest := h.rest
  errors := by simp [Trail.noting, h.errors]
  ahead place hplace := (faultsAt_append_of_not he).trans (h.ahead place hplace)
  behind := h.behind
  reported l hl := (h.reported l hl).congr fun _ _ => faultsAt_append_of_not he
  distinct := h.distinct

theorem mem_tokens (h : s.Sound tokens bound) (hrest : s.cursor.rest = t :: rest) : t ∈ tokens :=
  h.rest.subset (hrest ▸ List.mem_cons_self)

/-- Where a token has just been taken, no listing has a place and no list is noted to be too long. -/
theorem noting_here (h : s.Sound tokens bound) (hplace : s.place < bound) :
    (s.noting e).Sound tokens s.place := by
  have hother {place : Nat} (hne : place ≠ s.place) :
      faultsAt (s.noting e).noted place = faultsAt s.noted place := faultsAt_append_of_ne hne
  refine ⟨h.rest, by simp [Trail.noting, h.errors], fun place hlt => ?_, fun l hl place hmem => ?_,
    fun l hl => (h.reported l hl).congr fun place hmem => ?_, h.distinct⟩
  · rw [hother (Nat.ne_of_lt hlt)]
    exact h.ahead place (hlt.trans hplace)
  · exact hplace.le.trans (h.behind l hl place hmem)
  · exact hother (Nat.ne_of_gt (hplace.trans_le (h.behind l hl place hmem)))

end Sound

/-! ### Members of a list -/

/-- The places of members of a list that have been read, after `count` others. They are below the place
where the list began, and they differ from each other and from the places of all listings. -/
structure Marks (bound : Nat) (fault : SyntaxFault) (count : Nat) (starts : List Nat) (s : Trail) :
    Prop where
  reported : ReportedFrom s.noted fault count starts
  behind : ∀ place ∈ starts, s.place ≤ place
  below : ∀ place ∈ starts, place < bound
  distinct : starts.Nodup
  apart : ∀ l ∈ s.listings, List.Disjoint l.starts starts

namespace Marks

variable {fault : SyntaxFault} {count : Nat} {starts : List Nat}

theorem nil : Marks bound fault count [] s :=
  ⟨.nil, by simp, by simp, .nil, by simp⟩

/-- What comes after the members lies ahead of them. -/
theorem leads (h : Marks bound fault count starts s) (hleads : s.Leads s.place s') :
    Marks bound fault count starts s' where
  reported := h.reported.congr fun place hplace => hleads.behind place (h.behind place hplace)
  behind place hplace := hleads.place_le.trans (h.behind place hplace)
  below := h.below
  distinct := h.distinct
  apart l hl := by
    rcases hleads.ahead l hl with hl | hlt
    · exact h.apart l hl
    · exact fun place hmem hmem' => Nat.lt_irrefl _ ((hlt place hmem).trans_le (h.behind place hmem'))

/-- A member is read from where it begins on, and the members after it lie ahead of it. -/
theorem cons (hs : ∀ l ∈ s.listings, s.place ∉ l.starts) (hbound : s.place < bound)
    (hnoted : faultsAt s.noted s.place = if maxArguments ≤ count then [fault] else [])
    (hleads : s.Leads s.place s') (h : Marks bound' fault (count + 1) starts s')
    (hbound' : bound' ≤ s.place) : Marks bound fault count (s.place :: starts) s' where
  reported := .cons ((hleads.behind _ (Nat.le_refl _)).trans hnoted) h.reported
  behind := List.forall_mem_cons.mpr ⟨hleads.place_le, h.behind⟩
  below := List.forall_mem_cons.mpr
    ⟨hbound, fun place hplace => (h.below place hplace).trans (hbound'.trans_lt hbound)⟩
  distinct := List.nodup_cons.mpr
    ⟨fun hmem => Nat.lt_irrefl _ ((h.below _ hmem).trans_le hbound'), h.distinct⟩
  apart l hl := List.disjoint_cons_right.mpr ⟨hleads.not_mem_starts hs l hl, h.apart l hl⟩

/-- A list that has been read is listed. -/
theorem sound_listing {node : DraftNode} (h : Marks bound fault 0 starts s)
    (hs : s.Sound tokens s.place) (hlist : node.list? = some (fault, starts.length)) :
    (s.listing node starts).Sound tokens s.place where
  rest := hs.rest
  errors := hs.errors
  ahead := hs.ahead
  behind l hl := by
    rcases List.mem_append.mp hl with hl | hl
    · exact hs.behind l hl
    · obtain rfl := List.mem_singleton.mp hl
      exact h.behind
  reported l hl := by
    rcases List.mem_append.mp hl with hl | hl
    · exact hs.reported l hl
    · obtain rfl := List.mem_singleton.mp hl
      exact ⟨fault, hlist, h.reported⟩
  distinct := by
    rw [listing, List.flatMap_append, List.flatMap_singleton, List.nodup_append']
    refine ⟨hs.distinct, h.distinct, fun place hmem => ?_⟩
    obtain ⟨l, hl, hmem⟩ := List.mem_flatMap.mp hmem
    exact h.apart l hl hmem

theorem leads_listing {node : DraftNode} (h : Marks bound fault 0 starts s) :
    s.Leads bound (s.listing node starts) where
  rest := List.suffix_refl _
  listings := List.subset_append_left _ _
  behind _ _ := rfl
  ahead l hl := by
    rcases List.mem_append.mp hl with hl | hl
    · exact .inl hl
    · obtain rfl := List.mem_singleton.mp hl
      exact .inr h.below

end Marks

end Trail

end Treewalk
