/-
  Workflows.Proofs.Catalog.History — what a catalog holds after any sequence of edits.

  An edit that is not refused changes one entry (`perform_eq_ok`), and `Refuses` lists all that is
  refused, which changes nothing. A history keeps the changes beside the catalog; they carry the
  definitions as they were submitted. The entry under an id is what the last creation under it
  and the updates since come to (`entryOf`), however often the id was deleted and created before:
  the submitted ids, versions and times do not matter. Generated ids are not blank, so no entry
  stands under a blank id.

  Versions are counted here without a bound and by the program in 32 bits. None is greater than the
  number of changes (`Chronicled.bounded`), so the law is the program's for fewer than 2 ^ 32 changes.
-/

import Workflows.Catalog.Basic
import Workflows.Proofs.Keyed

namespace Workflows.Catalog

/-- A call that may change a catalog. What comes without an id gets one made from the seed. -/
inductive Edit where
  | create (seed : Nat) (now : Instant) (d : Definition)
  | importDocument (seed : Nat) (now : Instant) (document : Json)
  | update (id : String) (now : Instant) (d : Definition)
  | delete (id : String)

/-- What is done to one entry, with the definition that was submitted. -/
inductive Change where
  | created (id : String) (now : Instant) (d : Definition)
  | updated (id : String) (now : Instant) (d : Definition)
  | deleted (id : String)

def Change.id : Change → String
  | .created id _ _ => id
  | .updated id _ _ => id
  | .deleted id => id

/-- The id under which a definition is created. -/
def idFor (seed : Nat) (d : Definition) : String := (requestedId? d).getD (generatedId seed)

/-- The change that a call asks for; none if its document cannot be read. -/
def Edit.change? : Edit → Option Change
  | .create seed now d => some (.created (idFor seed d) now d)
  | .importDocument seed now document =>
    (Definition.ofJson document).toOption.map fun d => .created (idFor seed d) now d
  | .update id now d => some (.updated id now d)
  | .delete id => some (.deleted id)

def Edit.perform (c : Catalog) : Edit → Except Failure Catalog
  | .create seed now d => (c.create (generatedId seed) now d).map (·.1)
  | .importDocument seed now document => (c.importDocument (generatedId seed) now document).map (·.1)
  | .update id now d => (c.update id now d).map (·.1)
  | .delete id => c.delete id

/-- A catalog and the changes that led to it. -/
structure History where
  catalog : Catalog := {}
  changes : List Change := []

/-- What is refused leaves everything as it was. -/
def History.after (h : History) (edit : Edit) : History :=
  match edit.perform h.catalog with
  | .ok c => ⟨c, h.changes ++ edit.change?.toList⟩
  | .error _ => h

/-- A history from an empty catalog. -/
def History.of (edits : List Edit) : History := edits.foldl History.after {}

/-- What a change makes of a catalog. -/
inductive Applies (c : Catalog) : Change → Catalog → Prop
  | created {id : String} {now : Instant} {d : Definition} (hnew : Keyed.get? c.entries id = none) :
      Applies c (.created id now d)
        ⟨Keyed.insert c.entries id { d with id := some id, version := 1, createdAt := some now, updatedAt := some now }⟩
  | updated {id : String} {now : Instant} {d old : Definition} (hold : Keyed.get? c.entries id = some old) :
      Applies c (.updated id now d)
        ⟨Keyed.insert c.entries id
          { d with id := some id, version := old.version + 1, createdAt := old.createdAt, updatedAt := some now }⟩
  | deleted {id : String} {old : Definition} (hold : Keyed.get? c.entries id = some old) :
      Applies c (.deleted id) ⟨Keyed.erase c.entries id⟩

/-- What a catalog refuses, and with which failure. -/
inductive Refuses (c : Catalog) : Edit → Failure → Prop
  | taken {seed : Nat} {now : Instant} {d old : Definition} (h : Keyed.get? c.entries (idFor seed d) = some old) :
      Refuses c (.create seed now d) (.duplicate s!"Workflow '{idFor seed d}'")
  | unreadable {seed : Nat} {now : Instant} {document : Json} {m : Mismatch} (h : Definition.ofJson document = .error m) :
      Refuses c (.importDocument seed now document) (.document (.mismatch m))
  | importTaken {seed : Nat} {now : Instant} {document : Json} {d old : Definition}
      (hread : Definition.ofJson document = .ok d) (h : Keyed.get? c.entries (idFor seed d) = some old) :
      Refuses c (.importDocument seed now document) (.duplicate s!"Workflow '{idFor seed d}'")
  | updateMissing {id : String} {now : Instant} {d : Definition} (h : Keyed.get? c.entries id = none) :
      Refuses c (.update id now d) (.workflowNotFound id)
  | deleteMissing {id : String} (h : Keyed.get? c.entries id = none) : Refuses c (.delete id) (.workflowNotFound id)

variable {c c' : Catalog} {edit : Edit} {change : Change} {f : Failure} {id x : String} {now created : Instant}
  {d first old : Definition} {seed : Nat}

/-! ## One edit -/

theorem get_eq_ok : c.get id = .ok d ↔ Keyed.get? c.entries id = some d := by
  rw [get]
  cases Keyed.get? c.entries id <;> simp

theorem get_congr (h : Keyed.get? c'.entries x = Keyed.get? c.entries x) : c'.get x = c.get x := by
  rw [get, get, h]

/-- A definition is stored under the id that is found for it, unless it is taken. -/
theorem perform_create : (Edit.create seed now d).perform c =
    match Keyed.get? c.entries (idFor seed d) with
    | some _ => .error (.duplicate s!"Workflow '{idFor seed d}'")
    | none => .ok ⟨Keyed.insert c.entries (idFor seed d)
        { d with id := some (idFor seed d), version := 1, createdAt := some now, updatedAt := some now }⟩ := by
  simp only [Edit.perform, create, Keyed.contains_eq]
  rw [show (requestedId? d).getD (generatedId seed) = idFor seed d from rfl]
  cases Keyed.get? c.entries (idFor seed d) <;> rfl

theorem perform_import {document : Json} : (Edit.importDocument seed now document).perform c =
    match Definition.ofJson document with
    | .ok d => (Edit.create seed now d).perform c
    | .error m => .error (.document (.mismatch m)) := by
  simp only [Edit.perform, importDocument]
  cases Definition.ofJson document <;> rfl

theorem perform_update : (Edit.update id now d).perform c =
    match Keyed.get? c.entries id with
    | some old => .ok ⟨Keyed.insert c.entries id
        { d with id := some id, version := old.version + 1, createdAt := old.createdAt, updatedAt := some now }⟩
    | none => .error (.workflowNotFound id) := by
  simp only [Edit.perform, update, get, bind, Except.bind]
  cases Keyed.get? c.entries id <;> rfl

theorem perform_delete : (Edit.delete id).perform c =
    match Keyed.get? c.entries id with
    | some _ => .ok ⟨Keyed.erase c.entries id⟩
    | none => .error (.workflowNotFound id) := by
  simp only [Edit.perform, delete, get, bind, Except.bind]
  cases Keyed.get? c.entries id <;> rfl

theorem applies_of_perform (h : edit.perform c = .ok c') : ∃ change, edit.change? = some change ∧ Applies c change c' := by
  have hcreate : ∀ {seed now d}, (Edit.create seed now d).perform c = .ok c' →
      Applies c (.created (idFor seed d) now d) c' := by
    intro seed now d h
    rw [perform_create] at h
    split at h
    next => cases h
    next hnew => cases h; exact .created hnew
  cases edit with
  | create seed now d => exact ⟨_, rfl, hcreate h⟩
  | importDocument seed now document =>
    rw [perform_import] at h
    cases hread : Definition.ofJson document with
    | error m => rw [hread] at h; cases h
    | ok d =>
      rw [hread] at h
      exact ⟨_, by rw [Edit.change?, hread]; rfl, hcreate h⟩
  | update id now d =>
    rw [perform_update] at h
    split at h
    next old hold => cases h; exact ⟨_, rfl, .updated hold⟩
    next => cases h
  | delete id =>
    rw [perform_delete] at h
    split at h
    next old hold => cases h; exact ⟨_, rfl, .deleted hold⟩
    next => cases h

/-- What is refused is exactly what `Refuses` lists. -/
theorem perform_eq_error : edit.perform c = .error f ↔ Refuses c edit f := by
  constructor
  · intro h
    cases edit with
    | create seed now d =>
      rw [perform_create] at h
      split at h
      next hold => cases h; exact .taken hold
      next => cases h
    | importDocument seed now document =>
      rw [perform_import] at h
      cases hread : Definition.ofJson document with
      | error m => rw [hread] at h; cases h; exact .unreadable hread
      | ok d =>
        rw [hread] at h
        dsimp only at h
        rw [perform_create] at h
        split at h
        next hold => cases h; exact .importTaken hread hold
        next => cases h
    | update id now d =>
      rw [perform_update] at h
      split at h
      next => cases h
      next hnone => cases h; exact .updateMissing hnone
    | delete id =>
      rw [perform_delete] at h
      split at h
      next => cases h
      next hnone => cases h; exact .deleteMissing hnone
  · intro h
    cases h with
    | taken hold => rw [perform_create, hold]
    | unreadable hread => rw [perform_import, hread]
    | importTaken hread hold =>
      rw [perform_import, hread]
      dsimp only
      rw [perform_create, hold]
    | updateMissing hnone => rw [perform_update, hnone]
    | deleteMissing hnone => rw [perform_delete, hnone]

/-- A change is made to one entry. -/
theorem Applies.get?_ne (h : Applies c change c') (hx : x ≠ change.id) :
    Keyed.get? c'.entries x = Keyed.get? c.entries x := by
  cases h with
  | created | updated => exact Keyed.get?_insert_ne _ _ hx
  | deleted => exact (Keyed.get?_erase _ _ _).trans (if_neg hx)

theorem Applies.sorted (h : Applies c change c') (hs : Keyed.Sorted c.entries) : Keyed.Sorted c'.entries := by
  cases h with
  | created | updated => exact Keyed.sorted_insert hs _ _
  | deleted => exact Keyed.sorted_erase hs _

/-! ## Ids -/

theorem isBlank_generatedId (n : Nat) : Text.isBlank (generatedId n) = false := by
  have hfirst : (generatedId n).toList.head? = some 'w' := by
    simp [generatedId, String.toList_append]
  cases hchars : (generatedId n).toList with
  | nil => rw [hchars] at hfirst; cases hfirst
  | cons ch rest =>
    rw [hchars] at hfirst
    cases hfirst
    rw [Text.isBlank, hchars, List.all_cons]
    rfl

theorem isBlank_idFor (seed : Nat) (d : Definition) : Text.isBlank (idFor seed d) = false := by
  unfold idFor
  cases hrequested : requestedId? d with
  | none => exact isBlank_generatedId seed
  | some id =>
    obtain ⟨-, hblank⟩ := Option.filter_eq_some_iff.mp hrequested
    simpa using hblank

/-! ## The entry under an id -/

/-- The definitions that an id was updated to, with the times. -/
def updatesOf (id : String) (changes : List Change) : List (Instant × Definition) :=
  changes.filterMap fun
    | .updated x now d => if x = id then some (now, d) else none
    | _ => none

/-- What a creation and the updates since come to. -/
def entryOf (id : String) (created : Instant) (first : Definition) (updates : List (Instant × Definition)) : Definition :=
  let last := updates.getLastD (created, first)
  { last.2 with id := some id, version := updates.length + 1, createdAt := some created, updatedAt := some last.1 }

/-- An id was last created with a definition, and since then updated at most. -/
structure LastCreated (changes : List Change) (id : String) (created : Instant) (first : Definition)
    (since : List Change) : Prop where
  split : ∃ before, changes = before ++ .created id created first :: since
  going : ∀ change ∈ since, change.id = id → ∃ now d, change = .updated id now d

/-- The entry that changes leave under an id. -/
def Tells (changes : List Change) (id : String) (d : Definition) : Prop :=
  ∃ created first since, LastCreated changes id created first since ∧ d = entryOf id created first (updatesOf id since)

variable {changes since : List Change}

theorem updatesOf_append (id : String) (changes : List Change) (change : Change) :
    updatesOf id (changes ++ [change]) = updatesOf id changes ++ updatesOf id [change] := List.filterMap_append

theorem updatesOf_of_ne (h : change.id ≠ id) : updatesOf id [change] = [] := by
  cases change with
  | updated x now d => exact List.filterMap_cons_none (if_neg h)
  | created | deleted => rfl

/-- The next update counts one up and keeps the time of the creation. -/
theorem entryOf_append (updates : List (Instant × Definition)) :
    entryOf id created first (updates ++ [(now, d)]) =
      { d with
        id := some id, version := (entryOf id created first updates).version + 1,
        createdAt := (entryOf id created first updates).createdAt, updatedAt := some now } := by
  simp [entryOf]

theorem LastCreated.append (h : LastCreated changes id created first since)
    (hgoing : change.id = id → ∃ now d, change = .updated id now d) :
    LastCreated (changes ++ [change]) id created first (since ++ [change]) := by
  obtain ⟨before, rfl⟩ := h.split
  refine ⟨⟨before, by simp⟩, fun other hmem hid => ?_⟩
  rcases List.mem_append.mp hmem with hmem | hmem
  · exact h.going other hmem hid
  · cases List.mem_singleton.mp hmem
    exact hgoing hid

/-- The last change is the creation, or comes after it. -/
theorem LastCreated.of_append (h : LastCreated (changes ++ [change]) id created first since) :
    since = [] ∧ change = .created id created first ∨
      ∃ between, since = between ++ [change] ∧ LastCreated changes id created first between ∧
        (change.id = id → ∃ now d, change = .updated id now d) := by
  obtain ⟨before, hsplit⟩ := h.split
  rcases List.eq_nil_or_concat since with rfl | ⟨between, last, rfl⟩
  · obtain ⟨-, hlast⟩ := List.append_inj' hsplit rfl
    cases hlast
    exact .inl ⟨rfl, rfl⟩
  · rw [List.concat_eq_append, ← List.cons_append, ← List.append_assoc] at hsplit
    obtain ⟨hchanges, hlast⟩ := List.append_inj' hsplit rfl
    cases hlast
    rw [List.concat_eq_append] at h ⊢
    refine .inr ⟨between, rfl, ⟨⟨before, hchanges⟩, fun other hmem => ?_⟩, ?_⟩
    · exact h.going other (List.mem_append_left _ hmem)
    · exact h.going change (List.mem_append_right _ List.mem_cons_self)

/-- Changes under other ids are of no account. -/
theorem tells_append_of_ne (h : change.id ≠ id) : Tells (changes ++ [change]) id d ↔ Tells changes id d := by
  constructor
  · intro htells
    obtain ⟨created, first, since, hlast, rfl⟩ := htells
    rcases hlast.of_append with ⟨-, rfl⟩ | ⟨between, rfl, hbefore, -⟩
    · exact absurd rfl h
    · refine ⟨created, first, between, hbefore, ?_⟩
      rw [updatesOf_append, updatesOf_of_ne h, List.append_nil]
  · intro htells
    obtain ⟨created, first, since, hlast, rfl⟩ := htells
    refine ⟨created, first, since ++ [change], hlast.append fun hid => absurd hid h, ?_⟩
    rw [updatesOf_append, updatesOf_of_ne h, List.append_nil]

theorem tells_created : Tells (changes ++ [.created id now first]) id d ↔ d = entryOf id now first [] := by
  constructor
  · intro htells
    obtain ⟨created, first', since, hlast, rfl⟩ := htells
    rcases hlast.of_append with ⟨rfl, hsame⟩ | ⟨between, -, -, hgoing⟩
    · cases hsame
      rfl
    · obtain ⟨now', d', hsame⟩ := hgoing rfl
      cases hsame
  · rintro rfl
    exact ⟨now, first, [], ⟨⟨changes, rfl⟩, fun _ hmem => absurd hmem List.not_mem_nil⟩, rfl⟩

theorem tells_updated {new : Definition} : Tells (changes ++ [.updated id now new]) id d ↔
    ∃ old, Tells changes id old ∧
      d = { new with id := some id, version := old.version + 1, createdAt := old.createdAt, updatedAt := some now } := by
  have hupdates : updatesOf id [.updated id now new] = [(now, new)] := List.filterMap_cons_some (if_pos rfl)
  constructor
  · intro htells
    obtain ⟨created, first, since, hlast, rfl⟩ := htells
    rcases hlast.of_append with ⟨-, hsame⟩ | ⟨between, rfl, hbefore, -⟩
    · cases hsame
    · refine ⟨_, ⟨created, first, between, hbefore, rfl⟩, ?_⟩
      rw [updatesOf_append, hupdates, entryOf_append]
  · intro hex
    obtain ⟨old, ⟨created, first, since, hlast, rfl⟩, rfl⟩ := hex
    refine ⟨created, first, _, hlast.append fun _ => ⟨now, new, rfl⟩, ?_⟩
    rw [updatesOf_append, hupdates, entryOf_append]

theorem not_tells_deleted : ¬ Tells (changes ++ [.deleted id]) id d := by
  intro htells
  obtain ⟨created, first, since, hlast, -⟩ := htells
  rcases hlast.of_append with ⟨-, hsame⟩ | ⟨between, -, -, hgoing⟩
  · cases hsame
  · obtain ⟨now, d', hsame⟩ := hgoing rfl
    cases hsame

/-- If the entries are what the changes tell, they still are after one more. -/
theorem Applies.tells (h : Applies c change c') (hstored : ∀ id d, Keyed.get? c.entries id = some d ↔ Tells changes id d)
    (id : String) (d : Definition) : Keyed.get? c'.entries id = some d ↔ Tells (changes ++ [change]) id d := by
  by_cases hid : id = change.id
  · subst hid
    cases h with
    | created hnew =>
      dsimp only [Change.id]
      rw [Keyed.get?_insert_self, Option.some.injEq, tells_created, eq_comm]
      rfl
    | @updated id now new old hold =>
      dsimp only [Change.id]
      rw [Keyed.get?_insert_self, Option.some.injEq, tells_updated, eq_comm]
      constructor
      · rintro rfl
        exact ⟨old, (hstored _ _).mp hold, rfl⟩
      · intro hex
        obtain ⟨old', hold', rfl⟩ := hex
        cases hold.symm.trans ((hstored _ _).mpr hold')
        rfl
    | deleted hold =>
      rw [Keyed.get?_erase, Change.id, if_pos rfl]
      exact iff_of_false nofun not_tells_deleted
  · rw [h.get?_ne hid, hstored, tells_append_of_ne (Ne.symm hid)]

/-! ## Whole histories -/

theorem id_of_tells (h : Tells changes id d) : d.id = some id := by
  obtain ⟨created, first, since, -, rfl⟩ := h
  rfl

/-- A version counts one creation and some of the updates. -/
theorem version_le_of_tells (h : Tells changes id d) : d.version ≤ changes.length := by
  obtain ⟨created, first, since, hlast, rfl⟩ := h
  obtain ⟨before, rfl⟩ := hlast.split
  have hupdates : (updatesOf id since).length ≤ since.length := List.length_filterMap_le _ _
  simp only [entryOf, List.length_append, List.length_cons]
  omega

/-- The entries are sorted and are what the changes tell, and nothing was created under a blank id. -/
structure History.Kept (h : History) : Prop where
  sorted : Keyed.Sorted h.catalog.entries
  stored : ∀ id d, Keyed.get? h.catalog.entries id = some d ↔ Tells h.changes id d
  named : ∀ id now d, .created id now d ∈ h.changes → Text.isBlank id = false

theorem created_of_change? (h : edit.change? = some (.created id now d)) : ∃ seed, id = idFor seed d := by
  cases edit with
  | create seed now' d' =>
    cases h
    exact ⟨seed, rfl⟩
  | importDocument seed now' document =>
    obtain ⟨d', -, hchange⟩ := Option.map_eq_some_iff.mp h
    cases hchange
    exact ⟨seed, rfl⟩
  | update | delete => cases h

theorem History.Kept.after {h : History} (hkept : h.Kept) (edit : Edit) : (h.after edit).Kept := by
  unfold History.after
  cases hperform : edit.perform h.catalog with
  | error f => exact hkept
  | ok c =>
    obtain ⟨change, hchange, happlies⟩ := applies_of_perform hperform
    rw [hchange, Option.toList_some]
    refine ⟨happlies.sorted hkept.sorted, happlies.tells hkept.stored, fun id now d hmem => ?_⟩
    rcases List.mem_append.mp hmem with hmem | hmem
    · exact hkept.named id now d hmem
    · cases List.mem_singleton.mp hmem
      obtain ⟨seed, rfl⟩ := created_of_change? hchange
      exact isBlank_idFor seed d

theorem History.kept_nil : ({} : History).Kept where
  sorted := Keyed.sorted_nil
  stored id d := by
    refine iff_of_false nofun fun htells => ?_
    obtain ⟨created, first, since, hlast, -⟩ := htells
    obtain ⟨before, hsplit⟩ := hlast.split
    exact absurd hsplit (by simp)
  named _ _ _ hmem := absurd hmem List.not_mem_nil

theorem History.kept_of (edits : List Edit) : (History.of edits).Kept :=
  List.foldlRecOn edits History.after kept_nil fun _ hkept edit _ => hkept.after edit

/-! ## The list -/

theorem listedBefore_iff {a b : Definition} :
    listedBefore a b = true ↔ a.name < b.name ∨ a.name = b.name ∧ a.key ≤ b.key := by
  unfold listedBefore
  by_cases h : a.name = b.name
  · rw [if_pos h, decide_eq_true_eq]
    refine ⟨fun hle => .inr ⟨h, hle⟩, fun hbefore => ?_⟩
    rcases hbefore with hlt | ⟨-, hle⟩
    · exact absurd (h ▸ hlt) (String.lt_irrefl _)
    · exact hle
  · simp [h]

theorem listedBefore_trans (a b c : Definition) (hab : listedBefore a b = true) (hbc : listedBefore b c = true) :
    listedBefore a c = true := by
  rw [listedBefore_iff] at *
  rcases hab with hab | ⟨hab, hkeys⟩ <;> rcases hbc with hbc | ⟨hbc, hkeys'⟩
  · exact .inl (String.lt_trans hab hbc)
  · exact .inl (hbc ▸ hab)
  · exact .inl (hab ▸ hbc)
  · exact .inr ⟨hab.trans hbc, String.le_trans hkeys hkeys'⟩

theorem listedBefore_total (a b : Definition) : (listedBefore a b || listedBefore b a) = true := by
  rw [Bool.or_eq_true, listedBefore_iff, listedBefore_iff]
  by_cases h : a.name = b.name
  · rcases String.le_total a.key b.key with hle | hle
    · exact .inl (.inr ⟨h, hle⟩)
    · exact .inr (.inr ⟨h.symm, hle⟩)
  · by_cases hlt : a.name < b.name
    · exact .inl (.inl hlt)
    · exact .inr (.inl (string_lt_of_not_lt hlt h))

section

variable (hs : Keyed.Sorted c.entries)
include hs

theorem mem_list : d ∈ c.list ↔ ∃ id, c.get id = .ok d := by
  rw [list, List.mem_mergeSort, Keyed.mem_values (nodup_of_ascending (Keyed.ascending_keys hs))]
  exact exists_congr fun id => get_eq_ok.symm

/-- Entries with keys of their own are listed once, by name and then by key. -/
theorem list_ordered (hkeys : ∀ id d, Keyed.get? c.entries id = some d → d.key = id) :
    c.list.Pairwise fun a b => a.name < b.name ∨ a.name = b.name ∧ a.key < b.key := by
  have hnodup := nodup_of_ascending (Keyed.ascending_keys hs)
  have hsame : (Keyed.values c.entries).map Definition.key = Keyed.keys c.entries := by
    rw [Keyed.values, Keyed.keys, List.map_map]
    exact List.map_congr_left fun p hp => hkeys p.1 p.2 (Keyed.get?_of_mem hnodup hp)
  have hapart : c.list.Pairwise fun a b => a.key ≠ b.key := by
    have hperm := (List.mergeSort_perm (Keyed.values c.entries) listedBefore).map Definition.key
    exact List.pairwise_map.mp (hperm.nodup_iff.mpr (hsame ▸ hnodup))
  have hsorted := List.pairwise_mergeSort listedBefore_trans listedBefore_total (Keyed.values c.entries)
  refine (hsorted.and hapart).imp fun {a b} h => ?_
  obtain ⟨hbefore, hne⟩ := h
  rcases listedBefore_iff.mp hbefore with hlt | ⟨hname, hle⟩
  · exact .inl hlt
  · by_cases hlt : a.key < b.key
    · exact .inr ⟨hname, hlt⟩
    · exact absurd (String.le_antisymm hle (String.not_lt.mp hlt)) hne

end

/-! ## What a history comes to -/

/-- What the catalog of a history holds, and what it does with the next edit. -/
structure Chronicled (h : History) : Prop where
  /-- The entry under an id is what the last creation and the updates since come to: its version
  is one more than their number, and its time of creation that of the creation. -/
  stored : ∀ id d, h.catalog.get id = .ok d ↔ ∃ created first since, LastCreated h.changes id created first since ∧
    d = entryOf id created first (updatesOf id since)
  /-- It has the id it stands under, which is not blank. -/
  named : ∀ id d, h.catalog.get id = .ok d → d.id = some id ∧ d.key = id ∧ Text.isBlank id = false
  /-- Versions are no greater than the number of changes, and so fit into 32 bits for fewer than 2 ^ 32. -/
  bounded : ∀ id d, h.catalog.get id = .ok d → d.version ≤ h.changes.length
  listed : ∀ d, d ∈ h.catalog.list ↔ ∃ id, h.catalog.get id = .ok d
  /-- By name, then by id, so that each entry is listed once. -/
  ordered : h.catalog.list.Pairwise fun a b => a.name < b.name ∨ a.name = b.name ∧ a.key < b.key
  /-- An edit is refused for one of the reasons there are, or it is the change it asks for. -/
  answered : ∀ edit, (∃ f, edit.perform h.catalog = .error f ∧ Refuses h.catalog edit f ∧ h.after edit = h) ∨
    ∃ c change, edit.perform h.catalog = .ok c ∧ edit.change? = some change ∧
      h.after edit = ⟨c, h.changes ++ [change]⟩ ∧ (∀ f, ¬ Refuses h.catalog edit f) ∧
      ∀ id, id ≠ change.id → c.get id = h.catalog.get id

/-- Whatever is created, imported, updated and deleted, and whatever ids, versions and times come
with it, the catalog holds what its changes tell. -/
theorem chronicled (edits : List Edit) : Chronicled (History.of edits) := by
  have hkept := History.kept_of edits
  generalize History.of edits = h at hkept
  have hstored : ∀ {id d}, h.catalog.get id = .ok d ↔ Tells h.changes id d := get_eq_ok.trans (hkept.stored _ _)
  have hkey : ∀ id d, Keyed.get? h.catalog.entries id = some d → d.key = id := by
    intro id d hget
    rw [Definition.key, id_of_tells ((hkept.stored id d).mp hget), Option.getD_some]
  refine
    { stored := fun id d => hstored
      named := fun id d hget => ⟨id_of_tells (hstored.mp hget), hkey id d (get_eq_ok.mp hget), ?named⟩
      bounded := fun id d hget => version_le_of_tells (hstored.mp hget)
      listed := fun d => mem_list hkept.sorted
      ordered := list_ordered hkept.sorted hkey
      answered := fun edit => ?answered }
  case named =>
    obtain ⟨created, first, since, hlast, -⟩ := hstored.mp hget
    obtain ⟨before, hsplit⟩ := hlast.split
    exact hkept.named id created first (hsplit ▸ List.mem_append_right _ List.mem_cons_self)
  case answered =>
    cases hperform : edit.perform h.catalog with
    | error f =>
      left
      exact ⟨f, rfl, perform_eq_error.mp hperform, by rw [History.after, hperform]⟩
    | ok c =>
      right
      obtain ⟨change, hchange, happlies⟩ := applies_of_perform hperform
      refine ⟨c, change, rfl, hchange, ?_, fun f hrefuses => ?_, fun id hne => get_congr (happlies.get?_ne hne)⟩
      · rw [History.after, hperform, hchange]
        rfl
      · rw [perform_eq_error.mpr hrefuses] at hperform
        cases hperform

/-- After it was deleted and created again a workflow counts from one. -/
example : let daily : Definition := { id := some "daily", version := 7, name := "Daily" }
    ((History.of [.create 0 .epoch daily, .update "daily" .epoch daily, .update "weekly" .epoch daily, .delete "daily",
      .create 1 .epoch daily, .update "daily" .epoch { daily with id := some "weekly" }]).catalog.get "daily").map (·.version) =
        .ok 2 := by rfl

end Workflows.Catalog
