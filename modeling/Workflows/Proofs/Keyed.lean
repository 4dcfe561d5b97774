/-
  Workflows.Proofs.Keyed — what the operations on maps and name sets do to a lookup.

  `get?` after `insert` needs no order of the keys, so most of what follows holds of any list
  of pairs. The order matters in two places: a list built by `insert` stays `Sorted`, and two
  sorted lists with the same lookups are the same list (`ext_of_sorted`). A name set behaves
  as the set of its members.
-/

import Workflows.Data.Keyed

namespace Workflows

/-- Of two different strings the one that does not come first comes second. -/
theorem string_lt_of_not_lt {a b : String} (h : ¬ a < b) (hne : a ≠ b) : b < a := by
  by_cases hba : b < a
  · exact hba
  · exact absurd (String.le_antisymm (String.not_lt.mp hba) (String.not_lt.mp h)) hne

/-- Strings in strictly ascending order are distinct. -/
theorem nodup_of_ascending {l : List String} (h : l.Pairwise (· < ·)) : l.Nodup := by
  refine h.imp fun {a b} hlt => ?_
  intro heq
  subst heq
  exact String.lt_irrefl _ hlt

namespace Keyed

variable {α β : Type}

/-! ## Lookups -/

@[simp] theorem get?_nil (key : String) : get? ([] : Keyed α) key = none := rfl

theorem get?_cons (k key : String) (v : α) (m : Keyed α) :
    get? ((k, v) :: m) key = if key = k then some v else get? m key := by
  by_cases h : key = k
  · simp [get?, h]
  · have h' : ¬ k = key := fun e => h e.symm
    simp [get?, h, h']

theorem get?_insert (m : Keyed α) (key x : String) (v : α) :
    get? (insert m key v) x = if x = key then some v else get? m x := by
  induction m with
  | nil => simp only [insert, get?_cons]
  | cons p rest ih =>
    obtain ⟨k, w⟩ := p
    unfold insert
    by_cases hlt : key < k
    · rw [if_pos hlt, get?_cons]
    rw [if_neg hlt]
    by_cases heq : key = k
    · subst heq
      rw [if_pos rfl]
      by_cases hx : x = key <;> simp [get?_cons, hx]
    rw [if_neg heq, get?_cons, get?_cons, ih]
    by_cases hx : x = k
    · have : ¬ x = key := fun e => heq (e.symm.trans hx)
      simp [hx, Ne.symm heq]
    · simp only [hx, if_false]

@[simp] theorem get?_insert_self (m : Keyed α) (key : String) (v : α) :
    get? (insert m key v) key = some v := by rw [get?_insert, if_pos rfl]

theorem get?_insert_ne (m : Keyed α) {key x : String} (v : α) (h : x ≠ key) :
    get? (insert m key v) x = get? m x := by rw [get?_insert, if_neg h]

theorem get?_mapValues (f : α → β) (m : Keyed α) (key : String) :
    get? (mapValues f m) key = (get? m key).map f := by
  induction m with
  | nil => rfl
  | cons p rest ih =>
    obtain ⟨k, v⟩ := p
    have : mapValues f ((k, v) :: rest) = (k, f v) :: mapValues f rest := rfl
    rw [this, get?_cons, get?_cons, ih]
    by_cases h : key = k <;> simp [h]

theorem keys_mapValues (f : α → β) (m : Keyed α) : keys (mapValues f m) = keys m := by
  simp [keys, mapValues]

/-- Values that were changed are changed back. -/
theorem mapValues_mapValues_eq_self {f : α → β} {g : β → α} {m : Keyed α} (h : ∀ p ∈ m, g (f p.2) = p.2) :
    mapValues g (mapValues f m) = m := by
  rw [mapValues, mapValues, List.map_map]
  refine (List.map_congr_left fun p hp => ?_).trans (List.map_id m)
  exact Prod.ext rfl (h p hp)

theorem mapValues_insert (f : α → β) (m : Keyed α) (key : String) (v : α) :
    mapValues f (insert m key v) = insert (mapValues f m) key (f v) := by
  have hcons : ∀ (k : String) (w : α) (rest : Keyed α), mapValues f ((k, w) :: rest) = (k, f w) :: mapValues f rest :=
    fun _ _ _ => rfl
  induction m with
  | nil => rfl
  | cons p rest ih =>
    obtain ⟨k, w⟩ := p
    rw [hcons, insert, insert]
    split
    · rw [hcons, hcons]
    · split
      · rw [hcons]
      · rw [hcons, ih]

theorem mem_keys {m : Keyed α} {key : String} : key ∈ keys m ↔ (get? m key).isSome := by
  induction m with
  | nil => simp [keys]
  | cons p rest ih =>
    obtain ⟨k, v⟩ := p
    have : keys ((k, v) :: rest) = k :: keys rest := rfl
    rw [this, List.mem_cons, get?_cons, ih]
    by_cases h : key = k <;> simp [h]

theorem mem_keys_insert {m : Keyed α} {key x : String} {v : α} :
    x ∈ keys (insert m key v) ↔ x = key ∨ x ∈ keys m := by
  rw [mem_keys, mem_keys, get?_insert]
  by_cases h : x = key <;> simp [h]

theorem mem_of_get? {m : Keyed α} {key : String} {v : α} (h : get? m key = some v) : (key, v) ∈ m := by
  induction m with
  | nil => simp at h
  | cons p rest ih =>
    obtain ⟨k, w⟩ := p
    rw [get?_cons] at h
    by_cases hk : key = k
    · rw [if_pos hk] at h
      cases h; subst hk
      exact List.mem_cons_self
    · rw [if_neg hk] at h
      exact List.mem_cons_of_mem _ (ih h)

theorem get?_erase (m : Keyed α) (key x : String) : get? (erase m key) x = if x = key then none else get? m x := by
  induction m with
  | nil => simp [erase]
  | cons p rest ih =>
    obtain ⟨k, v⟩ := p
    by_cases hk : k = key
    · subst hk
      have hcons : erase ((k, v) :: rest) k = erase rest k := by simp [erase]
      rw [hcons, ih, get?_cons]
      by_cases hx : x = k <;> simp [hx]
    · have hcons : erase ((k, v) :: rest) key = (k, v) :: erase rest key := by simp [erase, hk]
      rw [hcons, get?_cons, get?_cons, ih]
      by_cases hx : x = k
      · simp [hx, hk]
      · simp only [hx, if_false]

/-- What is left after a key is erased was there before. -/
theorem get?_of_get?_erase {m : Keyed α} {key x : String} {v : α} (h : get? (erase m key) x = some v) :
    get? m x = some v := by
  rw [get?_erase] at h
  split at h
  · cases h
  · exact h

/-- The last of the pairs under a key counts, else what was there before. -/
theorem get?_insertAll (m : Keyed α) (pairs : List (String × α)) (key : String) :
    get? (insertAll m pairs) key = (get? pairs.reverse key).or (get? m key) := by
  induction pairs generalizing m with
  | nil => rfl
  | cons p rest ih =>
    obtain ⟨k, v⟩ := p
    have step : insertAll m ((k, v) :: rest) = insertAll (insert m k v) rest := rfl
    have app : get? ((k, v) :: rest).reverse key = (get? rest.reverse key).or (get? [(k, v)] key) := by
      simp only [get?, List.reverse_cons, List.find?_append]
      cases rest.reverse.find? (·.1 == key) <;> simp
    rw [step, ih, app, get?_insert, get?_cons]
    cases get? rest.reverse key with
    | some w => rfl
    | none => by_cases h : key = k <;> simp [h]

/-- Names listed each with a value made from it. -/
theorem get?_map (f : String → α) (ids : List String) (key : String) :
    get? (ids.map fun id => (id, f id)) key = if key ∈ ids then some (f key) else none := by
  induction ids with
  | nil => simp
  | cons id rest ih =>
    rw [List.map_cons, get?_cons, ih]
    by_cases h : key = id
    · subst h; simp
    · simp [h]

/-- A map made from a list of keys by a function of the key. -/
theorem get?_ofList_map (f : String → α) (ids : List String) (key : String) :
    get? (ofList (ids.map fun id => (id, f id))) key = if key ∈ ids then some (f key) else none := by
  rw [ofList, get?_insertAll, ← List.map_reverse, get?_map]
  by_cases h : key ∈ ids <;> simp [h]

/-- What is there after a pair is inserted is that pair, or was there before. -/
theorem mem_of_mem_insert {m : Keyed α} {key : String} {v : α} {p : String × α} (h : p ∈ insert m key v) :
    p = (key, v) ∨ p ∈ m := by
  induction m with
  | nil => exact .inl (List.mem_singleton.mp h)
  | cons q rest ih =>
    unfold insert at h
    split at h
    · exact List.mem_cons.mp h
    split at h
    · rcases List.mem_cons.mp h with rfl | hp
      · exact .inl rfl
      · exact .inr (List.mem_cons_of_mem _ hp)
    · rcases List.mem_cons.mp h with rfl | hp
      · exact .inr List.mem_cons_self
      · rcases ih hp with rfl | hp
        · exact .inl rfl
        · exact .inr (List.mem_cons_of_mem _ hp)

theorem mem_of_mem_insertAll {m : Keyed α} {pairs : List (String × α)} {p : String × α}
    (h : p ∈ insertAll m pairs) : p ∈ pairs ∨ p ∈ m := by
  induction pairs generalizing m with
  | nil => exact .inr h
  | cons q rest ih =>
    rcases ih h with hrest | hm
    · exact .inl (List.mem_cons_of_mem _ hrest)
    · rcases mem_of_mem_insert hm with rfl | hm
      · exact .inl List.mem_cons_self
      · exact .inr hm

theorem get?_modify (m : Keyed α) (key x : String) (f : α → α) :
    get? (modify m key f) x = if x = key then (get? m x).map f else get? m x := by
  induction m with
  | nil => split <;> rfl
  | cons p rest ih =>
    obtain ⟨k, v⟩ := p
    have hcons : modify ((k, v) :: rest) key f = (if k = key then (k, f v) else (k, v)) :: modify rest key f := rfl
    rw [hcons, get?_cons]
    by_cases hk : k = key
    · rw [if_pos hk, get?_cons, ih]
      by_cases hx : x = k
      · rw [if_pos hx, if_pos (hx.trans hk), if_pos hx]
        rfl
      · rw [if_neg hx, if_neg hx]
    · rw [if_neg hk, get?_cons, ih]
      by_cases hx : x = k
      · rw [if_pos hx, if_neg fun h => hk (hx.symm.trans h), if_pos hx]
      · rw [if_neg hx, if_neg hx]

theorem keys_modify (m : Keyed α) (key : String) (f : α → α) : keys (modify m key f) = keys m := by
  rw [keys, modify, List.map_map]
  exact List.map_congr_left fun p _ => by
    obtain ⟨k, v⟩ := p
    simp only [Function.comp_apply]
    split <;> rfl

theorem sorted_nil : Sorted ([] : Keyed α) := List.Pairwise.nil

theorem sorted_insert {m : Keyed α} (h : Sorted m) (key : String) (v : α) : Sorted (insert m key v) := by
  induction m with
  | nil => exact List.pairwise_singleton _ _
  | cons p rest ih =>
    obtain ⟨k, w⟩ := p
    obtain ⟨hhead, htail⟩ := List.pairwise_cons.mp h
    unfold insert
    by_cases hlt : key < k
    · rw [if_pos hlt]
      refine List.pairwise_cons.mpr ⟨fun q hq => ?_, h⟩
      rcases List.mem_cons.mp hq with rfl | hq
      · exact hlt
      · exact String.lt_trans hlt (hhead q hq)
    rw [if_neg hlt]
    by_cases heq : key = k
    · subst heq
      rw [if_pos rfl]
      exact List.pairwise_cons.mpr ⟨hhead, htail⟩
    rw [if_neg heq]
    refine List.pairwise_cons.mpr ⟨fun q hq => ?_, ih htail⟩
    have hkey : q.1 ∈ keys (insert rest key v) := List.mem_map.mpr ⟨q, hq, rfl⟩
    rcases mem_keys_insert.mp hkey with e | hmem
    · rw [e]; exact string_lt_of_not_lt hlt heq
    · obtain ⟨r, hr, e⟩ := List.mem_map.mp hmem
      rw [← e]; exact hhead r hr

theorem sorted_erase {m : Keyed α} (h : Sorted m) (key : String) : Sorted (erase m key) := h.filter _

theorem sorted_insertAll {m : Keyed α} (h : Sorted m) (pairs : List (String × α)) :
    Sorted (insertAll m pairs) := by
  induction pairs generalizing m with
  | nil => exact h
  | cons p rest ih => exact ih (sorted_insert h p.1 p.2)

theorem sorted_ofList (pairs : List (String × α)) : Sorted (ofList pairs) :=
  sorted_insertAll sorted_nil pairs

theorem sorted_mapValues {m : Keyed α} (h : Sorted m) (f : α → β) : Sorted (mapValues f m) :=
  List.pairwise_map.mpr h

theorem sorted_of_mapValues {m : Keyed α} {f : α → β} (h : Sorted (mapValues f m)) : Sorted m := by
  rw [Sorted, mapValues, List.pairwise_map] at h
  exact h

theorem ascending_keys {m : Keyed α} (h : Sorted m) : (keys m).Pairwise (· < ·) := List.pairwise_map.mpr h

theorem get?_of_mem {m : Keyed α} (h : (keys m).Nodup) {p : String × α} (hp : p ∈ m) :
    get? m p.1 = some p.2 := by
  induction m with
  | nil => cases hp
  | cons q rest ih =>
    obtain ⟨k, v⟩ := q
    obtain ⟨hk, hrest⟩ := List.nodup_cons.mp (show (k :: keys rest).Nodup from h)
    rw [get?_cons]
    rcases List.mem_cons.mp hp with rfl | hp
    · simp
    · have hne : p.1 ≠ k := fun e => hk (e ▸ List.mem_map.mpr ⟨p, hp, rfl⟩)
      rw [if_neg hne]
      exact ih hrest hp

theorem mem_values {m : Keyed α} (h : (keys m).Nodup) {v : α} : v ∈ values m ↔ ∃ key, get? m key = some v := by
  rw [values, List.mem_map]
  constructor
  · intro hv
    obtain ⟨p, hp, rfl⟩ := hv
    exact ⟨p.1, get?_of_mem h hp⟩
  · intro hget
    obtain ⟨key, hkey⟩ := hget
    exact ⟨(key, v), mem_of_get? hkey, rfl⟩

theorem contains_eq (m : Keyed α) (key : String) : contains m key = (get? m key).isSome := by
  rw [contains, get?, Option.isSome_map, List.isSome_find?]

/-- The order of pairs with different keys does not matter to lookups. -/
theorem get?_reverse {m : Keyed α} (h : (keys m).Nodup) (key : String) : get? m.reverse key = get? m key := by
  have hreverse : (keys m.reverse).Nodup := by
    rw [keys, List.map_reverse]
    exact (List.reverse_perm _).nodup_iff.mpr h
  cases hget : get? m key with
  | some v => exact get?_of_mem hreverse (List.mem_reverse.mpr (mem_of_get? hget))
  | none =>
    cases hget' : get? m.reverse key with
    | none => rfl
    | some v => rw [get?_of_mem h (List.mem_reverse.mp (mem_of_get? hget'))] at hget; cases hget

/-- Sorted maps with the same lookups are the same. -/
theorem ext_of_sorted {a b : Keyed α} (ha : Sorted a) (hb : Sorted b) (h : ∀ key, get? a key = get? b key) :
    a = b := by
  induction a generalizing b with
  | nil =>
    cases b with
    | nil => rfl
    | cons q s => have := h q.1; rw [get?_cons, if_pos rfl] at this; cases this
  | cons p r ih =>
    cases b with
    | nil => have := h p.1; rw [get?_cons, if_pos rfl] at this; cases this
    | cons q s =>
      obtain ⟨k, v⟩ := p
      obtain ⟨l, w⟩ := q
      obtain ⟨hk, hr⟩ := List.pairwise_cons.mp ha
      obtain ⟨hl, hs⟩ := List.pairwise_cons.mp hb
      -- a key of the tail comes after the head, so it is not a key of the head
      have after : ∀ {x : String} {t : Keyed α}, (∀ e ∈ t, x < e.1) → get? t x = none := by
        intro x t ht
        cases hx : get? t x with
        | none => rfl
        | some u => exact absurd (ht _ (mem_of_get? hx)) (String.lt_irrefl x)
      have hkl : k = l := by
        by_cases hkl : k = l
        · exact hkl
        have h1 := h k
        have h2 := h l
        rw [get?_cons, get?_cons, if_pos rfl, if_neg hkl] at h1
        rw [get?_cons, get?_cons, if_pos rfl, if_neg (Ne.symm hkl)] at h2
        exact absurd (hk _ (mem_of_get? h2)) (String.lt_asymm (hl _ (mem_of_get? h1.symm)))
      subst hkl
      have hvw : v = w := by simpa [get?_cons] using h k
      subst hvw
      congr 1
      refine ih hr hs fun key => ?_
      by_cases hkey : key = k
      · subst hkey
        rw [after hk, after hl]
      · have := h key
        rwa [get?_cons, get?_cons, if_neg hkey, if_neg hkey] at this

/-- Pairs that are in order already are the map they make. -/
theorem ofList_of_sorted {m : Keyed α} (h : Sorted m) : ofList m = m :=
  ext_of_sorted (sorted_ofList m) h fun key => by
    rw [ofList, get?_insertAll, get?_reverse (nodup_of_ascending (ascending_keys h)), get?_nil, Option.or_none]

end Keyed

namespace NameSet

theorem mem_insert {s : NameSet} {name x : String} : x ∈ insert s name ↔ x = name ∨ x ∈ s := by
  induction s with
  | nil => simp [insert]
  | cons n rest ih =>
    unfold insert
    by_cases hlt : name < n
    · rw [if_pos hlt, List.mem_cons]
    rw [if_neg hlt]
    by_cases heq : name = n
    · subst heq; rw [if_pos rfl]; simp
    rw [if_neg heq, List.mem_cons, ih, List.mem_cons]
    exact or_left_comm

theorem ascending_insert {s : NameSet} (h : s.Pairwise (· < ·)) (name : String) :
    (insert s name).Pairwise (· < ·) := by
  induction s with
  | nil => exact List.pairwise_singleton _ _
  | cons n rest ih =>
    obtain ⟨hhead, htail⟩ := List.pairwise_cons.mp h
    unfold insert
    by_cases hlt : name < n
    · rw [if_pos hlt]
      refine List.pairwise_cons.mpr ⟨fun x hx => ?_, h⟩
      rcases List.mem_cons.mp hx with rfl | hx
      · exact hlt
      · exact String.lt_trans hlt (hhead x hx)
    rw [if_neg hlt]
    by_cases heq : name = n
    · rw [if_pos heq]; exact h
    rw [if_neg heq]
    refine List.pairwise_cons.mpr ⟨fun x hx => ?_, ih htail⟩
    rcases mem_insert.mp hx with rfl | hx
    · exact string_lt_of_not_lt hlt heq
    · exact hhead x hx

theorem mem_ofList {names : List String} {x : String} : x ∈ ofList names ↔ x ∈ names := by
  have grow : ∀ (s : NameSet), x ∈ names.foldl insert s ↔ x ∈ s ∨ x ∈ names := by
    induction names with
    | nil => intro s; simp
    | cons n rest ih =>
      intro s
      rw [List.foldl_cons, ih, mem_insert, List.mem_cons, or_assoc, or_left_comm]
  exact (grow []).trans (or_iff_right List.not_mem_nil)

theorem ascending_ofList (names : List String) : (ofList names).Pairwise (· < ·) :=
  List.foldlRecOn names insert List.Pairwise.nil fun _ h name _ => ascending_insert h name

end NameSet
end Workflows
