/-
  Workflows.Proofs.Store.Stamps — which starts a store knows of.

  The stamp of an execution says which start it comes from: its id, its workflow and the key
  it was started under. `Store.stamps` lists the stamps of what a store of either kind holds,
  in the order of creation. Creating adds a stamp at the end (`stamps_create`), writing
  changes none as long as it is the run itself that writes (`stamps_update`,
  `stamps_putNode`), and looking for a key answers from the stamps (`find?_eq_none`,
  `find?_eq_some`).
-/

import Workflows.Store.Basic

namespace Workflows

/-- What says which start an execution comes from. -/
structure Stamp where
  id : String
  workflow : String
  key : Option String
deriving DecidableEq

namespace Stamp

/-- It is of a start of a workflow under a key. -/
def isUnder (s : Stamp) (workflow key : String) : Bool := s.workflow == workflow && s.key == some key

theorem isUnder_iff {s : Stamp} {workflow key : String} :
    s.isUnder workflow key = true ↔ s.workflow = workflow ∧ s.key = some key := by
  simp [isUnder]

end Stamp

def Execution.stamp (e : Execution) : Stamp := ⟨e.id, e.workflowId, e.idempotencyKey⟩

def ExecutionRow.stamp (r : ExecutionRow) : Stamp := ⟨r.id, r.workflowId, r.idempotencyKey⟩

@[simp] theorem ExecutionRow.stamp_putNodes (r : ExecutionRow) (results : List NodeResult) :
    (r.putNodes results).stamp = r.stamp := rfl

@[simp] theorem ExecutionRow.stamp_ofExecution (e : Execution) : (ExecutionRow.ofExecution e).stamp = e.stamp := rfl

/-- A row that can be read is read with its stamp. -/
theorem ExecutionRow.stamp_of_execution {r : ExecutionRow} {e : Execution} (h : r.execution = .ok e) :
    e.stamp = r.stamp := by
  simp only [ExecutionRow.execution, bind, Except.bind, pure, Except.pure] at h
  split at h
  · cases h
  · split at h
    · cases h
    · split at h
      · cases h
      · cases h; rfl

namespace Store

/-- An execution that is read carries the id it is read under. -/
theorem id_of_get? {store : Store} {id : String} {e : Execution} (h : store.get? id = .ok (some e)) : e.id = id := by
  cases store with
  | memory m =>
    have hm : m.get? id = some e := Except.ok.inj h
    exact beq_iff_eq.mp (List.find?_some (p := fun x : Execution => x.id == id) hm)
  | table t =>
    simp only [get?, TableStore.get?] at h
    cases hrow : t.row? id with
    | none => rw [hrow] at h; cases h
    | some row =>
      rw [hrow] at h
      cases hread : row.execution with
      | error f => simp only [hread] at h; cases h
      | ok x =>
        simp only [hread] at h
        cases h
        have hid := beq_iff_eq.mp (List.find?_some (p := fun x : ExecutionRow => x.id == id) hrow)
        exact (congrArg Stamp.id (ExecutionRow.stamp_of_execution hread)).trans hid

theorem id_of_get {store : Store} {id : String} {e : Execution} (h : store.get id = .ok e) : e.id = id := by
  simp only [get] at h
  split at h
  next heq => cases h; exact id_of_get? heq
  · cases h
  · cases h

/-- The stamps of what is held, in the order of creation. -/
def stamps : Store → List Stamp
  | memory m => m.records.map Execution.stamp
  | table t => t.rows.map ExecutionRow.stamp

variable {s s' : Store} {e : Execution}

/-- What is created is held last, under an id that was not held before. -/
theorem stamps_create (h : s.create e = .ok s') :
    s'.stamps = s.stamps ++ [e.stamp] ∧ e.id ∉ s.stamps.map Stamp.id := by
  cases s with
  | memory m =>
    simp only [create, MemoryStore.create] at h
    split at h
    · cases h
    next hnone =>
      cases h
      refine ⟨by simp [stamps], fun hmem => hnone ?_⟩
      simp only [stamps, List.map_map, List.mem_map, Function.comp_apply] at hmem
      obtain ⟨r, hr, hid⟩ := hmem
      exact List.find?_isSome.mpr ⟨r, hr, beq_iff_eq.mpr hid⟩
  | table t =>
    simp only [create, TableStore.create] at h
    split at h
    · cases h
    next hclear =>
      cases h
      refine ⟨by simp [stamps], fun hmem => hclear ?_⟩
      simp only [stamps, List.map_map, List.mem_map, Function.comp_apply] at hmem
      obtain ⟨r, hr, hid⟩ := hmem
      refine List.any_eq_true.mpr ⟨r, hr, Bool.or_eq_true_iff.mpr (.inl ?_)⟩
      exact beq_iff_eq.mpr hid

/-- A record is taken whose id is new, and whose key is new to its workflow. -/
theorem create_eq_ok (hid : e.id ∉ s.stamps.map Stamp.id)
    (hkey : ∀ key, e.idempotencyKey = some key → ∀ x ∈ s.stamps, x.isUnder e.workflowId key = false) :
    ∃ s', s.create e = .ok s' := by
  cases s with
  | memory m =>
    have hnone : (m.get? e.id).isSome = false := by
      refine Bool.eq_false_iff.mpr fun hsome => hid ?_
      obtain ⟨r, hr⟩ := Option.isSome_iff_exists.mp hsome
      simp only [stamps, List.map_map, List.mem_map, Function.comp_apply]
      exact ⟨r, List.mem_of_find?_eq_some hr, beq_iff_eq.mp (List.find?_some (p := fun x : Execution => x.id == e.id) hr)⟩
    exact ⟨_, by simp [create, MemoryStore.create, hnone, Except.map]; rfl⟩
  | table t =>
    have hclear : t.rows.any (TableStore.clashes · (.ofExecution e)) = false := by
      refine List.any_eq_false.mpr fun row hrow hclash => ?_
      rcases Bool.or_eq_true_iff.mp hclash with hsame | hunder
      · exact hid (List.mem_map.mpr ⟨row.stamp, List.mem_map.mpr ⟨row, hrow, rfl⟩, beq_iff_eq.mp hsame⟩)
      · obtain ⟨key, hk⟩ : ∃ key, e.idempotencyKey = some key := by
          simp only [Bool.and_eq_true] at hunder
          exact Option.isSome_iff_exists.mp hunder.1.2
        have hfree := hkey key hk row.stamp (List.mem_map.mpr ⟨row, hrow, rfl⟩)
        have hused : row.stamp.isUnder e.workflowId key = true := by
          simp only [Bool.and_eq_true, beq_iff_eq] at hunder
          exact Stamp.isUnder_iff.mpr ⟨hunder.1.1, hunder.2.trans hk⟩
        exact absurd (hfree.symm.trans hused) Bool.false_ne_true
    exact ⟨_, by simp [create, TableStore.create, hclear, Except.map]; rfl⟩

/-- Replacing what stands under an id by what has the same stamp changes no stamp. -/
theorem map_stamp_replace {α : Type} (stamp : α → Stamp) {id : String} {f : α → α} {l : List α}
    (h : ∀ x ∈ l, (stamp x).id = id → stamp (f x) = stamp x) :
    (l.map fun x => if (stamp x).id = id then f x else x).map stamp = l.map stamp := by
  rw [List.map_map]
  refine List.map_congr_left fun x hx => ?_
  simp only [Function.comp_apply]
  split
  next hid => exact h x hx hid
  · rfl

theorem stamps_update (hsame : ∀ stamp ∈ s.stamps, stamp.id = e.id → stamp = e.stamp) (h : s.update e = .ok s') :
    s'.stamps = s.stamps := by
  cases s with
  | memory m =>
    simp only [update, MemoryStore.update, MemoryStore.modify] at h
    split at h
    · cases h
      exact map_stamp_replace Execution.stamp fun x hx hid =>
        (hsame x.stamp (List.mem_map.mpr ⟨x, hx, rfl⟩) hid).symm
    · cases h
  | table t =>
    simp only [update, TableStore.update, TableStore.modify] at h
    split at h
    · cases h
      exact map_stamp_replace ExecutionRow.stamp fun _ _ _ => rfl
    · cases h

theorem stamps_putNode {id : String} {r : NodeResult} (h : s.putNode id r = .ok s') : s'.stamps = s.stamps := by
  cases s with
  | memory m =>
    simp only [putNode, MemoryStore.putNode, MemoryStore.modify] at h
    split at h
    · cases h
      exact map_stamp_replace Execution.stamp fun _ _ _ => rfl
    · cases h
  | table t =>
    simp only [putNode, TableStore.putNode, TableStore.modify] at h
    split at h
    · cases h
      exact map_stamp_replace ExecutionRow.stamp fun _ _ _ => rfl
    · cases h

variable {workflow key : String}

/-- A key that is not found has not been used. -/
theorem find?_eq_none (h : s.find? workflow key = .ok none) : ∀ stamp ∈ s.stamps, stamp.isUnder workflow key = false := by
  cases s with
  | memory m =>
    intro stamp hstamp
    obtain ⟨r, hr, rfl⟩ := List.mem_map.mp hstamp
    exact Bool.eq_false_iff.mpr (List.find?_eq_none.mp (Except.ok.inj h) r hr)
  | table t =>
    intro stamp hstamp
    obtain ⟨r, hr, rfl⟩ := List.mem_map.mp hstamp
    simp only [find?, TableStore.find?] at h
    split at h
    next hnone => exact Bool.eq_false_iff.mpr (List.find?_eq_none.mp hnone r hr)
    next row _ => cases hrow : row.execution <;> rw [hrow] at h <;> cases h

/-- What is found under a key is held, and was started under it. -/
theorem find?_eq_some (h : s.find? workflow key = .ok (some e)) :
    e.stamp ∈ s.stamps ∧ e.stamp.isUnder workflow key = true := by
  cases s with
  | memory m =>
    have hfind : m.find? workflow key = some e := Except.ok.inj h
    exact ⟨List.mem_map.mpr ⟨e, List.mem_of_find?_eq_some hfind, rfl⟩,
      List.find?_some (p := fun r : Execution => r.stamp.isUnder workflow key) hfind⟩
  | table t =>
    simp only [find?, TableStore.find?] at h
    split at h
    · cases h
    next row hrow =>
      cases hread : row.execution with
      | error f => rw [hread] at h; cases h
      | ok x =>
        rw [hread] at h
        cases h
        have hstamp := ExecutionRow.stamp_of_execution hread
        exact ⟨List.mem_map.mpr ⟨row, List.mem_of_find?_eq_some hrow, hstamp.symm⟩,
          hstamp ▸ List.find?_some (p := fun r : ExecutionRow => r.stamp.isUnder workflow key) hrow⟩

/-- Where keys are distinct, what is found under the key of one that is there is that one. -/
theorem find?_of_nodup {α : Type} {keyOf : α → String} {l : List α} (h : (l.map keyOf).Nodup) {a : α} (ha : a ∈ l) :
    l.find? (keyOf · == keyOf a) = some a := by
  induction l with
  | nil => cases ha
  | cons b rest ih =>
    obtain ⟨hfirst, hrest⟩ := List.nodup_cons.mp h
    rcases List.mem_cons.mp ha with rfl | ha
    · simp
    · have hne : (keyOf b == keyOf a) = false :=
        beq_eq_false_iff_ne.mpr fun heq => hfirst (List.mem_map.mpr ⟨a, ha, heq.symm⟩)
      simp only [List.find?_cons, hne, ih hrest ha]

/-- To look for a key is to read what stands first under it, by its id. -/
theorem find?_eq_get? (hids : (s.stamps.map Stamp.id).Nodup) (workflow key : String) :
    s.find? workflow key = match s.stamps.find? (·.isUnder workflow key) with
      | some stamp => s.get? stamp.id
      | none => .ok none := by
  cases s with
  | memory m =>
    rw [stamps, List.map_map] at hids
    rw [stamps, List.find?_map]
    have hfind : m.find? workflow key = m.records.find? ((·.isUnder workflow key) ∘ Execution.stamp) := rfl
    cases hfound : m.records.find? ((·.isUnder workflow key) ∘ Execution.stamp) with
    | none => rw [find?, hfind, hfound]; rfl
    | some x =>
      rw [find?, hfind, hfound]
      exact congrArg Except.ok (find?_of_nodup hids (List.mem_of_find?_eq_some hfound)).symm
  | table t =>
    rw [stamps, List.map_map] at hids
    rw [stamps, List.find?_map]
    have hfind : (t.rows.find? fun row => row.workflowId == workflow && row.idempotencyKey == some key) =
        t.rows.find? ((·.isUnder workflow key) ∘ ExecutionRow.stamp) := rfl
    cases hfound : t.rows.find? ((·.isUnder workflow key) ∘ ExecutionRow.stamp) with
    | none => simp only [find?, TableStore.find?, hfind, hfound, Option.map_none]
    | some x =>
      have hrow : t.row? x.stamp.id = some x := find?_of_nodup hids (List.mem_of_find?_eq_some hfound)
      simp only [find?, TableStore.find?, hfind, hfound, Option.map_some, get?, TableStore.get?, hrow]

end Store
end Workflows
