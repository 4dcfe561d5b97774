/-
  Workflows.Proofs.Store.Kept — what a store of either kind keeps of one execution.

  `Store.kept?` is the record or the row of an id. Writing to an execution that is kept always
  succeeds and changes what is kept of it in one way (`update_kept`, `putNode_kept`); what it
  says of the status of a node is the same for records and rows, and is what a reader is told
  (`nodeStatus?_of_get?`).
-/

import Workflows.Proofs.Run.Record
import Workflows.Store.Basic

namespace Workflows

/-- How an execution ends. -/
structure Conclusion where
  status : RunStatus
  error : Option String
deriving DecidableEq

def Execution.conclusion (e : Execution) : Conclusion := ⟨e.status, e.error⟩

/-- What is kept of one execution. -/
inductive Kept where
  | record (e : Execution)
  | row (r : ExecutionRow)
deriving DecidableEq

namespace Kept

def status : Kept → RunStatus
  | .record e => e.status
  | .row r => r.status

/-- What is kept says that this is the status of a node. -/
def nodeStatus? : Kept → String → Option NodeStatus
  | .record e, node => e.nodeStatus? node
  | .row r, node => (Keyed.get? r.nodes node).map (·.status)

/-- What becomes of it when the whole record is written. -/
def update : Kept → Execution → Kept
  | .record _, e => .record e
  | .row r, e =>
    .row <| { r with status := e.status, stoppedAt := e.stoppedAt.map Instant.columnText,
                     data := e.data.compact, error := e.error }.putNodes (Keyed.values e.nodeResults)

/-- What becomes of it when the result of one node is written. -/
def putNode : Kept → NodeResult → Kept
  | .record e, r => .record (e.setNode r.nodeId r)
  | .row old, r => .row (old.putNodes [r])

/-- How the execution has ended, as far as it has. -/
def conclusion : Kept → Conclusion
  | .record e => e.conclusion
  | .row r => ⟨r.status, r.error⟩

/-- It is all of a record, as it is or as its row. -/
inductive Of : Kept → Execution → Prop
  | record (e : Execution) : Of (.record e) e
  | row (e : Execution) : Of (.row (.ofExecution e)) e

end Kept

namespace Store

def kept? (s : Store) (id : String) : Option Kept :=
  match s with
  | memory m => (m.get? id).map .record
  | table t => (t.row? id).map .row

/-- The status of a node, as the store has it. -/
def nodeStatus? (s : Store) (id node : String) : Option NodeStatus := (s.kept? id).bind (·.nodeStatus? node)

end Store

/-! ## Rows of nodes -/

namespace ExecutionRow

/-- Writing the results of a record leaves the row of a node to its result there. -/
theorem get?_putNodes {results : Keyed NodeResult} (hkeys : (Keyed.keys results).Nodup)
    (hnamed : ∀ id r, Keyed.get? results id = some r → r.nodeId = id) (row : ExecutionRow) (node : String) :
    Keyed.get? (row.putNodes (Keyed.values results)).nodes node =
      ((Keyed.get? results node).map NodeRow.ofResult).or (Keyed.get? row.nodes node) := by
  have hpairs : (Keyed.values results).map (fun r => (r.nodeId, NodeRow.ofResult r)) =
      Keyed.mapValues NodeRow.ofResult results := by
    simp only [Keyed.values, Keyed.mapValues, List.map_map]
    refine List.map_congr_left fun p hp => ?_
    have := hnamed p.1 p.2 (Keyed.get?_of_mem hkeys hp)
    simp [this]
  have hnodup : (Keyed.keys (Keyed.mapValues NodeRow.ofResult results)).Nodup := by
    rw [Keyed.keys_mapValues]
    exact hkeys
  simp only [putNodes, hpairs]
  rw [Keyed.get?_insertAll, Keyed.get?_reverse hnodup, Keyed.get?_mapValues]

/-- The rows of the nodes of a record, in the order of their ids. -/
theorem nodes_ofExecution {e : Execution} (h : e.Tidy) :
    (ExecutionRow.ofExecution e).nodes = Keyed.mapValues NodeRow.ofResult e.nodeResults := by
  refine Keyed.ext_of_sorted (Keyed.sorted_insertAll Keyed.sorted_nil _) (Keyed.sorted_mapValues h.sorted _) fun node => ?_
  rw [ofExecution, get?_putNodes (nodup_of_ascending (Keyed.ascending_keys h.sorted)) h.named, Keyed.get?_mapValues]
  exact Option.or_none

end ExecutionRow

namespace Kept

variable {k : Kept} {e : Execution} {node : String}

/-- After the whole record is written, what is kept of its nodes is what the record says, if
nothing was kept of other nodes before. -/
theorem nodeStatus?_update (hsorted : Keyed.Sorted e.nodeResults) (hnamed : e.Named)
    (hknown : e.nodeStatus? node = none → k.nodeStatus? node = none) :
    (k.update e).nodeStatus? node = e.nodeStatus? node := by
  cases k with
  | record _ => rfl
  | row r =>
    simp only [update, nodeStatus?]
    rw [ExecutionRow.get?_putNodes (nodup_of_ascending (Keyed.ascending_keys hsorted)) hnamed]
    rw [Execution.nodeStatus?, Execution.node?] at hknown ⊢
    cases hget : Keyed.get? e.nodeResults node with
    | some result => rfl
    | none => rw [hget] at hknown; exact hknown rfl

theorem Of.status (h : k.Of e) : k.status = e.status := by
  cases h <;> rfl

theorem Of.conclusion (h : k.Of e) : k.conclusion = e.conclusion := by
  cases h <;> rfl

@[simp] theorem status_conclusion (k : Kept) : k.conclusion.status = k.status := by
  cases k <;> rfl

@[simp] theorem conclusion_update (k : Kept) (e : Execution) : (k.update e).conclusion = e.conclusion := by
  cases k <;> rfl

@[simp] theorem conclusion_putNode (k : Kept) (r : NodeResult) : (k.putNode r).conclusion = k.conclusion := by
  cases k <;> rfl

/-- What is kept of a record says of its nodes what the record says. -/
theorem Of.nodeStatus? (h : k.Of e) (htidy : e.Tidy) (node : String) : k.nodeStatus? node = e.nodeStatus? node := by
  cases h with
  | record => rfl
  | row =>
    rw [Kept.nodeStatus?, ExecutionRow.nodes_ofExecution htidy, Keyed.get?_mapValues, Option.map_map]
    rfl

theorem nodeStatus?_putNode (k : Kept) (r : NodeResult) :
    (k.putNode r).nodeStatus? node = if node = r.nodeId then some r.status else k.nodeStatus? node := by
  cases k with
  | record e => exact Execution.nodeStatus?_setNode
  | row old =>
    simp only [putNode, nodeStatus?, ExecutionRow.putNodes, List.map_cons, List.map_nil, Keyed.insertAll,
      List.foldl_cons, List.foldl_nil, Keyed.get?_insert]
    split <;> rfl

end Kept

/-! ## Writing to what is kept -/

namespace Store

variable {s s' : Store} {id : String} {k : Kept}

/-- Changing what stands under an id changes what is found under it. -/
theorem find?_map_under {α : Type} (idOf : α → String) {f : α → α} {l : List α} {x : α} (hf : idOf (f x) = idOf x)
    (h : l.find? (idOf · == id) = some x) :
    (l.map fun y => if idOf y = id then f y else y).find? (idOf · == id) = some (f x) := by
  induction l with
  | nil => cases h
  | cons y rest ih =>
    rw [List.find?_cons] at h
    rw [List.map_cons, List.find?_cons]
    by_cases hy : idOf y = id
    · simp only [hy, beq_self_eq_true, Option.some.injEq] at h
      subst h
      simp [hy, hf]
    · simp only [beq_eq_false_iff_ne.mpr hy] at h
      simp only [if_neg hy, beq_eq_false_iff_ne.mpr hy]
      exact ih h

/-- Changing what stands under an id does not change what is found under another. -/
theorem find?_map_other {α : Type} (idOf : α → String) {f : α → α} {other : String} (hne : other ≠ id)
    (hf : ∀ x, idOf x = id → idOf (f x) = id) (l : List α) :
    (l.map fun y => if idOf y = id then f y else y).find? (idOf · == other) = l.find? (idOf · == other) := by
  induction l with
  | nil => rfl
  | cons y rest ih =>
    rw [List.map_cons, List.find?_cons, List.find?_cons, ih]
    by_cases hy : idOf y = id
    · have hbefore : (idOf y == other) = false := beq_eq_false_iff_ne.mpr (hy ▸ hne.symm)
      have hafter : (idOf (f y) == other) = false := beq_eq_false_iff_ne.mpr ((hf y hy).symm ▸ hne.symm)
      rw [if_pos hy, hbefore, hafter]
    · rw [if_neg hy]

theorem memory_modify {m : MemoryStore} {f : Execution → Execution} {e : Execution} (hf : (f e).id = e.id)
    (h : m.get? id = some e) : ∃ m', m.modify id f = .ok m' ∧ m'.get? id = some (f e) := by
  refine ⟨⟨m.records.map fun x => if x.id = id then f x else x⟩, by simp [MemoryStore.modify, h], ?_⟩
  exact find?_map_under Execution.id hf h

theorem table_modify {t : TableStore} {f : ExecutionRow → ExecutionRow} {r : ExecutionRow} (hf : (f r).id = r.id)
    (h : t.row? id = some r) : ∃ t', t.modify id f = .ok t' ∧ t'.row? id = some (f r) := by
  refine ⟨⟨t.rows.map fun x => if x.id = id then f x else x⟩, by simp [TableStore.modify, h], ?_⟩
  exact find?_map_under ExecutionRow.id hf h

theorem update_kept {e : Execution} (h : s.kept? e.id = some k) :
    ∃ s', s.update e = .ok s' ∧ s'.kept? e.id = some (k.update e) := by
  cases s with
  | memory m =>
    obtain ⟨old, hold, rfl⟩ := Option.map_eq_some_iff.mp h
    have hid : old.id = e.id := by simpa using List.find?_some hold
    obtain ⟨m', hm', hget⟩ := memory_modify (f := fun _ => e) hid.symm hold
    exact ⟨memory m', by simp [update, MemoryStore.update, hm', Except.map], by simp [kept?, hget, Kept.update]⟩
  | table t =>
    obtain ⟨old, hold, rfl⟩ := Option.map_eq_some_iff.mp h
    obtain ⟨t', ht', hget⟩ := table_modify (f := fun row =>
      { row with status := e.status, stoppedAt := e.stoppedAt.map Instant.columnText,
                 data := e.data.compact, error := e.error }.putNodes (Keyed.values e.nodeResults)) rfl hold
    exact ⟨table t', by simp [update, TableStore.update, ht', Except.map], by simp [kept?, hget, Kept.update]⟩

theorem putNode_kept (r : NodeResult) (h : s.kept? id = some k) :
    ∃ s', s.putNode id r = .ok s' ∧ s'.kept? id = some (k.putNode r) := by
  cases s with
  | memory m =>
    obtain ⟨old, hold, rfl⟩ := Option.map_eq_some_iff.mp h
    obtain ⟨m', hm', hget⟩ := memory_modify (f := fun e => e.setNode r.nodeId r) rfl hold
    exact ⟨memory m', by simp [putNode, MemoryStore.putNode, hm', Except.map], by simp [kept?, hget, Kept.putNode]⟩
  | table t =>
    obtain ⟨old, hold, rfl⟩ := Option.map_eq_some_iff.mp h
    obtain ⟨t', ht', hget⟩ := table_modify (f := fun row => row.putNodes [r]) rfl hold
    exact ⟨table t', by simp [putNode, TableStore.putNode, ht', Except.map], by simp [kept?, hget, Kept.putNode]⟩

/-- A record that is put into the store is kept. -/
theorem kept?_of_create {e : Execution} (h : s.create e = .ok s') : ∃ k, s'.kept? e.id = some k ∧ k.Of e := by
  cases s with
  | memory m =>
    refine ⟨_, ?_, .record e⟩
    by_cases hsome : (m.get? e.id).isSome
    · simp [create, MemoryStore.create, hsome, Except.map] at h
    · have hnone : m.records.find? (·.id == e.id) = none := by simpa [MemoryStore.get?] using hsome
      simp only [create, MemoryStore.create, hsome] at h
      cases h
      simp [kept?, MemoryStore.get?, List.find?_append, hnone]
  | table t =>
    refine ⟨_, ?_, .row e⟩
    by_cases hclash : t.rows.any (TableStore.clashes · (.ofExecution e)) = true
    · simp [create, TableStore.create, hclash, Except.map] at h
    · have hnone : t.rows.find? (·.id == e.id) = none := by
        refine List.find?_eq_none.mpr fun r hr hid => hclash ?_
        refine List.any_eq_true.mpr ⟨r, hr, ?_⟩
        simp [TableStore.clashes, ExecutionRow.ofExecution, ExecutionRow.putNodes, beq_iff_eq.mp hid]
      simp only [create, TableStore.create, hclash] at h
      cases h
      have hid : (ExecutionRow.ofExecution e).id = e.id := rfl
      simp [kept?, TableStore.row?, List.find?_append, hnone, hid]

/-! ## What is kept of the others -/

theorem kept?_update_of_ne {e : Execution} (hne : id ≠ e.id) (h : s.update e = .ok s') : s'.kept? id = s.kept? id := by
  cases s with
  | memory m =>
    simp only [update, MemoryStore.update, MemoryStore.modify] at h
    split at h
    · cases h
      exact congrArg (Option.map _) (find?_map_other Execution.id hne (fun _ _ => rfl) m.records)
    · cases h
  | table t =>
    simp only [update, TableStore.update, TableStore.modify] at h
    split at h
    · cases h
      refine congrArg (Option.map _) (find?_map_other ExecutionRow.id hne ?_ t.rows)
      exact fun _ hid => hid
    · cases h

theorem kept?_putNode_of_ne {execution : String} {r : NodeResult} (hne : id ≠ execution)
    (h : s.putNode execution r = .ok s') : s'.kept? id = s.kept? id := by
  cases s with
  | memory m =>
    simp only [putNode, MemoryStore.putNode, MemoryStore.modify] at h
    split at h
    · cases h
      refine congrArg (Option.map _) (find?_map_other Execution.id hne ?_ m.records)
      exact fun _ hid => hid
    · cases h
  | table t =>
    simp only [putNode, TableStore.putNode, TableStore.modify] at h
    split at h
    · cases h
      refine congrArg (Option.map _) (find?_map_other ExecutionRow.id hne ?_ t.rows)
      exact fun _ hid => hid
    · cases h

/-- A record is put into the store only if nothing is kept under its id, and nothing else changes. -/
theorem kept?_create {e : Execution} (h : s.create e = .ok s') :
    s.kept? e.id = none ∧ ∀ id, id ≠ e.id → s'.kept? id = s.kept? id := by
  cases s with
  | memory m =>
    simp only [create, MemoryStore.create] at h
    split at h
    · cases h
    next hnone =>
      cases h
      refine ⟨by simpa [kept?] using hnone, fun id hne => ?_⟩
      have hother : (e.id == id) = false := beq_eq_false_iff_ne.mpr hne.symm
      simp [kept?, MemoryStore.get?, List.find?_append, hother]
  | table t =>
    simp only [create, TableStore.create] at h
    split at h
    · cases h
    next hclear =>
      cases h
      refine ⟨Option.map_eq_none_iff.mpr (List.find?_eq_none.mpr fun r hr hid => hclear ?_), fun id hne => ?_⟩
      · exact List.any_eq_true.mpr ⟨r, hr, Bool.or_eq_true_iff.mpr (.inl hid)⟩
      · have hother : ((ExecutionRow.ofExecution e).id == id) = false := beq_eq_false_iff_ne.mpr hne.symm
        simp [kept?, TableStore.row?, List.find?_append, hother]

/-! ## Reading what is kept -/

theorem status_of_result {row : NodeRow} {r : NodeResult} (h : row.result id = .ok r) : r.status = row.status := by
  simp only [NodeRow.result, bind, Except.bind] at h
  split at h
  · cases h
  · split at h
    · cases h
    · cases h; rfl

/-- Reading the rows of nodes keeps the statuses. -/
theorem get?_of_mapM_result {rows : Keyed NodeRow} {results : Keyed NodeResult}
    (h : (rows.mapM fun (id, n) => do return (id, ← n.result id) : Except Failure _) = .ok results) (node : String) :
    (Keyed.get? rows node).map (·.status) = (Keyed.get? results node).map (·.status) := by
  induction rows generalizing results with
  | nil => cases h; rfl
  | cons p rest ih =>
    obtain ⟨id, n⟩ := p
    rw [List.mapM_cons] at h
    simp only [bind, Except.bind, pure, Except.pure] at h ih
    split at h
    · cases h
    next q hq =>
      split at h
      · cases h
      next rs hrs =>
        split at hq
        · cases hq
        next r hr =>
          cases hq
          cases h
          rw [Keyed.get?_cons, Keyed.get?_cons]
          by_cases hid : node = id
          · simp [hid, status_of_result hr]
          · simp only [if_neg hid]; exact ih hrs

theorem get?_nodes_of_execution {row : ExecutionRow} {e : Execution} (h : row.execution = .ok e) (node : String) :
    (Keyed.get? row.nodes node).map (·.status) = e.nodeStatus? node := by
  simp only [ExecutionRow.execution, bind, Except.bind, pure, Except.pure] at h
  split at h
  · cases h
  · split at h
    · cases h
    · split at h
      · cases h
      next results hresults =>
        cases h
        exact get?_of_mapM_result hresults node

theorem conclusion_of_execution {row : ExecutionRow} {e : Execution} (h : row.execution = .ok e) :
    e.conclusion = ⟨row.status, row.error⟩ := by
  simp only [ExecutionRow.execution, bind, Except.bind, pure, Except.pure] at h
  split at h
  · cases h
  · split at h
    · cases h
    · split at h
      · cases h
      · cases h; rfl

/-- Whoever reads an execution is told the status and the error that are kept. -/
theorem conclusion_of_get {e : Execution} (h : s.get id = .ok e) : ∃ k, s.kept? id = some k ∧ k.conclusion = e.conclusion := by
  have hget : s.get? id = .ok (some e) := by
    simp only [get] at h
    split at h
    next heq => cases h; exact heq
    · cases h
    · cases h
  cases s with
  | memory m =>
    have hm : m.get? id = some e := Except.ok.inj hget
    exact ⟨.record e, by rw [kept?, hm]; rfl, rfl⟩
  | table t =>
    simp only [get?, TableStore.get?] at hget
    cases hrow : t.row? id with
    | none => simp [hrow] at hget
    | some row =>
      simp only [hrow] at hget
      cases hread : row.execution with
      | error f => simp [hread, Except.map] at hget
      | ok read =>
        simp only [hread, Except.map] at hget
        cases hget
        exact ⟨.row row, by rw [kept?, hrow]; rfl, (conclusion_of_execution hread).symm⟩

/-- Whoever reads an execution is told the status that is kept. -/
theorem status_of_get {e : Execution} (h : s.get id = .ok e) : ∃ k, s.kept? id = some k ∧ e.status = k.status := by
  obtain ⟨k, hk, hconclusion⟩ := conclusion_of_get h
  exact ⟨k, hk, by rw [← Kept.status_conclusion, hconclusion]; rfl⟩

/-- Whoever reads an execution is told what is kept of its nodes. -/
theorem nodeStatus?_of_get? {e : Execution} (h : s.get? id = .ok (some e)) (node : String) :
    s.nodeStatus? id node = e.nodeStatus? node := by
  cases s with
  | memory m =>
    have hm : m.get? id = some e := Except.ok.inj h
    simp [nodeStatus?, kept?, hm, Kept.nodeStatus?]
  | table t =>
    simp only [get?, TableStore.get?] at h
    cases hrow : t.row? id with
    | none => simp [hrow] at h
    | some row =>
      simp only [hrow] at h
      cases hread : row.execution with
      | error f => simp [hread, Except.map] at h
      | ok e' =>
        simp only [hread, Except.map] at h
        cases h
        simp only [nodeStatus?, kept?, hrow, Option.map_some, Option.bind_some, Kept.nodeStatus?]
        exact get?_nodes_of_execution hread node

end Store
end Workflows
