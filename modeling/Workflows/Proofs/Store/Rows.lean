/-
  Workflows.Proofs.Store.Rows — a record read back from its row.

  If its instants lie in the years of four digits, a row gives back all of a record but its
  payloads, which come back as their texts are read (`execution_ofExecution_mapPayloads`); it
  loses nothing of a record that a table can hold (`Execution.Storable`), whose payloads survive
  their own text. What is written to the row of a record makes it the row of the record after
  the same change (`ofExecution_setNode`, `putNodes_of_keeps`), so a store of either kind that
  holds a record gives it back (`holds_of_kept`).
-/

import Workflows.Proofs.Fallible
import Workflows.Proofs.Json.Quote
import Workflows.Proofs.Store.Kept
import Workflows.Proofs.Time.Column

namespace Workflows

/-- A payload reads back from its text. -/
def Json.Survives (j : Json) : Prop := valueOfText j.compact = j

instance (j : Json) : Decidable j.Survives := inferInstanceAs (Decidable (valueOfText j.compact = j))

/-- The texts of the result of a node can be read back. -/
structure NodeResult.Legible (r : NodeResult) : Prop where
  input : r.input.Survives
  output : r.output.Survives
  started : ∀ t ∈ r.startedAt, t.InColumn
  stopped : ∀ t ∈ r.stoppedAt, t.InColumn

instance (r : NodeResult) : Decidable r.Legible :=
  decidable_of_iff (r.input.Survives ∧ r.output.Survives ∧ (∀ t ∈ r.startedAt, t.InColumn) ∧
      ∀ t ∈ r.stoppedAt, t.InColumn)
    ⟨fun ⟨input, output, started, stopped⟩ => ⟨input, output, started, stopped⟩,
      fun h => ⟨h.input, h.output, h.started, h.stopped⟩⟩

/-- The texts of a record can be read back. -/
structure Execution.Legible (e : Execution) : Prop where
  data : e.data.Survives
  trigger : e.triggerData.Survives
  started : e.startedAt.InColumn
  stopped : ∀ t ∈ e.stoppedAt, t.InColumn
  nodes : ∀ p ∈ e.nodeResults, p.2.Legible

instance (e : Execution) : Decidable e.Legible :=
  decidable_of_iff (e.data.Survives ∧ e.triggerData.Survives ∧ e.startedAt.InColumn ∧
      (∀ t ∈ e.stoppedAt, t.InColumn) ∧ ∀ p ∈ e.nodeResults, p.2.Legible)
    ⟨fun ⟨data, trigger, started, stopped, nodes⟩ => ⟨data, trigger, started, stopped, nodes⟩,
      fun h => ⟨h.data, h.trigger, h.started, h.stopped, h.nodes⟩⟩

/-- A table can hold a record. -/
structure Execution.Storable (e : Execution) : Prop extends e.Legible where
  tidy : e.Tidy

/-! ## Payloads -/

/-- What a payload reads back as from its text. -/
def Json.readBack (j : Json) : Json := valueOfText j.compact

def NodeResult.mapPayloads (f : Json → Json) (r : NodeResult) : NodeResult :=
  { r with input := f r.input, output := f r.output }

namespace Execution

def mapPayloads (f : Json → Json) (e : Execution) : Execution :=
  { e with
    data := f e.data, triggerData := f e.triggerData
    nodeResults := Keyed.mapValues (NodeResult.mapPayloads f) e.nodeResults }

/-- All payloads: the data bag, what triggered the run, and what went into and came out of each node. -/
def payloads (e : Execution) : List Json :=
  e.data :: e.triggerData :: e.nodeResults.flatMap fun p => [p.2.input, p.2.output]

variable {e : Execution} {f g : Json → Json}

theorem mem_payloads {j : Json} :
    j ∈ e.payloads ↔ j = e.data ∨ j = e.triggerData ∨ ∃ p ∈ e.nodeResults, j = p.2.input ∨ j = p.2.output := by
  simp only [payloads, List.mem_cons, List.mem_flatMap, List.not_mem_nil, or_false]

theorem mapPayloads_congr (h : ∀ j ∈ e.payloads, f j = g j) : e.mapPayloads f = e.mapPayloads g := by
  have hnodes : Keyed.mapValues (NodeResult.mapPayloads f) e.nodeResults =
      Keyed.mapValues (NodeResult.mapPayloads g) e.nodeResults := by
    refine List.map_congr_left fun p hp => ?_
    simp only [NodeResult.mapPayloads, h p.2.input (mem_payloads.mpr (.inr (.inr ⟨p, hp, .inl rfl⟩))),
      h p.2.output (mem_payloads.mpr (.inr (.inr ⟨p, hp, .inr rfl⟩)))]
  simp only [mapPayloads, hnodes, h e.data (mem_payloads.mpr (.inl rfl)),
    h e.triggerData (mem_payloads.mpr (.inr (.inl rfl)))]

theorem payloads_mapPayloads (f : Json → Json) (e : Execution) : (e.mapPayloads f).payloads = e.payloads.map f := by
  simp only [payloads, mapPayloads, List.map_cons, Keyed.mapValues, List.flatMap_map, List.map_flatMap]
  rfl

/-- A record is left alone by what leaves its payloads alone. -/
theorem mapPayloads_eq_self_iff : e.mapPayloads f = e ↔ ∀ j ∈ e.payloads, f j = j := by
  have hsame : e.mapPayloads (fun j => j) = e := by
    simp only [mapPayloads, Keyed.mapValues]
    exact congrArg (fun results => { e with nodeResults := results }) (List.map_id' _)
  refine ⟨fun h => List.map_inj_left.mp ?_, fun h => (mapPayloads_congr h).trans hsame⟩
  rw [← payloads_mapPayloads, h, List.map_id']

end Execution

/-! ## Reading -/

/-- All instants of the result have a text in a column. -/
def NodeResult.InColumn (r : NodeResult) : Prop :=
  (∀ t ∈ r.startedAt, t.InColumn) ∧ ∀ t ∈ r.stoppedAt, t.InColumn

/-- All instants of the record have a text in a column. -/
structure Execution.InColumn (e : Execution) : Prop where
  started : e.startedAt.InColumn
  stopped : ∀ t ∈ e.stoppedAt, t.InColumn
  nodes : ∀ p ∈ e.nodeResults, p.2.InColumn

namespace Execution.Legible

variable {e : Execution}

theorem inColumn (h : e.Legible) : e.InColumn :=
  ⟨h.started, h.stopped, fun p hp => ⟨(h.nodes p hp).started, (h.nodes p hp).stopped⟩⟩

theorem readBack (h : e.Legible) : ∀ j ∈ e.payloads, j.readBack = j := by
  intro j hj
  rcases mem_payloads.mp hj with rfl | rfl | ⟨p, hp, rfl | rfl⟩
  · exact h.data
  · exact h.trigger
  · exact (h.nodes p hp).input
  · exact (h.nodes p hp).output

end Execution.Legible

theorem instantOfColumn_columnText {t : Instant} (h : t.InColumn) : instantOfColumn t.columnText = .ok t := by
  rw [instantOfColumn, Instant.ofColumn?_columnText h]

theorem instantOfColumn?_columnText {t : Option Instant} (h : ∀ x ∈ t, x.InColumn) :
    instantOfColumn? (t.map Instant.columnText) = .ok t := by
  cases t with
  | none => rfl
  | some x => rw [Option.map_some, instantOfColumn?, instantOfColumn_columnText (h x rfl)]; rfl

theorem NodeRow.result_ofResult {r : NodeResult} (h : r.InColumn) :
    (NodeRow.ofResult r).result r.nodeId = .ok (r.mapPayloads Json.readBack) := by
  have herror : (r.error.map (·.toJson.compact)).bind nodeErrorOfText? = r.error := by
    cases r.error with
    | none => rfl
    | some e => rw [Option.map_some, Option.bind_some, nodeErrorOfText?_compact]
  simp only [NodeRow.ofResult, NodeRow.result, instantOfColumn?_columnText h.1, instantOfColumn?_columnText h.2, herror,
    bind, Except.bind, pure, Except.pure]
  rfl

namespace ExecutionRow

variable {e old : Execution} {r : NodeResult}

/-- The results of nodes read back from their rows. -/
theorem results_ofExecution (htidy : e.Tidy) (h : e.InColumn) :
    ((ofExecution e).nodes.mapM fun (id, n) => do return (id, ← n.result id) : Except Failure _) =
      .ok (e.mapPayloads Json.readBack).nodeResults := by
  have hkeys := nodup_of_ascending (Keyed.ascending_keys htidy.sorted)
  rw [nodes_ofExecution htidy, Keyed.mapValues, List.mapM_map]
  refine mapM_ok fun p hp => ?_
  have hget := Keyed.get?_of_mem hkeys hp
  have hid : p.2.nodeId = p.1 := htidy.named p.1 p.2 hget
  have hread := NodeRow.result_ofResult (h.nodes p hp)
  rw [hid] at hread
  simp only [Function.comp_apply, hread, bind, Except.bind, pure, Except.pure]

/-- A record reads back from its row, its payloads as their texts do. -/
theorem execution_ofExecution_mapPayloads (htidy : e.Tidy) (h : e.InColumn) :
    (ofExecution e).execution = .ok (e.mapPayloads Json.readBack) := by
  have hstarted : instantOfColumn (ofExecution e).startedAt = .ok e.startedAt := instantOfColumn_columnText h.started
  have hstopped : instantOfColumn? (ofExecution e).stoppedAt = .ok e.stoppedAt := instantOfColumn?_columnText h.stopped
  rw [ExecutionRow.execution, hstarted, hstopped, results_ofExecution htidy h]
  rfl

/-- A record that a table can hold reads back from its row. -/
theorem execution_ofExecution (h : e.Storable) : (ofExecution e).execution = .ok e := by
  rw [execution_ofExecution_mapPayloads h.tidy h.inColumn]
  exact congrArg Except.ok (Execution.mapPayloads_eq_self_iff.mpr h.readBack)

/-! ## Writing -/

theorem ext_of_nodes {a b : ExecutionRow} (h : { a with nodes := [] } = { b with nodes := [] })
    (hnodes : a.nodes = b.nodes) : a = b := by
  cases a
  cases b
  simp only [mk.injEq] at h hnodes ⊢
  simp only [h, hnodes, and_self]

/-- Writing the result of one node to the row of a record. -/
theorem ofExecution_setNode (h : e.Tidy) : ofExecution (e.setNode r.nodeId r) = (ofExecution e).putNodes [r] := by
  refine ext_of_nodes rfl ?_
  rw [nodes_ofExecution (h.setNode rfl)]
  have hput : ((ofExecution e).putNodes [r]).nodes = Keyed.insert (ofExecution e).nodes r.nodeId (.ofResult r) := rfl
  rw [hput, nodes_ofExecution h, Execution.setNode, Keyed.mapValues_insert]

end ExecutionRow

/-- A record is a later one of the same run: what never changes has not, and it has results of
all nodes that had one. -/
structure Execution.Keeps (old e : Execution) : Prop where
  origin : e.origin = old.origin
  started : e.startedAt = old.startedAt
  nodes : ∀ id, (old.node? id).isSome → (e.node? id).isSome

/-- Writing a whole record over the row of an earlier one of its run. -/
theorem ExecutionRow.putNodes_of_keeps {e old : Execution} (h : e.Tidy) (hold : old.Tidy) (hkeeps : old.Keeps e) :
    ExecutionRow.putNodes
      { ofExecution old with status := e.status, stoppedAt := e.stoppedAt.map Instant.columnText,
                             data := e.data.compact, error := e.error } (Keyed.values e.nodeResults) =
      ofExecution e := by
  have hid := congrArg Execution.Origin.id hkeeps.origin
  have hworkflow := congrArg Execution.Origin.workflowId hkeeps.origin
  have hversion := congrArg Execution.Origin.workflowVersion hkeeps.origin
  have hkey := congrArg Execution.Origin.idempotencyKey hkeeps.origin
  have htrigger := congrArg Execution.Origin.triggerData hkeeps.origin
  simp only [Execution.origin] at hid hworkflow hversion hkey htrigger
  refine ext_of_nodes ?_ ?_
  · simp only [putNodes, ofExecution, hid, hworkflow, hversion, hkey, htrigger, hkeeps.started]
  · rw [nodes_ofExecution h]
    refine Keyed.ext_of_sorted ?_ (Keyed.sorted_mapValues h.sorted _) fun node => ?_
    · refine Keyed.sorted_insertAll ?_ _
      rw [nodes_ofExecution hold]
      exact Keyed.sorted_mapValues hold.sorted _
    · rw [get?_putNodes (nodup_of_ascending (Keyed.ascending_keys h.sorted)) h.named, Keyed.get?_mapValues]
      simp only [nodes_ofExecution hold, Keyed.get?_mapValues]
      have hnode := hkeeps.nodes node
      rw [Execution.node?, Execution.node?] at hnode
      cases hnew : Keyed.get? e.nodeResults node with
      | some result => rfl
      | none =>
        rw [hnew] at hnode
        cases hget : Keyed.get? old.nodeResults node with
        | none => rfl
        | some result => rw [hget] at hnode; cases hnode rfl

/-- A record stays one that a table can hold when the result of a node is. -/
theorem Execution.Storable.setNode {e : Execution} {r : NodeResult} (h : e.Storable) (hr : r.Legible) :
    (e.setNode r.nodeId r).Storable := by
  have htidy := h.tidy.setNode (r := r) rfl
  refine ⟨⟨h.data, h.trigger, h.started, h.stopped, fun p hp => ?_⟩, htidy⟩
  have hget := Keyed.get?_of_mem (nodup_of_ascending (Keyed.ascending_keys htidy.sorted)) hp
  rw [Execution.setNode, Keyed.get?_insert] at hget
  split at hget
  · rw [← Option.some.inj hget]
    exact hr
  · exact h.nodes p (Keyed.mem_of_get? hget)

/-! ## Writing to what is kept of a record -/

namespace Kept

variable {k : Kept} {e old : Execution} {r : NodeResult}

theorem Of.update (h : k.Of old) (hold : old.Tidy) (he : e.Tidy) (hkeeps : old.Keeps e) : (k.update e).Of e := by
  cases h with
  | record => exact .record e
  | row =>
    have hrow : Kept.update (.row (.ofExecution old)) e = .row (.ofExecution e) :=
      congrArg Kept.row (ExecutionRow.putNodes_of_keeps he hold hkeeps)
    exact hrow ▸ .row e

theorem Of.putNode (h : k.Of e) (he : e.Tidy) : (k.putNode r).Of (e.setNode r.nodeId r) := by
  cases h with
  | record => exact .record _
  | row =>
    have hrow : Kept.putNode (.row (.ofExecution e)) r = .row (.ofExecution (e.setNode r.nodeId r)) :=
      congrArg Kept.row (ExecutionRow.ofExecution_setNode he).symm
    exact hrow ▸ .row _

end Kept

/-- The store holds a record under an id: what is kept there is all of it, and whoever reads it
is given it, from a table if its texts can be read back. -/
structure Store.Holds (s : Store) (id : String) (e : Execution) : Prop where
  kept : ∃ k, s.kept? id = some k ∧ k.Of e
  read : (∀ rows, s = .table rows → e.Legible) → s.get id = .ok e

theorem Store.holds_of_kept {s : Store} {id : String} {k : Kept} {e : Execution} (h : s.kept? id = some k)
    (hof : k.Of e) (he : e.Tidy) : s.Holds id e := by
  refine ⟨⟨k, h, hof⟩, fun hlegible => ?_⟩
  cases s with
  | memory m =>
    obtain ⟨old, hold, rfl⟩ := Option.map_eq_some_iff.mp h
    cases hof
    simp only [Store.get, Store.get?, hold]
  | table t =>
    obtain ⟨row, hrow, rfl⟩ := Option.map_eq_some_iff.mp h
    cases hof
    have hread := ExecutionRow.execution_ofExecution ⟨hlegible t rfl, he⟩
    simp only [Store.get, Store.get?, TableStore.get?, hrow, hread, Except.map]

end Workflows
