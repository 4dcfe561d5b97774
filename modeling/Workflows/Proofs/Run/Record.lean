/-
  Workflows.Proofs.Run.Record — what the changes of a record leave of the results of its nodes.
-/

import Workflows.Proofs.Keyed
import Workflows.Run.Execution

namespace Workflows
namespace Execution

variable {e : Execution} {id x : String} {r : NodeResult} {status : RunStatus} {now : Instant}

theorem node?_setNode : (e.setNode id r).node? x = if x = id then some r else e.node? x :=
  Keyed.get?_insert _ _ _ _

theorem nodeStatus?_setNode :
    (e.setNode id r).nodeStatus? x = if x = id then some r.status else e.nodeStatus? x := by
  simp only [nodeStatus?, node?_setNode]
  split <;> rfl

@[simp]
theorem nodeResults_transition : (e.transition status now).nodeResults = e.nodeResults := by
  unfold transition
  split <;> rfl

/-- What a record says of where its run came from. -/
structure Origin where
  id : String
  workflowId : String
  workflowVersion : Nat
  idempotencyKey : Option String
  triggerData : Json

def origin (e : Execution) : Origin := ⟨e.id, e.workflowId, e.workflowVersion, e.idempotencyKey, e.triggerData⟩

@[simp]
theorem origin_transition : (e.transition status now).origin = e.origin := by
  unfold transition
  split <;> rfl

theorem node?_clearPayloads : e.clearPayloads.node? x = (e.node? x).map NodeResult.clearPayload :=
  Keyed.get?_mapValues _ _ _

@[simp]
theorem nodeStatus?_clearPayloads : e.clearPayloads.nodeStatus? x = e.nodeStatus? x := by
  rw [nodeStatus?, node?_clearPayloads, Option.map_map]
  rfl

theorem nodeStatus?_eq_some {status : NodeStatus} :
    e.nodeStatus? x = some status ↔ ∃ r, e.node? x = some r ∧ r.status = status := Option.map_eq_some_iff

/-- A record in which every node waits gives no node another status. -/
theorem eq_waiting_of_waits {order : List String} {status : NodeStatus}
    (h : ∀ x, e.nodeStatus? x = if x ∈ order then some .waiting else none) (hx : e.nodeStatus? x = some status) :
    status = .waiting := by
  rw [h x] at hx
  split at hx
  · exact (Option.some.inj hx).symm
  · cases hx

/-! ## When one status changes -/

/-- The status of the node `id` changes from `old` to `new`, and no other does. -/
structure Changes (e e' : Execution) (id : String) (old new : NodeStatus) : Prop where
  before : e.nodeStatus? id = some old
  after : e'.nodeStatus? id = some new
  other : ∀ x, x ≠ id → e'.nodeStatus? x = e.nodeStatus? x

variable {e' : Execution} {old new s : NodeStatus}

theorem changes_setNode (hold : e.nodeStatus? id = some old) : e.Changes (e.setNode id r) id old r.status :=
  ⟨hold, nodeStatus?_setNode.trans (if_pos rfl), fun _ hx => nodeStatus?_setNode.trans (if_neg hx)⟩

namespace Changes

theorem congr {e'' : Execution} (h : e.Changes e' id old new) (heq : e''.nodeResults = e'.nodeResults) :
    e.Changes e'' id old new := by
  have hsame : ∀ x, e''.nodeStatus? x = e'.nodeStatus? x := fun x => by
    rw [nodeStatus?, node?, heq]
    rfl
  exact ⟨h.before, (hsame id).trans h.after, fun x hx => (hsame x).trans (h.other x hx)⟩

/-- Who has a third status does not change. -/
theorem same (h : e.Changes e' id old new) (hold : old ≠ s) (hnew : new ≠ s) (x : String) :
    e'.nodeStatus? x = some s ↔ e.nodeStatus? x = some s := by
  by_cases hx : x = id
  · subst hx
    rw [h.before, h.after, Option.some.injEq, Option.some.injEq]
    exact iff_of_false hnew hold
  · rw [h.other x hx]

theorem isSome_iff (h : e.Changes e' id old new) (x : String) :
    (e'.nodeStatus? x).isSome ↔ (e.nodeStatus? x).isSome := by
  by_cases hx : x = id
  · subst hx
    rw [h.before, h.after]
    exact iff_of_true rfl rfl
  · rw [h.other x hx]

end Changes

/-! ## Results under the ids they carry -/

/-- Every result carries the id it is under. -/
def Named (e : Execution) : Prop := ∀ id r, e.node? id = some r → r.nodeId = id

theorem Named.setNode (h : e.Named) (hr : r.nodeId = id) : (e.setNode id r).Named := by
  intro x s hs
  rw [node?_setNode] at hs
  by_cases hx : x = id
  · rw [if_pos hx] at hs; cases hs; rw [hr, hx]
  · rw [if_neg hx] at hs; exact h x s hs

/-- The results stand in the order of their ids, each under the id it carries. -/
structure Tidy (e : Execution) : Prop where
  sorted : Keyed.Sorted e.nodeResults
  named : e.Named

theorem Tidy.setNode (h : e.Tidy) (hr : r.nodeId = id) : (e.setNode id r).Tidy :=
  ⟨Keyed.sorted_insert h.sorted id r, h.named.setNode hr⟩

theorem Tidy.congr {e' : Execution} (h : e.Tidy) (heq : e'.nodeResults = e.nodeResults) : e'.Tidy :=
  ⟨heq ▸ h.sorted, fun id r hr => h.named id r (by rwa [node?, heq] at hr)⟩

theorem Tidy.clearPayloads (h : e.Tidy) : e.clearPayloads.Tidy := by
  refine ⟨Keyed.sorted_mapValues h.sorted _, fun id r hr => ?_⟩
  rw [node?_clearPayloads] at hr
  obtain ⟨s, hs, rfl⟩ := Option.map_eq_some_iff.mp hr
  exact h.named id s hs

end Execution
end Workflows
