/-
  Workflows.Proofs.Run.Rejected — how a run that was refused is told from one that has started.

  That a run was refused is not written down: its record is taken for that of a refused one if
  its status is error and it holds the result of no node. A run that has started holds a result
  for each node of its plan. Without nodes there is none that could fail, and none to be in flight
  when the time is up; such a run may be canceled, but it does not end in error
  (`Coordinator.ErrsWithNodes`). So no record of a run that has started is ever taken for that of
  a refused one, neither where the coordinator has it nor as it is kept (`Lives.not_rejected`,
  `Lives.kept_not_rejected`), and readers of the store see the same (`Store.isRejected_of_get?`).
-/

import Workflows.Proofs.Run.WellFormed

namespace Workflows

theorem Execution.isRejected_iff {e : Execution} :
    e.isRejected = true ↔ e.status = .error ∧ ∀ x, e.nodeStatus? x = none := by
  have hempty : e.nodeResults = [] ↔ ∀ x, e.nodeStatus? x = none := by
    refine ⟨fun h x => by rw [nodeStatus?, node?, h]; rfl, fun h => List.eq_nil_iff_forall_not_mem.mpr fun p hp => ?_⟩
    have hsome : (e.node? p.1).isSome := Keyed.mem_keys.mp (List.mem_map.mpr ⟨p, hp, rfl⟩)
    rw [Option.map_eq_none_iff.mp (h p.1)] at hsome
    cases hsome
  rw [isRejected, Bool.and_eq_true, decide_eq_true_iff, List.isEmpty_iff, hempty]

namespace Coordinator

variable {c c' : Coordinator} {canceled : Bool} {x : Happening}

/-- Only a run with nodes is in error. -/
def ErrsWithNodes (c : Coordinator) : Prop := c.execution.status = .error → c.plan.order ≠ []

theorem Sound.order_ne_nil (h : c.Sound) {node : String} {status : NodeStatus}
    (hnode : c.execution.nodeStatus? node = some status) : c.plan.order ≠ [] :=
  List.ne_nil_of_mem ((h.known node).mp (by rw [hnode]; rfl))

theorem ErrsWithNodes.advance (h : c.ErrsWithNodes) (hs : c.Sound) (hs' : c'.Sound) (ha : c.Advance canceled x c') :
    c'.ErrsWithNodes := by
  cases ha with
  | errand | passed | skipped | started | succeeded | failed | canceled | elsewhere => exact h
  | stopped => exact fun herror => absurd herror nofun
  | timedOut now idle flying =>
    intro _
    obtain ⟨node, hnode⟩ := List.exists_mem_of_ne_nil _ flying
    exact hs.order_ne_nil ((hs.flying node).mp hnode)
  | ended now idle landed hend =>
    intro herror
    cases hstop : c.stopping with
    | true =>
      -- its status was settled when it was told to stop
      have hsame := (finalRecord_of_terminal now (hs.ended hstop)).1
      exact h (hsame.symm.trans herror)
    | false =>
      have hverdict := hs'.verdict rfl hstop
      have hfailed : (c.finish now).firstFailure.isSome = true := by
        by_contra hnone
        rw [if_neg hnone] at hverdict
        exact absurd (herror.symm.trans hverdict) nofun
      obtain ⟨node, hnode⟩ := hs'.blamed.mp hfailed
      exact hs'.order_ne_nil hnode

theorem ErrsWithNodes.not_rejected (h : c.ErrsWithNodes) (hs : c.Sound) : c.execution.isRejected = false := by
  refine Bool.eq_false_iff.mpr fun hrejected => ?_
  obtain ⟨herror, hnone⟩ := Execution.isRejected_iff.mp hrejected
  obtain ⟨node, hnode⟩ := List.exists_mem_of_ne_nil _ (h herror)
  have hsome := (hs.known node).mpr hnode
  rw [hnone node] at hsome
  cases hsome

end Coordinator

namespace Engine

variable {r : StartRequest} {p : Plan} {id : String} {e₀ e : Engine} {past : List Moment} {run : ActiveRun}

theorem Lives.errsWithNodes (h₀ : Enters r p id e₀) (h : Lives id e₀ past e) (hr : e.run? id = some run) :
    run.coordinator.ErrsWithNodes := by
  induction h generalizing run with
  | start =>
    obtain ⟨-, types, config, record, hrecord, hrun, -⟩ := h₀.spec
    cases hrun.symm.trans hr
    exact fun herror => absurd (hrecord.status.symm.trans herror) nofun
  | next hlife m ih =>
    obtain ⟨before, hbefore, hturn, -⟩ := m.turn hr
    have hsound := (hlife.runs h₀ hbefore).sound
    exact (ih hbefore).advance hsound ((hlife.next m).runs h₀ hr).sound (hsound.advance hturn)

/-- The record of a run that has started is not taken for that of a refused one. -/
theorem Lives.not_rejected (h₀ : Enters r p id e₀) (h : Lives id e₀ past e) (hr : e.run? id = some run) :
    run.coordinator.execution.isRejected = false :=
  (h.errsWithNodes h₀ hr).not_rejected (h.runs h₀ hr).sound

/-- Nor is what is kept of a run ever taken for the record of a refused one. -/
theorem Lives.kept_not_rejected (h₀ : Enters r p id e₀) (h : Lives id e₀ past e) :
    ∃ k record, e.store.kept? id = some k ∧ k.Of record ∧ record.Tidy ∧ record.isRejected = false := by
  obtain ⟨earlier, e₁, run, k, -, hlife, hrun, hk, hof⟩ := h.kept_earlier h₀
  obtain ⟨_, -, hrecorded⟩ := hlife.recorded h₀ hrun
  exact ⟨k, _, hk, hof, hrecorded.tidy, hlife.not_rejected h₀ hrun⟩

end Engine

/-! ## Reading -/

namespace Store

variable {s : Store} {id : String} {k : Kept} {e back : Execution}

/-- A record reads as that of a refused run exactly if it is. -/
theorem isRejected_of_get? (h : s.get? id = .ok (some back)) (hk : s.kept? id = some k) (hof : k.Of e) (htidy : e.Tidy) :
    back.isRejected = e.isRejected := by
  have hget : s.get id = .ok back := by rw [get, h]
  obtain ⟨k', hk', hstatus⟩ := status_of_get hget
  cases hk.symm.trans hk'
  have hnodes : ∀ x, back.nodeStatus? x = e.nodeStatus? x := fun x => by
    rw [← nodeStatus?_of_get? h, nodeStatus?, hk, Option.bind_some, hof.nodeStatus? htidy]
  rw [Bool.eq_iff_iff, Execution.isRejected_iff, Execution.isRejected_iff, hstatus, hof.status]
  simp only [hnodes]

end Store
end Workflows
