/-
  Workflows.Proofs.Run.Blame — the failure that the end of a run is blamed on.

  It is one that is recorded of its node, and the error of a run that was not told to stop names
  it.
-/

import Workflows.Proofs.Run.History

namespace Workflows
namespace Coordinator

variable {c c' : Coordinator} {canceled : Bool} {x : Happening} {now : Instant}

structure Blames (c : Coordinator) : Prop where
  failed : ∀ id e, c.firstFailure = some (id, e) →
    ∃ r, c.execution.node? id = some r ∧ r.status = .error ∧ r.error = some e
  named : c.closing = true → c.stopping = false →
    c.execution.error = c.firstFailure.map fun (id, e) => failureText id e

theorem error_finalRecord (hstatus : c.execution.status = .running) (herror : c.execution.error = none) :
    (c.finalRecord now).error = c.firstFailure.map fun (id, e) => failureText id e := by
  have hsettled : (c.settled now).error = c.firstFailure.map fun (id, e) => failureText id e := by
    have hgoing : c.execution.isTerminal = false := by rw [Execution.isTerminal, hstatus]; rfl
    cases hf : c.firstFailure with
    | some first => simp only [settled, hgoing, hf, Bool.false_eq_true, if_false, Option.map_some]
    | none =>
      simp only [settled, hgoing, hf, Bool.false_eq_true, if_false, Execution.transition]
      split <;> exact herror
  rw [← hsettled]
  simp only [finalRecord]
  split <;> rfl

namespace Blames

/-- The result of a node that has not failed changes. -/
theorem setNode (h : c.Blames) {id : String} {old new : NodeResult} (hr : c.execution.node? id = some old)
    (hold : old.status ≠ .error) {y : String} {e : NodeError} (hf : c.firstFailure = some (y, e)) :
    ∃ r, (c.execution.setNode id new).node? y = some r ∧ r.status = .error ∧ r.error = some e := by
  obtain ⟨r, hr', hs, he⟩ := h.failed y e hf
  have hy : y ≠ id := by
    intro heq
    subst heq
    cases hr.symm.trans hr'
    exact hold hs
  exact ⟨r, Execution.node?_setNode.trans ((if_neg hy).trans hr'), hs, he⟩

theorem of_idle (idle : c.Idle) (hclosing : c'.closing = c.closing)
    (h : ∀ id e, c'.firstFailure = some (id, e) →
      ∃ r, c'.execution.node? id = some r ∧ r.status = .error ∧ r.error = some e) : c'.Blames :=
  ⟨h, fun hc => absurd (hclosing.symm.trans hc) (by rw [idle.closing]; decide)⟩

theorem advance (h : c.Blames) (hs : c.Sound) (ha : c.Advance canceled x c') : c'.Blames := by
  cases ha with
  | errand | passed => exact ⟨h.failed, h.named⟩
  | skipped now he hr hw =>
    have hclosing := (hs.toSkip _ (he ▸ List.mem_cons_self)).2.2
    exact ⟨fun y e hf => h.setNode hr (by rw [hw]; decide) hf, fun hc => absurd (hclosing.symm.trans hc) (by decide)⟩
  | stopped now idle going asked => exact of_idle idle rfl h.failed
  | started now idle going unasked slot first hn hr hw fed =>
    exact of_idle idle rfl fun y e hf => h.setNode hr (by rw [hw]; decide) hf
  | ended now idle landed hend =>
    refine ⟨fun y e hf => ?_, fun _ hgo => ?_⟩
    · obtain ⟨r, hr, hs, he⟩ := h.failed y e hf
      have hr : Keyed.get? c.execution.nodeResults y = some r := hr
      have hfinal : (c.finalRecord now).node? y = some r ∨ (c.finalRecord now).node? y = some r.clearPayload := by
        rw [Execution.node?, nodeResults_finalRecord]
        split
        · exact .inr ((Keyed.get?_mapValues _ _ _).trans (by rw [hr]; rfl))
        · exact .inl hr
      rcases hfinal with hfinal | hfinal
      · exact ⟨r, hfinal, hs, he⟩
      · exact ⟨r.clearPayload, hfinal, hs, he⟩
    · obtain ⟨hstatus, herror⟩ := hs.going hgo idle.closing
      exact error_finalRecord hstatus herror
  | timedOut now idle flying going unasked limit => exact of_idle idle rfl h.failed
  | succeeded now idle hr hrun => exact of_idle idle rfl fun y e hf => h.setNode hr (by rw [hrun]; decide) hf
  | @failed id err r now idle hr hrun =>
    refine of_idle idle rfl fun y e hf => ?_
    cases hfirst : c.firstFailure with
    | some first =>
      rw [hfirst] at hf
      exact h.setNode hr (by rw [hrun]; decide) (hfirst.trans hf)
    | none =>
      rw [hfirst] at hf
      cases hf
      exact ⟨_, Execution.node?_setNode.trans (if_pos rfl), rfl, rfl⟩
  | canceled | elsewhere => exact h

end Blames
end Coordinator

namespace Engine

variable {r : StartRequest} {p : Plan} {id : String} {e₀ e : Engine} {past : List Moment} {run : ActiveRun}

theorem Lives.blames (h₀ : Enters r p id e₀) (h : Lives id e₀ past e) (hr : e.run? id = some run) :
    run.coordinator.Blames :=
  h.induction (motive := fun _ run => run.coordinator.Blames) h₀ hr (fun _ _ _ _ => ⟨nofun, nofun⟩)
    fun _ _ _ _ _ _ _ hblames hs ha _ _ => hblames.advance hs ha

end Engine
end Workflows
