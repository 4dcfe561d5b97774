/-
  Workflows.Proofs.Run.Release — nodes are released once, in time and as many as there are slots.

  At every point of the life of a run, whatever order its nodes end in and wherever a request to
  cancel or the timeout falls: no node is launched twice; what feeds a node that has started is
  kept as a success by the store; a count is the number of producers that have not succeeded, so
  it is not zero while one of them is in flight; and the run only waits with a slot free when no
  waiting node has all its producers (`released`).
-/

import Workflows.Proofs.Run.Recorded

namespace Workflows
namespace Engine

variable {r : StartRequest} {p : Plan} {id : String} {e₀ e : Engine} {past : List Moment} {run : ActiveRun}

/-- What holds of the run `id` of a definition `d` with the plan `p` after all that has happened. -/
structure Released (d : Definition) (p : Plan) (id : String) (past : List Moment) (e : Engine)
    (run : ActiveRun) : Prop where
  /-- No node is started twice. -/
  once : (launches past).Nodup
  launched : ∀ x ∈ launches past, run.coordinator.execution.HasStarted x
  /-- What feeds a node that has started is in the store as a success. -/
  fed : ∀ x, run.coordinator.execution.HasStarted x → ∀ a, d.Feeds a x → e.store.nodeStatus? id a = some .success
  /-- The dependencies of a node are the distinct nodes that feed it. -/
  distinct : ∀ x, (p.dependencies x).Nodup ∧ ∀ a, a ∈ p.dependencies x ↔ d.Feeds a x
  counted : ∀ x ∈ p.order, Keyed.get? run.coordinator.pending x =
    some ((p.dependencies x).countP fun a => run.coordinator.execution.nodeStatus? a ≠ some .success)
  /-- Releasing what an ending node feeds never takes one off a count of zero. -/
  unsaturated : ∀ a ∈ run.coordinator.inFlight, ∀ x ∈ p.dependents a, ∃ n,
    Keyed.get? run.coordinator.pending x = some (n + 1)
  /-- The nodes in flight are those that have started and have not ended, each once. -/
  flying : run.coordinator.inFlight.Nodup ∧
    ∀ x, x ∈ run.coordinator.inFlight ↔ run.coordinator.execution.HasStarted x ∧ x ∉ finishes past
  slots : run.coordinator.inFlight.length ≤ max 1 run.coordinator.config.maxConcurrency
  /-- A run that waits and is not stopping uses every slot, or has no node it could start. -/
  full : run.coordinator.isWaiting run.canceled = true → run.coordinator.stopping = false →
    run.coordinator.inFlight.length = max 1 run.coordinator.config.maxConcurrency ∨
      ∀ x ∈ p.order, run.coordinator.execution.nodeStatus? x = some .waiting →
        ∃ a, d.Feeds a x ∧ run.coordinator.execution.nodeStatus? a ≠ some .success

theorem slots_eq (c : Coordinator) : c.slots = max 1 c.config.maxConcurrency := Nat.max_comm _ _

theorem counted_of_runs {c : Coordinator} (h : Runs r p id c) {x : String} (hx : x ∈ p.order) :
    Keyed.get? c.pending x = some ((p.dependencies x).countP fun a => c.execution.nodeStatus? a ≠ some .success) := by
  rw [h.sound.counted x (h.plan.symm ▸ hx), h.plan]
  refine congrArg some (List.countP_congr fun a _ => ?_)
  simp [Execution.succeeded]

theorem positive_of_flying {c : Coordinator} (h : Runs r p id c) {a x : String} (ha : a ∈ c.inFlight)
    (hx : x ∈ p.dependents a) : ∃ n, Keyed.get? c.pending x = some (n + 1) := by
  have hplanned : Plan.ofDefinition c.definition = .ok p := h.plan ▸ h.sound.planned
  have hfeeds := (Plan.mem_dependents hplanned).mp hx
  have hcount := counted_of_runs h (Plan.mem_order_of_feeds hplanned hfeeds).2
  have hpos : 0 < (p.dependencies x).countP fun a => c.execution.nodeStatus? a ≠ some .success := by
    refine List.countP_pos_iff.mpr ⟨a, (Plan.mem_dependencies hplanned).mpr hfeeds, ?_⟩
    simp [(h.sound.flying a).mp ha]
  obtain ⟨n, hn⟩ := Nat.exists_eq_succ_of_ne_zero (Nat.pos_iff_ne_zero.mp hpos)
  exact ⟨n, hcount.trans (congrArg some hn)⟩

/-- A coordinator that waits and is not stopping has no use for another slot. -/
theorem full_of_waiting {c : Coordinator} {canceled : Bool} (h : Runs r p id c) (hw : c.isWaiting canceled = true)
    (hgo : c.stopping = false) : c.inFlight.length = max 1 c.config.maxConcurrency ∨
      ∀ x ∈ p.order, c.execution.nodeStatus? x = some .waiting →
        ∃ a, r.definition.Feeds a x ∧ c.execution.nodeStatus? a ≠ some .success := by
  obtain ⟨-, -, hopen⟩ := Coordinator.isWaiting_iff.mp hw
  rcases (hopen.resolve_left (by rw [hgo]; nofun)).2 with hready | hfull
  · right
    intro x _ hx
    by_contra hall
    have hmem : x ∈ c.ready := by
      refine (h.sound.ready hgo x).mpr ⟨hx, fun a ha => ?_⟩
      by_contra hnot
      exact hall ⟨a, h.definition ▸ ha, hnot⟩
    rw [hready] at hmem
    cases hmem
  · left
    rw [slots_eq] at hfull
    exact Nat.le_antisymm (slots_eq c ▸ h.sound.slots) hfull

/-- At every point of its life a run releases its nodes safely and uses its slots. -/
theorem released (h₀ : Enters r p id e₀) (h : Lives id e₀ past e) (hr : e.run? id = some run) :
    Released r.definition p id past e run := by
  have hruns := h.runs h₀ hr
  have htally := h.tally h₀ hr
  obtain ⟨k, hk, hrecorded⟩ := h.recorded h₀ hr
  have hplanned : Plan.ofDefinition r.definition = .ok p := by
    rw [← hruns.definition, ← hruns.plan]
    exact hruns.sound.planned
  refine
    { once := (List.nodup_append.mp htally.launchedOnce).1
      launched := fun x hx => (htally.launched x).mp (List.mem_append_left _ hx)
      fed := fun x hx a ha => ?_
      distinct := fun x =>
        ⟨nodup_of_ascending (Plan.ascending_dependencies hplanned x), fun a => Plan.mem_dependencies hplanned⟩
      counted := fun x hx => counted_of_runs hruns hx
      unsaturated := fun a ha x hx => positive_of_flying hruns ha hx
      flying := ⟨hruns.sound.flyingOnce, fun x => ?_⟩
      slots := slots_eq run.coordinator ▸ hruns.sound.slots
      full := full_of_waiting hruns }
  · rw [Store.nodeStatus?, hk]
    exact hrecorded.fed x hx a (hruns.definition.symm ▸ ha)
  · rw [hruns.sound.flying x, htally.finished x]
    constructor
    · intro hx
      refine ⟨.inl hx, ?_⟩
      intro hs
      rcases hs with hs | hs <;> exact absurd (hx.symm.trans hs) (by decide)
    · intro hopen
      obtain ⟨hstarted, hnot⟩ := hopen
      exact hstarted.resolve_right hnot

/-- With one slot, the run of `Fork` waits with one node in flight and one ready. -/
theorem released_fork : ∃ past e run, Lives "run" (Fork.entered { maxConcurrency := 1 }) past e ∧
    e.run? "run" = some run ∧ run.coordinator.inFlight = ["b"] ∧ run.coordinator.ready = ["c"] ∧
    run.coordinator.isWaiting run.canceled = true ∧ Released Fork.definition Fork.plan "run" past e run := by
  have hfinished : (Fork.opened { maxConcurrency := 1 }).Moves "run" (.finished "a" (.ok [("main", .null)])) _ :=
    .finished rfl rfl (by decide)
  have hlife := ((Fork.lives_opened _).next hfinished).takeSteps 7
  exact ⟨_, _, _, hlife, rfl, rfl, rfl, rfl, released (Fork.enters _) hlife rfl⟩

end Engine
end Workflows
