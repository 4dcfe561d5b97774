/-
  Workflows.Proofs.Run.WellFormed — the records of a run are well formed, whatever wrote them.

  A record is written piece by piece: when it is made, as nodes start, end and are skipped, when
  the run is told to stop and when it ends. At every point between two turns its results are
  those of the nodes of the plan, each holds what its status calls for, the data bag is made of
  the successes, and it says when and why the run stopped exactly if it has
  (`Execution.WellFormed`). What is kept of the run is always all of a record it had
  (`Lives.kept_of_sound`), so it is as well formed.
-/

import Workflows.Proofs.Store.Payloads

namespace Workflows

def Json.IsObject (j : Json) : Prop := ∃ members, j = .object members

/-- A node of this status has been started. -/
def NodeStatus.hasStarted : NodeStatus → Bool
  | .running | .success | .error => true
  | .waiting | .skipped => false

/-- The result holds what its status calls for, and nothing else. -/
structure NodeResult.WellFormed (r : NodeResult) : Prop where
  input : if r.status.hasStarted then r.input.IsObject else r.input = .null
  output : if r.status = .success then r.output.IsObject else r.output = .null
  error : r.error.isSome ↔ r.status = .error
  startedAt : r.startedAt.isSome ↔ r.status.hasStarted = true
  stoppedAt : r.stoppedAt.isSome ↔ r.status.isTerminal = true

namespace NodeResult

variable {id : String}

theorem wellFormed_waiting : (waiting id).WellFormed := by
  constructor <;> simp [waiting, NodeStatus.hasStarted, NodeStatus.isTerminal]

theorem wellFormed_skippedAt (t : Instant) : (skippedAt id t).WellFormed := by
  constructor <;> simp [skippedAt, waiting, NodeStatus.hasStarted, NodeStatus.isTerminal]

theorem wellFormed_runningOn (inputs : PortValues) (t : Instant) : (runningOn id inputs t).WellFormed := by
  constructor <;> simp [runningOn, waiting, NodeStatus.hasStarted, NodeStatus.isTerminal, Json.IsObject]

theorem wellFormed_endedWith (inputs : PortValues) (outcome : Outcome) (t t' : Instant) :
    (endedWith id inputs outcome t t').WellFormed := by
  cases outcome <;> constructor <;>
    simp [endedWith, runningOn, waiting, NodeStatus.hasStarted, NodeStatus.isTerminal, Json.IsObject]

end NodeResult

namespace Execution

/-- The record says when the run stopped exactly if it has, and why exactly if it failed. -/
structure Settled (e : Execution) : Prop where
  stoppedAt : e.stoppedAt.isSome ↔ e.isTerminal = true
  error : e.error.isSome ↔ e.status = .error

/-- The record of a run with the plan `p`. -/
structure WellFormed (p : Plan) (e : Execution) : Prop extends Settled e where
  sorted : Keyed.Sorted e.nodeResults
  /-- Each node of the plan has a result, and no other. -/
  known : ∀ x, (e.node? x).isSome ↔ x ∈ p.order
  named : e.Named
  results : ∀ x r, e.node? x = some r → r.WellFormed
  /-- The data bag holds what the successes put out. -/
  data : ∃ bag, e.data = .object bag ∧ Keyed.Sorted bag ∧
    ∀ x, Keyed.get? bag x = ((e.node? x).filter (·.status = .success)).map (·.output)

theorem eq_of_payloads {e : Execution} {results : Keyed NodeResult} {data : Json} (hdata : e.data = data)
    (hnodes : e.nodeResults = results) : e = { e with data := data, nodeResults := results } := by
  subst hdata hnodes
  rfl

/-- The definition asks that the payloads of a run that has ended so be forgotten. -/
def IsForgotten (d : Definition) (e : Execution) : Prop :=
  e.isTerminal = true ∧
    (if e.status = .success then d.settings.saveOnSuccess else d.settings.saveOnError) = .none

/-- The record is well formed, but for the payloads that its run has forgotten at its end. -/
def IsSound (d : Definition) (p : Plan) (e : Execution) : Prop :=
  ∃ whole : Execution, whole.WellFormed p ∧ (e = whole ∨ whole.IsForgotten d ∧ e = whole.clearPayloads)

end Execution

namespace Coordinator

variable {c c' : Coordinator} {canceled : Bool} {x : Happening} {now : Instant}

theorem policy_eq (c : Coordinator) (status : RunStatus) : c.policy status =
    if status = .success then c.definition.settings.saveOnSuccess else c.definition.settings.saveOnError := by
  cases status <;> rfl

theorem settled_finalRecord (h : c.execution.Settled)
    (hgoing : c.execution.isTerminal = false → c.execution.status = .running ∧ c.execution.error = none) :
    (c.finalRecord now).Settled := by
  have hsettled : (c.settled now).Settled := by
    cases hterm : c.execution.isTerminal with
    | true => simpa only [settled, hterm, if_true] using h
    | false =>
      obtain ⟨hstatus, herror⟩ := hgoing hterm
      cases hf : c.firstFailure <;> constructor <;>
        simp [settled, hf, Execution.transition, hstatus, herror, RunStatus.canBecome, RunStatus.isTerminal,
          Execution.isTerminal]
  unfold finalRecord
  dsimp only
  split <;> exact ⟨hsettled.stoppedAt, hsettled.error⟩

theorem settled_advance (h : c.execution.Settled) (hs : c.Sound) (ha : c.Advance canceled x c') :
    c'.execution.Settled := by
  cases ha with
  | errand | passed | skipped | started | succeeded | failed | canceled | elsewhere => exact ⟨h.stoppedAt, h.error⟩
  | stopped | timedOut => constructor <;> simp [Execution.isTerminal, RunStatus.isTerminal]
  | ended now idle landed hend =>
    refine settled_finalRecord h fun hterm => ?_
    have hgo : c.stopping = false := Bool.eq_false_iff.mpr fun hstop => by rw [hs.ended hstop] at hterm; cases hterm
    exact hs.going hgo idle.closing

end Coordinator

namespace Accounted

variable {d : Definition} {trigger : Json} {past : List Engine.Moment} {results : Keyed NodeResult} {bag : DataBag}
  {x : String} {r : NodeResult}

/-- The nodes that have ended are those the run was told of. -/
def EndsTold (past : List Engine.Moment) (results : Keyed NodeResult) : Prop :=
  ∀ x r, Keyed.get? results x = some r → r.status = .success ∨ r.status = .error →
    ∃ e outcome, ⟨e, .finished x outcome⟩ ∈ past

theorem wellFormed (h : Accounted d trigger past results bag) (htold : EndsTold past results)
    (hr : Keyed.get? results x = some r) : r.nodeId = x ∧ r.WellFormed := by
  have hended : r.status = .success ∨ r.status = .error → r.nodeId = x ∧ r.WellFormed := by
    intro hst
    obtain ⟨e, outcome, hmem⟩ := htold x r hr hst
    obtain ⟨⟨t, t', hr'⟩, -⟩ := h.finished e x outcome hmem
    cases hr.symm.trans hr'
    exact ⟨by cases outcome <;> rfl, NodeResult.wellFormed_endedWith _ _ _ _⟩
  cases hst : r.status with
  | waiting =>
    obtain rfl := h.waiting x r hr hst
    exact ⟨rfl, NodeResult.wellFormed_waiting⟩
  | skipped =>
    obtain ⟨t, rfl⟩ := h.skipped x r hr hst
    exact ⟨rfl, NodeResult.wellFormed_skippedAt t⟩
  | running =>
    obtain ⟨t, rfl⟩ := h.running x r hr hst
    exact ⟨rfl, NodeResult.wellFormed_runningOn _ t⟩
  | success => exact hended (.inl hst)
  | error => exact hended (.inr hst)

/-- What a node put out, if it has succeeded, is in the bag. -/
theorem get?_bag (h : Accounted d trigger past results bag) (htold : EndsTold past results)
    (hports : ∀ m ∈ past, ∀ node ports, m.happening = .finished node (.ok ports) → Keyed.Sorted ports) (x : String) :
    (Keyed.get? bag x).map Json.object = ((Keyed.get? results x).filter (·.status = .success)).map (·.output) := by
  cases hr : Keyed.get? results x with
  | none =>
    have hnone : Keyed.get? bag x = none := by
      by_contra hsome
      obtain ⟨r, hr', -⟩ := h.bagged x (Option.isSome_iff_ne_none.mpr hsome)
      exact absurd (hr.symm.trans hr') nofun
    rw [hnone]
    rfl
  | some r =>
    by_cases hst : r.status = .success
    · obtain ⟨e, outcome, hmem⟩ := htold x r hr (.inl hst)
      obtain ⟨⟨t, t', hr'⟩, hbag⟩ := h.finished e x outcome hmem
      cases hr.symm.trans hr'
      cases outcome with
      | error err => cases hst
      | ok ports =>
        have hsorted := hports _ hmem x ports rfl
        rw [hbag]
        simp only [Except.toOption, Option.map_some, Keyed.ofList_of_sorted hsorted]
        rfl
    · rw [h.get?_bag_eq_none hr hst]
      simp [Option.filter, hst]

end Accounted

namespace Engine

variable {r : StartRequest} {p : Plan} {id : String} {e₀ e e' : Engine} {past : List Moment} {run : ActiveRun}

theorem Lives.settled (h₀ : Enters r p id e₀) (h : Lives id e₀ past e) (hr : e.run? id = some run) :
    run.coordinator.execution.Settled := by
  induction h generalizing run with
  | start =>
    obtain ⟨types, config, record, -, hrecord, hstopped, hrun, -⟩ := h₀.opened
    cases hrun.symm.trans hr
    constructor <;> simp [Coordinator.ofPlan, hstopped, Execution.isTerminal, hrecord.status, hrecord.error,
      RunStatus.isTerminal]
  | next hlife m ih =>
    obtain ⟨before, hbefore, hturn, -⟩ := m.turn hr
    have hsound := (hlife.runs h₀ hbefore).sound
    exact Coordinator.settled_advance (ih hbefore) hsound (hsound.advance hturn)

/-- Throughout its life the record of a run is well formed, but for the payloads it forgets at its end. -/
theorem Lives.wellFormed (h₀ : Enters r p id e₀) (h : Lives id e₀ past e) (hr : e.run? id = some run)
    (hports : ∀ m ∈ past, ∀ node ports, m.happening = .finished node (.ok ports) → Keyed.Sorted ports) :
    ∃ whole : Execution, whole.WellFormed p ∧ run.coordinator.execution =
      if run.coordinator.closing = true ∧ run.coordinator.policy run.coordinator.execution.status = .none then
        whole.clearPayloads
      else whole := by
  have hruns := h.runs h₀ hr
  obtain ⟨results, hshows, haccounted⟩ := h.accounted h₀ hr
  obtain ⟨k, -, hrecorded⟩ := h.recorded h₀ hr
  generalize hc : run.coordinator = c at *
  have hstatus : ∀ x, (Keyed.get? results x).map (·.status) = c.execution.nodeStatus? x := by
    intro x
    rw [Execution.nodeStatus?, Execution.node?, hshows.nodes]
    split
    · rw [Keyed.get?_mapValues, Option.map_map]
      rfl
    · rfl
  have hsorted : Keyed.Sorted results := by
    have htidy := hrecorded.tidy.sorted
    rw [hshows.nodes] at htidy
    split at htidy
    · exact Keyed.sorted_of_mapValues htidy
    · exact htidy
  have htold : Accounted.EndsTold past results := by
    intro x s hs hst
    refine mem_finishes.mp (((hc ▸ h.tally h₀ hr).finished x).mpr ?_)
    rw [Execution.HasEnded, ← hstatus x, hs, Option.map_some]
    exact hst.imp (congrArg some) (congrArg some)
  have hwell := fun x s hs => haccounted.wellFormed (x := x) (r := s) htold hs
  refine ⟨{ c.execution with nodeResults := results, data := c.bag.toJson }, ?_, ?_⟩
  · exact
      { stoppedAt := (hc ▸ h.settled h₀ hr).stoppedAt
        error := (hc ▸ h.settled h₀ hr).error
        sorted := hsorted
        known := fun x => by
          rw [← hruns.plan, ← hruns.sound.known x, ← hstatus x, Option.isSome_map]
          rfl
        named := fun x s hs => (hwell x s hs).1
        results := fun x s hs => (hwell x s hs).2
        data := ⟨_, rfl, Keyed.sorted_mapValues haccounted.sorted Json.object, fun x =>
          (Keyed.get?_mapValues _ _ x).trans (haccounted.get?_bag htold hports x)⟩ }
  · have hdata := hshows.data
    have hnodes := hshows.nodes
    split at hdata
    next hclear =>
      rw [if_pos hclear] at hnodes ⊢
      exact Execution.eq_of_payloads hdata hnodes
    next hkeep =>
      rw [if_neg hkeep] at hnodes ⊢
      exact Execution.eq_of_payloads hdata hnodes

theorem Lives.isSound (h₀ : Enters r p id e₀) (h : Lives id e₀ past e) (hr : e.run? id = some run)
    (hports : ∀ m ∈ past, ∀ node ports, m.happening = .finished node (.ok ports) → Keyed.Sorted ports) :
    run.coordinator.execution.IsSound r.definition p := by
  have hruns := h.runs h₀ hr
  obtain ⟨whole, hwhole, hrecord⟩ := h.wellFormed h₀ hr hports
  refine ⟨whole, hwhole, ?_⟩
  split at hrecord
  next hcleared =>
    have hstatus : run.coordinator.execution.status = whole.status := by rw [hrecord]; rfl
    rw [Coordinator.policy_eq, hruns.definition, hstatus] at hcleared
    refine .inr ⟨⟨?_, hcleared.2⟩, hrecord⟩
    rw [Execution.isTerminal, ← hstatus]
    exact hruns.sound.isTerminal_of_closing hcleared.1
  next => exact .inl hrecord

/-- What is kept of a run is always all of its record, as that was at some point of its life. -/
theorem Lives.kept_earlier (h₀ : Enters r p id e₀) (h : Lives id e₀ past e) :
    ∃ earlier e₁ run k, earlier <+: past ∧ Lives id e₀ earlier e₁ ∧ e₁.run? id = some run ∧ e.store.kept? id = some k ∧
      k.Of run.coordinator.execution := by
  induction h with
  | start =>
    obtain ⟨types, config, record, -, -, -, hrun, k, hk, hof⟩ := h₀.opened
    exact ⟨[], _, _, k, List.prefix_refl _, .start, hrun, hk, hof⟩
  | @next past e e' x hlife m ih =>
    cases hw : x.writes with
    | false =>
      obtain ⟨earlier, e₁, run, k, hearlier, hlife₁, hrun, hk, hof⟩ := ih
      refine ⟨earlier, e₁, run, k, hearlier.trans (List.prefix_append _ _), hlife₁, hrun, ?_, hof⟩
      rw [m.kept?_of_not_writes hw]
      exact hk
    | true =>
      -- a run that writes is there before and after
      cases hr' : e'.run? id with
      | none =>
        cases hr : e.run? id with
        | none => rw [Happening.writes_of_not_own (m.not_own_of_gone hr)] at hw; cases hw
        | some run => rw [(m.gone hr hr').1] at hw; cases hw
      | some run' =>
        obtain ⟨run, hr, hturn, -⟩ := m.turn hr'
        obtain ⟨k, hk, hmirrored⟩ := hlife.mirrored h₀ hr
        obtain ⟨_, -, hrecorded⟩ := hlife.recorded h₀ hr
        have hruns := hlife.runs h₀ hr
        have hadvance := hruns.sound.advance hturn
        exact ⟨_, e', run', _, List.prefix_refl _, hlife.next m, hr', m.kept? hr hruns.id_eq hk,
          hmirrored.of_advance hrecorded.tidy hadvance hw⟩

/-- What is kept of a run is always all of a record that is well formed, as far as it is not to be
forgotten. -/
theorem Lives.kept_of_sound (h₀ : Enters r p id e₀) (h : Lives id e₀ past e)
    (hports : ∀ m ∈ past, ∀ node ports, m.happening = .finished node (.ok ports) → Keyed.Sorted ports) :
    ∃ k record, e.store.kept? id = some k ∧ k.Of record ∧ record.IsSound r.definition p := by
  obtain ⟨earlier, e₁, run, k, hearlier, hlife, hrun, hk, hof⟩ := h.kept_earlier h₀
  exact ⟨k, _, hk, hof, hlife.isSound h₀ hrun fun m hm => hports m (hearlier.subset hm)⟩

end Engine
end Workflows
