/-
  Workflows.Proofs.Run.Forgetting — a run that forgets goes on as one that keeps everything.

  `Coordinator.forgetting` takes the coordinator of a run whose definition keeps all payloads to
  that of the same run under a definition with other settings. They differ in nothing before the
  run is closing, and in the payloads of the record after. No decision reads a payload of the
  record or the two policies before the end, so to take a step and to forget come to the same in
  either order (`step?_forgetting`), and so do to be told something and to forget
  (`receive_forgetting`). Beat by beat, the two runs stay side by side (`replay_forgetting`).
-/

import Workflows.Proofs.Run.Beats
import Workflows.Proofs.Run.WellFormed

namespace Workflows

/-- The definition with settings that keep the payloads of all runs. -/
def Definition.keepingAll (d : Definition) : Definition :=
  { d with settings := { d.settings with saveOnError := .all, saveOnSuccess := .all } }

/-! ## Records under a policy -/

/-- What is left of a result under a policy. -/
def NodeResult.under (r : NodeResult) (p : SavePolicy) : NodeResult := if p = .none then r.clearPayload else r

namespace Execution

/-- What is left of a record under a policy. -/
def under (e : Execution) (p : SavePolicy) : Execution := if p = .none then e.clearPayloads else e

variable {e : Execution} {p : SavePolicy} {x : String} {r : NodeResult}

@[simp]
theorem under_all : e.under .all = e := rfl

@[simp]
theorem id_under : (e.under p).id = e.id := by
  cases p <;> rfl

theorem node?_under : (e.under p).node? x = (e.node? x).map (·.under p) := by
  cases p with
  | all => exact Option.map_id'.symm
  | none => exact node?_clearPayloads

@[simp]
theorem nodeStatus?_under : (e.under p).nodeStatus? x = e.nodeStatus? x := by
  cases p with
  | all => rfl
  | none => exact nodeStatus?_clearPayloads

theorem under_setNode : (e.setNode x r).under p = (e.under p).setNode x (r.under p) := by
  cases p with
  | all => rfl
  | none =>
    exact congrArg (fun results => { e with data := .object [], nodeResults := results })
      (Keyed.mapValues_insert NodeResult.clearPayload e.nodeResults x r)

theorem ofEnded_under : Event.ofEnded (e.under p) = .ofEnded e := by
  cases p <;> rfl

end Execution

/-- The effect with what it writes left under a policy. -/
def Effect.under (p : SavePolicy) : Effect → Effect
  | .save e => .save (e.under p)
  | .saveNode id r => .saveNode id (r.under p)
  | f => f

namespace Coordinator

/-- What the settings of a definition have made of the payloads: nothing until the run is closing. -/
def retention (c : Coordinator) (d : Definition) : SavePolicy :=
  if c.closing then { c with definition := d }.policy c.execution.status else .all

/-- The coordinator as it is under a definition with other settings. -/
def forgetting (c : Coordinator) (d : Definition) : Coordinator :=
  { c with definition := d, execution := c.execution.under (c.retention d) }

variable {c : Coordinator} {d : Definition} {now : Instant} {id : String} {r : NodeResult} {canceled : Bool}

theorem forgetting_of_open (h : c.closing = false) : c.forgetting d = { c with definition := d } := by
  simp only [forgetting, retention, h, Bool.false_eq_true, if_false, Execution.under_all]

/-! ## Errands -/

theorem node?_forgetting :
    (c.forgetting d).execution.node? id = (c.execution.node? id).map (·.under (c.retention d)) :=
  Execution.node?_under

theorem setResult_forgetting :
    (c.forgetting d).setResult id (r.under (c.retention d)) = (c.setResult id r).forgetting d := by
  have hset : ((c.setResult id r).forgetting d).execution =
      (c.execution.under (c.retention d)).setNode id (r.under (c.retention d)) := Execution.under_setNode
  exact congrArg (fun record => { c with definition := d, execution := record }) hset.symm

theorem finishedEvent_forgetting (status : NodeStatus) (error : Option String) :
    (c.forgetting d).finishedEvent id status error = c.finishedEvent id status error := by
  simp only [finishedEvent, forgetting, Execution.id_under]

theorem skipNode_forgetting : (c.forgetting d).skipNode id now = (c.skipNode id now).forgetting d := by
  unfold skipNode
  rw [node?_forgetting]
  cases c.execution.node? id with
  | none => rfl
  | some r =>
    have hresult : ∀ status stoppedAt, { r.under (c.retention d) with status, stoppedAt } =
        NodeResult.under { r with status, stoppedAt } (c.retention d) := by
      intro status stoppedAt
      cases c.retention d <;> rfl
    have hstatus : (r.under (c.retention d)).status = r.status := by
      cases c.retention d <;> rfl
    simp only [Option.map_some, hstatus, hresult, finishedEvent_forgetting]
    split
    · rw [setResult_forgetting]
      rfl
    · rfl

theorem perform_forgetting (e : Errand) : (c.forgetting d).perform now e =
    ((c.perform now e).1.forgetting d, (c.perform now e).2.map (Effect.under (c.retention d))) := by
  cases e with
  | skip id => exact congrArg (·, none) skipNode_forgetting
  | saveNode id =>
    have hid : (c.forgetting d).execution.id = c.execution.id := Execution.id_under
    simp only [perform, node?_forgetting, hid, Option.map_map]
    rfl
  | save | emit | launch | cancel | request | signalDone | leave => rfl

/-! ## Decisions -/

theorem closing_stop (status : RunStatus) (error : Option String) : (c.stop status error now).closing = c.closing := by
  unfold stop
  dsimp only
  split <;> rfl

theorem stop_forgetting (hopen : c.closing = false) (status : RunStatus) (error : Option String) :
    (c.forgetting d).stop status error now = (c.stop status error now).forgetting d := by
  rw [forgetting_of_open hopen, forgetting_of_open ((closing_stop status error).trans hopen)]
  unfold stop
  dsimp only
  split <;> rfl

theorem closing_startNode : (c.startNode id now).closing = c.closing := by
  unfold startNode
  dsimp only
  split <;> rfl

theorem startNode_forgetting (hopen : c.closing = false) (hd : c.definition = d.keepingAll) :
    (c.forgetting d).startNode id now = (c.startNode id now).forgetting d := by
  have hnode : c.definition.node? id = d.node? id := by rw [hd]; rfl
  rw [forgetting_of_open hopen, forgetting_of_open (closing_startNode.trans hopen)]
  unfold startNode
  dsimp only
  rw [hnode]
  cases d.node? id with
  | none => rfl
  | some node =>
    -- the inputs and the context of the node are read off the definition, but not off its settings
    obtain ⟨definition⟩ := c
    dsimp only at hd ⊢
    subst hd
    rfl

/-- A run that keeps everything ends with all of its record. -/
theorem finalRecord_of_keepingAll (hd : c.definition = d.keepingAll) :
    c.finalRecord now = { c.settled now with data := c.bag.toJson } := by
  have hall : ∀ status, c.policy status = .all := by
    intro status
    rw [policy_eq, hd]
    split <;> rfl
  simp only [finalRecord, hall, reduceCtorEq, if_false]

/-- The request for the workflow that handles a failure tells of no payload but the trigger. -/
theorem errorRequest?_under (hd : c.definition = d.keepingAll) (p : SavePolicy) :
    errorRequest? { c with definition := d, execution := c.execution.under p } = c.errorRequest? := by
  have hworkflow : c.definition.settings.errorWorkflow = d.settings.errorWorkflow := by rw [hd]; rfl
  unfold errorRequest?
  dsimp only
  rw [hworkflow]
  cases p <;> rfl

theorem finish_forgetting (hopen : c.closing = false) (hd : c.definition = d.keepingAll) :
    (c.forgetting d).finish now = (c.finish now).forgetting d := by
  have hrecord : finalRecord { c with definition := d } now =
      (c.finalRecord now).under ({ c with definition := d }.policy (c.finalRecord now).status) := by
    rw [finalRecord_of_keepingAll hd]
    rfl
  have hrequest := errorRequest?_under (c := { c with execution := c.finalRecord now, closing := true }) hd
  rw [forgetting_of_open hopen]
  unfold finish
  dsimp only at hrequest ⊢
  rw [hrecord, hrequest, Execution.ofEnded_under]
  rfl

theorem decide?_forgetting (hd : c.definition = d.keepingAll) :
    (c.forgetting d).decide? canceled now = (c.decide? canceled now).map (·.forgetting d) := by
  have hclosing : (c.forgetting d).closing = c.closing := rfl
  have hstopping : (c.forgetting d).stopping = c.stopping := rfl
  have hflight : (c.forgetting d).inFlight = c.inFlight := rfl
  have hslots : (c.forgetting d).slots = c.slots := rfl
  have hready : (c.forgetting d).ready = c.ready := rfl
  unfold decide?
  rw [hclosing, hstopping, hflight, hslots, hready]
  cases hopen : c.closing with
  | true => rfl
  | false =>
    rw [if_neg Bool.false_ne_true, if_neg Bool.false_ne_true, stop_forgetting hopen, finish_forgetting hopen hd]
    split
    · rfl
    · split
      · rw [startNode_forgetting hopen hd]
        rfl
      · split <;> rfl

/-- To take a step and to forget come to the same in either order. -/
theorem step?_forgetting (hd : c.definition = d.keepingAll) : (c.forgetting d).step? canceled now =
    (c.step? canceled now).map fun (c', effect) => (c'.forgetting d, effect.map (Effect.under (c.retention d))) := by
  have herrands : (c.forgetting d).errands = c.errands := rfl
  unfold step?
  rw [herrands]
  cases c.errands with
  | nil =>
    simp only [decide?_forgetting hd, Option.map_map]
    rfl
  | cons e rest =>
    have hrest : { c.forgetting d with errands := rest } = forgetting { c with errands := rest } d := rfl
    simp only [hrest, perform_forgetting]
    rfl

/-! ## What it is told -/

theorem release_forgetting (l : List String) : (c.forgetting d).release l = (c.release l).forgetting d := by
  refine List.foldl_hom (fun c : Coordinator => c.forgetting d) fun c x => ?_
  have hstatus : (c.forgetting d).execution.nodeStatus? x = c.execution.nodeStatus? x := Execution.nodeStatus?_under
  have hpending : (c.forgetting d).pending = c.pending := rfl
  have hstopping : (c.forgetting d).stopping = c.stopping := rfl
  rw [hpending]
  cases Keyed.get? c.pending x with
  | none => rfl
  | some n =>
    dsimp only
    rw [hstatus, hstopping]
    split <;> rfl

theorem complete_forgetting (hopen : c.closing = false) (ports : PortValues) :
    (c.forgetting d).complete id ports now = (c.complete id ports now).forgetting d := by
  rw [forgetting_of_open hopen]
  unfold complete
  dsimp only
  rw [← release_forgetting]
  refine congrArg (fun c : Coordinator => c.release _) (Eq.trans ?_ (forgetting_of_open ?_).symm)
  · rfl
  · exact hopen

theorem fail_forgetting (hopen : c.closing = false) (e : NodeError) :
    (c.forgetting d).fail id e now = (c.fail id e now).forgetting d := by
  have hfailed : (c.fail id e now).closing = false := hopen
  rw [forgetting_of_open hopen, forgetting_of_open hfailed]
  rfl

/-- To be told something and to forget come to the same in either order. -/
theorem receive_forgetting (hopen : c.closing = false) (s : Signal) :
    (c.forgetting d).receive now s = (c.receive now s).forgetting d := by
  cases s with
  | timedOut => exact stop_forgetting (c := { c with errands := [.cancel] }) hopen _ _
  | finished id outcome =>
    have hlanded : ({ c with inFlight := c.inFlight.filter (· ≠ id) } : Coordinator).closing = false := hopen
    cases outcome with
    | ok ports => exact complete_forgetting hlanded ports
    | error e => exact fail_forgetting hlanded e
  | lost id =>
    have hlanded : ({ c with inFlight := c.inFlight.filter (· ≠ id) } : Coordinator).closing = false := hopen
    exact (forgetting_of_open hopen).symm ▸ (forgetting_of_open hlanded).symm ▸ rfl

theorem definition_receive (c : Coordinator) (now : Instant) (s : Signal) :
    (c.receive now s).definition = c.definition := by
  cases s with
  | timedOut => exact (sameRun_stop _ _ _ _).definition
  | finished id outcome =>
    cases outcome with
    | ok ports => exact (sameRun_release _ _).definition
    | error e => rfl
  | lost => rfl

end Coordinator

/-! ## Side by side -/

namespace ActiveRun

variable {run run' : ActiveRun} {d : Definition} {b : Beat}

def forgetting (run : ActiveRun) (d : Definition) : ActiveRun :=
  { run with coordinator := run.coordinator.forgetting d }

theorem feel?_forgetting (effect : Option Effect) (p : SavePolicy) :
    (run.forgetting d).feel? (effect.map (Effect.under p)) = (run.feel? effect).map (·.forgetting d) := by
  cases effect with
  | none => rfl
  | some f => cases f <;> rfl

theorem hear?_forgetting (now : Instant) (s : Signal) :
    (run.forgetting d).hear? now s = (run.hear? now s).map (·.forgetting d) := by
  have hwaits : (run.forgetting d).coordinator.isWaiting (run.forgetting d).canceled =
      run.coordinator.isWaiting run.canceled := rfl
  unfold hear?
  rw [hwaits]
  split
  next hw =>
    have hopen := (Coordinator.isWaiting_iff.mp hw).1.closing
    exact congrArg (fun c => some { run with coordinator := c }) (Coordinator.receive_forgetting hopen s)
  next => rfl

theorem next?_forgetting (hd : run.coordinator.definition = d.keepingAll) :
    (run.forgetting d).next? b = (run.next? b).map (·.forgetting d) := by
  obtain ⟨now, x⟩ := b
  cases x with
  | step =>
    have hstep : (run.forgetting d).coordinator.step? (run.forgetting d).canceled now =
        (run.coordinator.step? run.canceled now).map fun (c, effect) =>
          (c.forgetting d, effect.map (Effect.under (run.coordinator.retention d))) := Coordinator.step?_forgetting hd
    unfold next?
    dsimp only
    rw [hstep]
    cases run.coordinator.step? run.canceled now with
    | none => rfl
    | some next =>
      obtain ⟨c, effect⟩ := next
      exact @feel?_forgetting { run with coordinator := c } d effect _
  | cancel | elsewhere => rfl
  | timeUp => exact hear?_forgetting now .timedOut
  | finished node outcome => exact hear?_forgetting now (.finished node outcome)

theorem definition_feel? {effect : Option Effect} (h : run.feel? effect = some run') :
    run'.coordinator.definition = run.coordinator.definition := by
  cases effect with
  | none => cases h; rfl
  | some f => cases f <;> cases h <;> rfl

theorem definition_hear? {now : Instant} {s : Signal} (h : run.hear? now s = some run') :
    run'.coordinator.definition = run.coordinator.definition := by
  unfold hear? at h
  split at h
  · cases h
    exact Coordinator.definition_receive _ _ _
  · cases h

/-- A run keeps its definition. -/
theorem definition_next? (h : run.next? b = some run') :
    run'.coordinator.definition = run.coordinator.definition := by
  obtain ⟨now, x⟩ := b
  cases x with
  | step =>
    obtain ⟨⟨c, effect⟩, hstep, hfeel⟩ := Option.bind_eq_some_iff.mp h
    exact (definition_feel? hfeel).trans (Coordinator.turn_of_step? hstep).sameRun.definition
  | cancel | elsewhere => cases h; rfl
  | timeUp | finished => exact definition_hear? h

/-- Beat by beat, the run that forgets stays beside the one that keeps everything. -/
theorem replay_forgetting {run : Option ActiveRun} (beats : List Beat)
    (hd : ∀ run' ∈ run, run'.coordinator.definition = d.keepingAll) :
    replay (run.map (·.forgetting d)) beats = (replay run beats).map (·.forgetting d) := by
  induction beats generalizing run with
  | nil => rfl
  | cons b rest ih =>
    have hnext : (run.map (·.forgetting d)).bind (·.next? b) = (run.bind (·.next? b)).map (·.forgetting d) := by
      cases run with
      | none => rfl
      | some run => exact next?_forgetting (hd run rfl)
    have hkept : ∀ run' ∈ run.bind (·.next? b), run'.coordinator.definition = d.keepingAll := by
      intro run' hrun'
      obtain ⟨before, rfl, hbefore⟩ := Option.bind_eq_some_iff.mp hrun'
      exact (definition_next? hbefore).trans (hd before rfl)
    unfold replay
    rw [List.foldl_cons, List.foldl_cons, hnext]
    exact ih hkept

end ActiveRun
end Workflows
