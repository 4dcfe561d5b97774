/-
  Workflows.Proofs.Run.Turn — everything that can happen to a run next.

  A turn is a step of the coordinator, a request to cancel, word that the time is up or that a
  node has ended, or something that does not concern the run. `Turn` lists the turns with
  their guards and what each makes of the coordinator; whatever is proved of runs is proved of
  every turn in it. That a node is lost is no turn: where node types are in order no run is ever
  told so (`Schedule.Ledger.neverLost`).
-/

import Workflows.Proofs.Run.Record
import Workflows.Run.Coordinator

namespace Workflows

/-- What happens while a run is alive. -/
inductive Happening where
  /-- It takes a step, and this is what the step asked for. -/
  | step (effect : Option Effect)
  /-- It is asked to cancel. -/
  | cancel
  /-- It is told that its time is up. -/
  | timeUp
  /-- It is told how a node has ended. -/
  | finished (node : String) (outcome : Outcome)
  /-- Something that does not concern it. -/
  | elsewhere

namespace Coordinator

/-- Nothing is left to carry out, and the run is not over. -/
structure Idle (c : Coordinator) : Prop where
  errands : c.errands = []
  closing : c.closing = false

/-- What can happen to a run, asked to cancel or not, and what becomes of its coordinator. -/
inductive Turn (c : Coordinator) (canceled : Bool) : Happening → Coordinator → Prop
  | errand {e : Errand} {rest : List Errand} (now : Instant) (he : c.errands = e :: rest)
      (hskip : ∀ id, e ≠ .skip id) :
      Turn c canceled (.step ({ c with errands := rest }.perform now e).2) { c with errands := rest }
  | skip {id : String} {rest : List Errand} (now : Instant) (he : c.errands = .skip id :: rest) :
      Turn c canceled (.step none) ({ c with errands := rest }.skipNode id now)
  | stop (now : Instant) (idle : c.Idle) (going : c.stopping = false) (asked : canceled = true) :
      Turn c canceled (.step none) (c.stop .canceled none now)
  | start {id : String} {rest : NameSet} (now : Instant) (idle : c.Idle) (going : c.stopping = false)
      (unasked : canceled = false) (slot : c.inFlight.length < c.slots) (hr : c.ready = id :: rest) :
      Turn c canceled (.step none) (c.startNode id now)
  | finish (now : Instant) (idle : c.Idle) (landed : c.inFlight = [])
      (h : c.stopping = true ∨ canceled = false ∧ c.ready = []) :
      Turn c canceled (.step none) (c.finish now)
  | timeUp (now : Instant) (hw : c.isWaiting canceled = true) (going : c.stopping = false)
      (limit : c.config.runTimeout.isSome) : Turn c canceled .timeUp (c.receive now .timedOut)
  | finished {id : String} {outcome : Outcome} (now : Instant) (hw : c.isWaiting canceled = true)
      (flying : id ∈ c.inFlight) :
      Turn c canceled (.finished id outcome) (c.receive now (.finished id outcome))
  | canceled : Turn c canceled .cancel c
  | elsewhere : Turn c canceled .elsewhere c

variable {c c' : Coordinator} {canceled : Bool} {now : Instant}

theorem slots_pos (c : Coordinator) : 0 < c.slots := Nat.lt_of_lt_of_le Nat.zero_lt_one (Nat.le_max_right _ _)

/-- A coordinator waits when it is idle with nodes in flight, and either drains them or can
start no other. -/
theorem isWaiting_iff : c.isWaiting canceled = true ↔ c.Idle ∧ c.inFlight ≠ [] ∧
    (c.stopping = true ∨ canceled = false ∧ (c.ready = [] ∨ c.slots ≤ c.inFlight.length)) := by
  constructor
  · intro h
    simp only [isWaiting, Bool.and_eq_true, Bool.or_eq_true, Bool.not_eq_true', List.isEmpty_iff,
      List.isEmpty_eq_false_iff, decide_eq_true_eq] at h
    exact ⟨⟨h.1.1.1, h.1.1.2⟩, h.1.2, h.2⟩
  · intro h
    obtain ⟨⟨h1, h2⟩, h3, h4⟩ := h
    simp only [isWaiting, Bool.and_eq_true, Bool.or_eq_true, Bool.not_eq_true', List.isEmpty_iff,
      List.isEmpty_eq_false_iff, decide_eq_true_eq]
    exact ⟨⟨⟨h1, h2⟩, h3⟩, h4⟩

/-- A decision is to stop, to start a node or to end the run. -/
theorem turn_of_decide? (he : c.errands = []) (h : c.decide? canceled now = some c') :
    c.Turn canceled (.step none) c' := by
  unfold decide? at h
  cases hclosing : c.closing with
  | true => simp [hclosing] at h
  | false =>
    have idle : c.Idle := ⟨he, hclosing⟩
    simp only [hclosing, Bool.false_eq_true, if_false] at h
    cases hstop : c.stopping with
    | true =>
      simp only [hstop, Bool.not_true, Bool.false_and, Bool.false_eq_true, if_false] at h
      by_cases hl : c.inFlight = []
      · simp only [hl, List.isEmpty_nil, if_true, Option.some.injEq] at h
        exact h ▸ .finish now idle hl (.inl hstop)
      · simp [hl] at h
    | false =>
      cases hc : canceled with
      | true =>
        simp only [hstop, hc, Bool.not_false, Bool.and_self, if_true, Option.some.injEq] at h
        exact h ▸ .stop now idle hstop rfl
      | false =>
        simp only [hstop, hc, Bool.not_false, Bool.and_false, Bool.true_and, Bool.false_eq_true, if_false] at h
        by_cases hs : c.inFlight.length < c.slots
        · cases hr : c.ready with
          | cons id rest =>
            simp only [hs, hr, decide_true, Option.some.injEq] at h
            exact h ▸ .start now idle hstop rfl hs hr
          | nil =>
            simp only [hs, hr, decide_true] at h
            by_cases hl : c.inFlight = []
            · simp only [hl, List.isEmpty_nil, if_true, Option.some.injEq] at h
              exact h ▸ .finish now idle hl (.inr ⟨rfl, hr⟩)
            · simp [hl] at h
        · have hl : c.inFlight ≠ [] := by
            intro hl
            rw [hl] at hs
            exact hs c.slots_pos
          simp [hs, hl] at h

theorem turn_of_step? {effect : Option Effect} (h : c.step? canceled now = some (c', effect)) :
    c.Turn canceled (.step effect) c' := by
  unfold step? at h
  split at h
  next e rest he =>
    cases e with
    | skip id => cases h; exact .skip now he
    | save | saveNode | emit | launch | cancel | request | signalDone | leave => cases h; exact .errand now he nofun
  next he =>
    obtain ⟨c'', hc'', h⟩ := Option.map_eq_some_iff.mp h
    cases h
    exact turn_of_decide? he hc''

/-- What a step writes is the record, or a result in it under the id of the record. -/
theorem Turn.save_eq {record : Execution} (h : c.Turn canceled (.step (some (.save record))) c') :
    record = c.execution := by
  generalize hx : Happening.step (some (.save record)) = x at h
  cases h with
  | @errand e rest now he hskip =>
    cases e with
    | save => cases hx; rfl
    | saveNode id =>
      obtain ⟨r, -, h⟩ := Option.map_eq_some_iff.mp (Happening.step.inj hx).symm
      cases h
    | skip id => exact absurd rfl (hskip id)
    | emit | launch | cancel | request | signalDone | leave => cases hx
  | _ => cases hx

theorem Turn.saveNode_eq {execution : String} {r : NodeResult}
    (h : c.Turn canceled (.step (some (.saveNode execution r))) c') :
    ∃ id rest, c.errands = .saveNode id :: rest ∧ c.execution.node? id = some r ∧ execution = c.execution.id := by
  generalize hx : Happening.step (some (.saveNode execution r)) = x at h
  cases h with
  | @errand e rest now he hskip =>
    cases e with
    | saveNode id =>
      obtain ⟨r', hr', h⟩ := Option.map_eq_some_iff.mp (Happening.step.inj hx).symm
      cases h
      exact ⟨id, rest, he, hr', rfl⟩
    | skip id => exact absurd rfl (hskip id)
    | save | emit | launch | cancel | request | signalDone | leave => cases hx
  | _ => cases hx

theorem Turn.leave_eq (h : c.Turn canceled (.step (some .leave)) c') : ∃ rest, c.errands = .leave :: rest := by
  generalize hx : Happening.step (some .leave) = x at h
  cases h with
  | @errand e rest now he hskip =>
    cases e with
    | leave => exact ⟨rest, he⟩
    | saveNode id =>
      obtain ⟨r, -, h⟩ := Option.map_eq_some_iff.mp (Happening.step.inj hx).symm
      cases h
    | skip id => exact absurd rfl (hskip id)
    | save | emit | launch | cancel | request | signalDone => cases hx
  | _ => cases hx

theorem Turn.signalDone_eq (h : c.Turn canceled (.step (some .signalDone)) c') :
    ∃ rest, c.errands = .signalDone :: rest ∧ c' = { c with errands := rest } := by
  generalize hx : Happening.step (some .signalDone) = x at h
  cases h with
  | @errand e rest now he hskip =>
    cases e with
    | signalDone => exact ⟨rest, he, rfl⟩
    | saveNode id =>
      obtain ⟨r, -, h⟩ := Option.map_eq_some_iff.mp (Happening.step.inj hx).symm
      cases h
    | skip id => exact absurd rfl (hskip id)
    | save | emit | launch | cancel | request | leave => cases hx
  | _ => cases hx

/-! ## What the parts of a turn change -/

/-- Releasing nodes counts down and makes nodes ready, and leaves everything else. -/
theorem release_eq (c : Coordinator) {l : List String} (hl : l.Nodup) : ∃ pending ready,
    c.release l = { c with pending, ready } ∧
    (∀ x, Keyed.get? pending x = if x ∈ l then (Keyed.get? c.pending x).map (· - 1) else Keyed.get? c.pending x) ∧
    (c.ready.Pairwise (· < ·) → ready.Pairwise (· < ·)) ∧
    ∀ x, x ∈ ready ↔ x ∈ c.ready ∨ x ∈ l ∧ (Keyed.get? c.pending x).map (· - 1) = some 0 ∧
      c.execution.nodeStatus? x = some .waiting ∧ c.stopping = false := by
  induction l generalizing c with
  | nil => exact ⟨c.pending, c.ready, rfl, fun x => by simp, id, fun x => by simp⟩
  | cons id rest ih =>
    obtain ⟨hid, hrest⟩ := List.nodup_cons.mp hl
    cases hget : Keyed.get? c.pending id with
    | none =>
      obtain ⟨pending, ready, heq, hcount, hasc, hmem⟩ := ih c hrest
      refine ⟨pending, ready, by simpa [release, hget] using heq, fun x => ?_, hasc, fun x => ?_⟩
      · rw [hcount x]
        by_cases hx : x = id
        · subst hx; simp [hid, hget]
        · simp [hx]
      · rw [hmem x]
        by_cases hx : x = id
        · subst hx; simp [hid, hget]
        · simp [hx]
    | some n =>
      by_cases hfree : n - 1 = 0 ∧ c.execution.nodeStatus? id = some .waiting ∧ c.stopping = false
      · obtain ⟨pending, ready, heq, hcount, hasc, hmem⟩ :=
          ih { c with pending := Keyed.insert c.pending id (n - 1), ready := c.ready.insert id } hrest
        refine ⟨pending, ready, by simpa [release, hget, hfree] using heq, fun x => ?_,
          fun h => hasc (NameSet.ascending_insert h id), fun x => ?_⟩
        · rw [hcount x]
          by_cases hx : x = id
          · subst hx; simp [hid, hget]
          · simp [hx, Keyed.get?_insert]
        · rw [hmem x]
          by_cases hx : x = id
          · subst hx; simp [hid, hget, hfree, NameSet.mem_insert]
          · simp [hx, NameSet.mem_insert, Keyed.get?_insert]
      · obtain ⟨pending, ready, heq, hcount, hasc, hmem⟩ :=
          ih { c with pending := Keyed.insert c.pending id (n - 1) } hrest
        refine ⟨pending, ready, by simpa [release, hget, hfree] using heq, fun x => ?_, hasc, fun x => ?_⟩
        · rw [hcount x]
          by_cases hx : x = id
          · subst hx; simp [hid, hget]
          · simp [hx, Keyed.get?_insert]
        · rw [hmem x]
          by_cases hx : x = id
          · subst hx; simp [hid, hget, hfree]
          · simp [hx, Keyed.get?_insert]

variable {id x : String}

/-- What a node that ran to its end leaves in its result. -/
def succeededResult (c : Coordinator) (id : String) (ports : PortValues) (now : Instant) : NodeResult :=
  { c.resultOf id with status := .success, output := .object ports, stoppedAt := some now }

def failedResult (c : Coordinator) (id : String) (e : NodeError) (now : Instant) : NodeResult :=
  { c.resultOf id with status := .error, error := some e, stoppedAt := some now }

theorem startNode_eq {node : Node} (hn : c.definition.node? id = some node) :
    c.startNode id now =
      { c with
        execution := c.execution.setNode id { c.resultOf id with
          status := .running, input := .object (c.bag.inputs c.definition id c.execution.triggerData),
          startedAt := some now },
        ready := c.ready.filter (· ≠ id), inFlight := c.inFlight ++ [id],
        errands := [.saveNode id, .emit (.nodeStarted c.execution.id id),
          .launch (c.launchOf node (c.bag.inputs c.definition id c.execution.triggerData))] } := by
  simp only [startNode, hn]
  rfl

theorem complete_eq (c : Coordinator) (id : String) (ports : PortValues) (now : Instant)
    (hl : (c.plan.dependents id).Nodup) :
    ∃ pending ready,
    c.complete id ports now =
      { c with
        execution := { c.execution.setNode id (c.succeededResult id ports now) with
          data := (c.bag.record id ports).toJson }
        bag := c.bag.record id ports, pending, ready,
        errands := [.save, .emit (c.finishedEvent id .success none)] } ∧
    (∀ x, Keyed.get? pending x =
      if x ∈ c.plan.dependents id then (Keyed.get? c.pending x).map (· - 1) else Keyed.get? c.pending x) ∧
    (c.ready.Pairwise (· < ·) → ready.Pairwise (· < ·)) ∧
    ∀ x, x ∈ ready ↔ x ∈ c.ready ∨ x ∈ c.plan.dependents id ∧ (Keyed.get? c.pending x).map (· - 1) = some 0 ∧
      (if x = id then some .success else c.execution.nodeStatus? x) = some .waiting ∧ c.stopping = false := by
  obtain ⟨pending, ready, heq, hcount, hasc, hmem⟩ := release_eq
    { c with
      execution := { c.execution.setNode id (c.succeededResult id ports now) with
        data := (c.bag.record id ports).toJson }
      bag := c.bag.record id ports,
      errands := [.save, .emit (c.finishedEvent id .success none)] } hl
  refine ⟨pending, ready, heq, hcount, hasc, fun x => ?_⟩
  rw [hmem x]
  have hstatus : Execution.nodeStatus? { c.execution.setNode id (c.succeededResult id ports now) with
      data := (c.bag.record id ports).toJson } x =
        if x = id then some .success else c.execution.nodeStatus? x := Execution.nodeStatus?_setNode
  rw [hstatus]

theorem fail_eq (c : Coordinator) (id : String) (e : NodeError) (now : Instant) :
    c.fail id e now =
      { c with
        execution := c.execution.setNode id (c.failedResult id e now),
        firstFailure := c.firstFailure <|> some (id, e),
        errands := [.saveNode id, .emit (c.finishedEvent id .error (some e.message))] ++
          (if c.execution.isTerminal then [] else c.plan.allDependents id).map Errand.skip } := rfl

theorem skipNode_of_waiting {r : NodeResult} (hr : c.execution.node? id = some r) (hw : r.status = .waiting) :
    c.skipNode id now =
      { c with
        execution := c.execution.setNode id { r with status := .skipped, stoppedAt := some now },
        errands := [.saveNode id, .emit (c.finishedEvent id .skipped none)] ++ c.errands } := by
  simp only [skipNode, hr, hw, if_true]
  rfl

theorem skipNode_of_not_waiting (h : c.execution.nodeStatus? id ≠ some .waiting) : c.skipNode id now = c := by
  unfold skipNode
  split
  next r hr =>
    rw [if_neg]
    intro hw
    exact h (by rw [Execution.nodeStatus?, hr, Option.map_some, hw])
  · rfl

theorem stop_eq {status : RunStatus} {error : Option String} (hrun : c.execution.status = .running)
    (ht : status.isTerminal = true) :
    c.stop status error now =
      { c with
        stopping := true,
        execution := { c.execution with status, stoppedAt := some now, error },
        errands := c.errands ++ [.save] } := by
  simp [stop, Execution.transition, hrun, RunStatus.canBecome, ht]

theorem nodeResults_settled : (c.settled now).nodeResults = c.execution.nodeResults := by
  unfold settled
  split
  · rfl
  · split <;> exact Execution.nodeResults_transition

/-- The final record keeps the results, without their payloads if the definition asks for that. -/
theorem nodeResults_finalRecord (c : Coordinator) (now : Instant) :
    (c.finalRecord now).nodeResults =
      if c.policy (c.finalRecord now).status = .none then c.execution.clearPayloads.nodeResults
      else c.execution.nodeResults := by
  have hclear : Execution.clearPayloads { c.settled now with data := c.bag.toJson } =
      { c.settled now with data := .object [], nodeResults := c.execution.clearPayloads.nodeResults } := by
    simp only [Execution.clearPayloads, nodeResults_settled]
  by_cases hp : c.policy (c.settled now).status = .none
  · simp only [finalRecord, hp, if_true, hclear]
  · simp only [finalRecord, hp, if_false, nodeResults_settled]

theorem data_finalRecord (c : Coordinator) (now : Instant) :
    (c.finalRecord now).data = if c.policy (c.finalRecord now).status = .none then .object [] else c.bag.toJson := by
  by_cases hp : c.policy (c.settled now).status = .none
  · simp only [finalRecord, hp, if_true, Execution.clearPayloads]
  · simp only [finalRecord, hp, if_false]

@[simp]
theorem nodeStatus?_finalRecord : (c.finalRecord now).nodeStatus? x = c.execution.nodeStatus? x := by
  rw [Execution.nodeStatus?, Execution.node?, nodeResults_finalRecord]
  split
  · exact Execution.nodeStatus?_clearPayloads
  · rfl

theorem tidy_finalRecord (h : c.execution.Tidy) : (c.finalRecord now).Tidy := by
  have heq := nodeResults_finalRecord c now
  split at heq
  · exact h.clearPayloads.congr heq
  · exact h.congr heq

/-- The end of a run that was told to stop leaves its status and its error. -/
theorem finalRecord_of_terminal (now : Instant) (h : c.execution.isTerminal = true) :
    (c.finalRecord now).status = c.execution.status ∧ (c.finalRecord now).error = c.execution.error := by
  simp only [finalRecord, settled, h, if_true]
  split <;> exact ⟨rfl, rfl⟩

/-- A run that was not told to stop fails if one of its nodes has. -/
theorem status_finalRecord (h : c.execution.status = .running) :
    (c.finalRecord now).status = if c.firstFailure.isSome then .error else .success := by
  cases hf : c.firstFailure <;>
    · simp only [finalRecord, settled, Execution.isTerminal, h, RunStatus.isTerminal, Bool.false_eq_true, if_false, hf,
        Execution.transition, RunStatus.canBecome, if_true, Option.isSome_some, Option.isSome_none]
      split <;> rfl

theorem skip_not_mem_finish : .skip id ∉ (c.finish now).errands := by
  simp [finish]

/-! ## What no turn changes -/

/-- The two are states of one run. -/
structure SameRun (c c' : Coordinator) : Prop where
  definition : c'.definition = c.definition
  plan : c'.plan = c.plan
  config : c'.config = c.config
  origin : c'.execution.origin = c.execution.origin

theorem SameRun.trigger (h : SameRun c c') : c'.execution.triggerData = c.execution.triggerData :=
  congrArg Execution.Origin.triggerData h.origin

theorem SameRun.refl (c : Coordinator) : SameRun c c := ⟨rfl, rfl, rfl, rfl⟩

theorem SameRun.trans {c'' : Coordinator} (h : SameRun c c') (h' : SameRun c' c'') : SameRun c c'' :=
  ⟨h'.definition.trans h.definition, h'.plan.trans h.plan, h'.config.trans h.config, h'.origin.trans h.origin⟩

theorem sameRun_release (c : Coordinator) (l : List String) : SameRun c (c.release l) := by
  refine List.foldlRecOn l _ (SameRun.refl c) fun c' h id _ => ?_
  cases Keyed.get? c'.pending id with
  | none => exact h
  | some n =>
    dsimp only
    split <;> exact h.trans ⟨rfl, rfl, rfl, rfl⟩

theorem sameRun_stop (c : Coordinator) (status : RunStatus) (error : Option String) (now : Instant) :
    SameRun c (c.stop status error now) := by
  simp only [stop]
  split
  · exact ⟨rfl, rfl, rfl, Execution.origin_transition (e := c.execution)⟩
  · exact ⟨rfl, rfl, rfl, rfl⟩

theorem origin_settled : (c.settled now).origin = c.execution.origin := by
  unfold settled
  split
  · rfl
  · split <;> exact Execution.origin_transition (e := c.execution)

theorem sameRun_finish (c : Coordinator) (now : Instant) : SameRun c (c.finish now) := by
  refine ⟨rfl, rfl, rfl, ?_⟩
  simp only [finish, finalRecord]
  split <;> exact origin_settled (c := c)

theorem Turn.sameRun {x : Happening} (h : c.Turn canceled x c') : SameRun c c' := by
  cases h with
  | errand now he hskip => exact ⟨rfl, rfl, rfl, rfl⟩
  | skip now he =>
    unfold skipNode
    split
    · split <;> exact ⟨rfl, rfl, rfl, rfl⟩
    · exact ⟨rfl, rfl, rfl, rfl⟩
  | stop => exact sameRun_stop _ _ _ _
  | start =>
    simp only [startNode]
    split <;> exact ⟨rfl, rfl, rfl, rfl⟩
  | finish => exact sameRun_finish _ _
  | timeUp =>
    refine SameRun.trans ?_ (sameRun_stop _ _ _ _)
    exact ⟨rfl, rfl, rfl, rfl⟩
  | @finished id outcome =>
    cases outcome with
    | ok ports =>
      refine SameRun.trans ?_ (sameRun_release _ _)
      exact ⟨rfl, rfl, rfl, rfl⟩
    | error e => exact ⟨rfl, rfl, rfl, rfl⟩
  | canceled | elsewhere => exact .refl c

end Coordinator
end Workflows
