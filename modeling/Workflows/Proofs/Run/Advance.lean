/-
  Workflows.Proofs.Run.Advance — what each turn makes of a sound coordinator.

  In a sound coordinator the guards inside a turn are decided: a ready node is in the
  definition, waits and has been fed, a node to be skipped waits or is skipped already, a node
  that ends was running, and a run that is told to stop was going. `Advance` lists the turns
  with these guards resolved and the coordinator each leads to written out.
-/

import Workflows.Proofs.Run.Sound

namespace Workflows
namespace Coordinator

theorem resultOf_eq {c : Coordinator} {id : String} {r : NodeResult} (h : c.execution.node? id = some r) :
    c.resultOf id = r := by
  rw [resultOf, h, Option.getD_some]

/-- What happens to a sound coordinator, asked to cancel or not, and what becomes of it. -/
inductive Advance (c : Coordinator) (canceled : Bool) : Happening → Coordinator → Prop
  | errand {e : Errand} {rest : List Errand} (now : Instant) (he : c.errands = e :: rest)
      (hskip : ∀ id, e ≠ .skip id) :
      Advance c canceled (.step ({ c with errands := rest }.perform now e).2) { c with errands := rest }
  /-- The node to be skipped has been skipped for an earlier failure. -/
  | passed {id : String} {rest : List Errand} (he : c.errands = .skip id :: rest)
      (hs : c.execution.nodeStatus? id = some .skipped) :
      Advance c canceled (.step none) { c with errands := rest }
  | skipped {id : String} {rest : List Errand} {r : NodeResult} (now : Instant) (he : c.errands = .skip id :: rest)
      (hr : c.execution.node? id = some r) (hw : r.status = .waiting) :
      Advance c canceled (.step none)
        { c with
          execution := c.execution.setNode id { r with status := .skipped, stoppedAt := some now },
          errands := [.saveNode id, .emit (c.finishedEvent id .skipped none)] ++ rest }
  | stopped (now : Instant) (idle : c.Idle) (going : c.stopping = false) (asked : canceled = true) :
      Advance c canceled (.step none)
        { c with
          stopping := true,
          execution := { c.execution with status := .canceled, stoppedAt := some now, error := none },
          errands := [.save] }
  | started {id : String} {rest : NameSet} {node : Node} {r : NodeResult} (now : Instant) (idle : c.Idle)
      (going : c.stopping = false) (unasked : canceled = false) (slot : c.inFlight.length < c.slots)
      (first : c.ready = id :: rest) (hn : c.definition.node? id = some node)
      (hr : c.execution.node? id = some r) (hw : r.status = .waiting) (fed : c.execution.Fed c.definition id) :
      Advance c canceled (.step none)
        { c with
          execution := c.execution.setNode id { r with
            status := .running, input := .object (c.bag.inputs c.definition id c.execution.triggerData),
            startedAt := some now },
          ready := c.ready.filter (· ≠ id), inFlight := c.inFlight ++ [id],
          errands := [.saveNode id, .emit (.nodeStarted c.execution.id id),
            .launch (c.launchOf node (c.bag.inputs c.definition id c.execution.triggerData))] }
  | ended (now : Instant) (idle : c.Idle) (landed : c.inFlight = [])
      (h : c.stopping = true ∨ canceled = false ∧ c.ready = []) :
      Advance c canceled (.step none) (c.finish now)
  | timedOut (now : Instant) (idle : c.Idle) (flying : c.inFlight ≠ []) (going : c.stopping = false)
      (unasked : canceled = false) (limit : c.config.runTimeout.isSome) :
      Advance c canceled .timeUp
        { c with
          stopping := true,
          execution := { c.execution with
            status := .error, stoppedAt := some now,
            error := some (timeoutText (c.config.runTimeout.getD 0)) },
          errands := [.cancel, .save] }
  | succeeded {id : String} {ports : PortValues} {r : NodeResult} {pending : Keyed Nat} {ready : NameSet}
      (now : Instant)
      (idle : c.Idle) (hr : c.execution.node? id = some r) (hrun : r.status = .running) :
      Advance c canceled (.finished id (.ok ports))
        { c with
          inFlight := c.inFlight.filter (· ≠ id),
          execution := { c.execution.setNode id { r with
              status := .success, output := .object ports, stoppedAt := some now } with
            data := (c.bag.record id ports).toJson },
          bag := c.bag.record id ports, pending, ready,
          errands := [.save, .emit (c.finishedEvent id .success none)] }
  | failed {id : String} {e : NodeError} {r : NodeResult} (now : Instant)
      (idle : c.Idle) (hr : c.execution.node? id = some r) (hrun : r.status = .running) :
      Advance c canceled (.finished id (.error e))
        { c with
          inFlight := c.inFlight.filter (· ≠ id),
          execution := c.execution.setNode id { r with status := .error, error := some e, stoppedAt := some now },
          firstFailure := c.firstFailure <|> some (id, e),
          errands := [.saveNode id, .emit (c.finishedEvent id .error (some e.message))] ++
            (if c.execution.isTerminal then [] else c.plan.allDependents id).map Errand.skip }
  | canceled : Advance c canceled .cancel c
  | elsewhere : Advance c canceled .elsewhere c

variable {c c' : Coordinator} {canceled : Bool} {x : Happening}

theorem Sound.advance (h : c.Sound) (ht : c.Turn canceled x c') : c.Advance canceled x c' := by
  cases ht with
  | errand now he hskip => exact .errand now he hskip
  | @skip id rest now he =>
    rcases h.status_of_skip he with hw | hs
    · obtain ⟨r, hr, hrw⟩ := Execution.nodeStatus?_eq_some.mp hw
      rw [skipNode_of_waiting (c := { c with errands := rest }) hr hrw]
      exact .skipped now he hr hrw
    · rw [skipNode_of_not_waiting (c := { c with errands := rest }) (by rw [hs]; nofun)]
      exact .passed he hs
  | stop now idle going asked =>
    rw [stop_eq (h.going going idle.closing).1 rfl, idle.errands]
    exact .stopped now idle going asked
  | @start id rest now idle going unasked slot first =>
    obtain ⟨hw, hfed⟩ := (h.ready going id).mp (first ▸ List.mem_cons_self)
    obtain ⟨node, hn, -⟩ := Plan.node?_isSome h.planned ((h.known id).mp (by rw [hw]; rfl))
    obtain ⟨r, hr, hrw⟩ := Execution.nodeStatus?_eq_some.mp hw
    rw [startNode_eq hn, resultOf_eq hr]
    exact .started now idle going unasked slot first hn hr hrw hfed
  | finish now idle landed hend => exact .ended now idle landed hend
  | timeUp now hw going limit =>
    obtain ⟨idle, flying, hopen⟩ := isWaiting_iff.mp hw
    rw [receive, stop_eq (c := { c with errands := [.cancel] }) (h.going going idle.closing).1 rfl]
    refine .timedOut now idle flying going ?_ limit
    exact (hopen.resolve_left (by rw [going]; nofun)).1
  | @finished id outcome now hw flying =>
    have idle := (isWaiting_iff.mp hw).1
    obtain ⟨r, hr, hrun⟩ := Execution.nodeStatus?_eq_some.mp ((h.flying id).mp flying)
    cases outcome with
    | ok ports =>
      obtain ⟨pending, ready, heq, -⟩ := complete_eq { c with inFlight := c.inFlight.filter (· ≠ id) } id ports now
        (nodup_of_ascending (Plan.ascending_dependents h.planned id))
      rw [receive, heq, succeededResult, resultOf_eq (c := { c with inFlight := c.inFlight.filter (· ≠ id) }) hr]
      exact .succeeded now idle hr hrun
    | error e =>
      rw [receive, fail_eq, failedResult, resultOf_eq (c := { c with inFlight := c.inFlight.filter (· ≠ id) }) hr]
      exact .failed now idle hr hrun
  | canceled => exact .canceled
  | elsewhere => exact .elsewhere

/-- A run that has been told to stop stays so. -/
theorem Advance.stopping_of_stopping (ha : c.Advance canceled x c') (h : c.stopping = true) : c'.stopping = true := by
  cases ha with
  | stopped | timedOut => rfl
  | _ => exact h

end Coordinator
end Workflows
