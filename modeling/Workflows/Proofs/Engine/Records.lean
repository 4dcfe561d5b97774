/-
  Workflows.Proofs.Engine.Records — the records of all executions, at every point of a history.

  The record of an accepted run is well formed from the moment it is made, both where its
  coordinator has it and where the store keeps it, until it forgets its payloads at the end; the
  record of a refused one holds nothing but why it was refused (`WellRecorded`). Every execution
  is one of these, unless it was in the store before (`recordsWellFormed`).

  Whoever reads the store is given the record as it is, but from a table `null` in place of a
  payload that nests too deeply (`Store.Gives`). So a record that is well formed may not read so:
  a node has succeeded, and the data bag is `null` (`Relay.reads_ill_formed`).
-/

import Workflows.Proofs.Engine.Chronicle
import Workflows.Proofs.Run.WellFormed

namespace Workflows

/-- Whoever reads the store is given the record, from a table with its payloads as far as a text
can hold them. -/
structure Store.Gives (s : Store) (id : String) (e : Execution) : Prop where
  memory : ∀ m, s = .memory m → s.get id = .ok e
  table : ∀ t, s = .table t → e.Plain → s.get id = .ok (e.mapPayloads Json.clip)

theorem Store.gives_of_kept {s : Store} {id : String} {k : Kept} {e : Execution} (h : s.kept? id = some k)
    (hof : k.Of e) : s.Gives id e where
  memory := fun m hm => by
    subst hm
    obtain ⟨old, hold, rfl⟩ := Option.map_eq_some_iff.mp h
    cases hof
    simp only [Store.get, Store.get?, hold]
  table := fun t ht hplain => by
    subst ht
    simp only [Store.get, Store.get?, hplain.get?_of_kept h hof]

/-- The record of a run that has been made, wherever it is. -/
inductive WellRecorded (s : Desk) (p : Prepared) : Prop
  | refused {f : Failure} (planned : p.plan = .error f) (settled : p.execution.Settled)
      (bare : p.execution.nodeResults = []) (gone : s.engine.run? p.execution.id = none)
      (stored : ∀ k, s.engine.store.kept? p.execution.id = some k →
        k.Of p.execution ∧ s.engine.store.Gives p.execution.id p.execution)
  | accepted {plan : Plan} (planned : p.plan = .ok plan) (begun : p.execution.WellFormed plan)
      (alive : ∀ run, s.engine.run? p.execution.id = some run →
        run.coordinator.execution.IsSound p.definition plan ∧ run.coordinator.execution.Settled ∧
          (run.coordinator.closing = false → run.coordinator.execution.WellFormed plan))
      (stored : ∀ k, s.engine.store.kept? p.execution.id = some k →
        ∃ record, k.Of record ∧ record.IsSound p.definition plan ∧ record.Settled ∧
          s.engine.store.Gives p.execution.id record)

/-- All executions are well recorded, but for those that were in the store before. -/
structure RecordsWellFormed (e₀ : Engine) (past : List Entry) (s : Desk) : Prop where
  made : ∀ p : Prepared, p.MadeIn past → WellRecorded s p
  alive : ∀ id run, s.engine.run? id = some run → ∃ p : Prepared, p.MadeIn past ∧ p.execution.id = id
  stored : ∀ id k, s.engine.store.kept? id = some k →
    (∃ p : Prepared, p.MadeIn past ∧ p.execution.id = id) ∨ e₀.store.kept? id = some k

namespace Execution

variable {d : Definition} {p : Plan} {e : Execution}

theorem IsSound.settled (h : e.IsSound d p) : e.Settled := by
  obtain ⟨whole, hwhole, rfl | ⟨-, rfl⟩⟩ := h
  · exact hwhole.toSettled
  · exact ⟨hwhole.stoppedAt, hwhole.error⟩

/-- The record a run begins with is well formed. -/
theorem wellFormed_of_accepted {r : StartRequest} {id : String} (h : Engine.Accepted r p id e)
    (hstopped : e.stoppedAt = none) : e.WellFormed p where
  stoppedAt := by rw [hstopped, isTerminal, h.status]; decide
  error := by rw [h.error, h.status]; decide
  sorted := h.sorted
  known := fun x => by
    rw [h.nodes x]
    split <;> simp [*]
  named := h.named
  results := fun x result hx => by
    rw [h.nodes x] at hx
    split at hx
    · cases hx
      exact NodeResult.wellFormed_waiting
    · cases hx
  data := ⟨[], h.data, Keyed.sorted_nil, fun x => by
    rw [h.nodes x]
    split <;> rfl⟩

end Execution

namespace WellRecorded

variable {s : Desk} {p : Prepared} {f : Failure} {plan : Plan}

theorem of_refused (hmade : p.IsMade) (planned : p.plan = .error f) (gone : s.engine.run? p.execution.id = none)
    (kept : ∀ k, s.engine.store.kept? p.execution.id = some k → k.Of p.execution) : WellRecorded s p := by
  obtain ⟨hstatus, herror, hstopped, hbare⟩ := hmade.refused planned
  refine .refused planned ⟨?_, ?_⟩ hbare gone fun k hk => ⟨kept k hk, Store.gives_of_kept hk (kept k hk)⟩
  · rw [hstopped, Execution.isTerminal, hstatus]; decide
  · exact iff_of_true (by rw [herror]; rfl) hstatus

/-- A run that is yet to be entered. -/
theorem of_accepted (hmade : p.IsMade) (planned : p.plan = .ok plan) (gone : s.engine.run? p.execution.id = none)
    (kept : ∀ k, s.engine.store.kept? p.execution.id = some k → k.Of p.execution) : WellRecorded s p := by
  obtain ⟨r, -, haccepted⟩ := hmade.accepted planned
  have hbegun := Execution.wellFormed_of_accepted haccepted (hmade.stoppedAt planned)
  refine .accepted planned hbegun (fun run hrun => absurd (gone.symm.trans hrun) nofun) fun k hk => ?_
  exact ⟨_, kept k hk, ⟨_, hbegun, .inl rfl⟩, hbegun.toSettled, Store.gives_of_kept hk (kept k hk)⟩

/-- A run of which nothing but the record it was made with is kept. -/
theorem of_gone (hmade : p.IsMade) (gone : s.engine.run? p.execution.id = none)
    (kept : ∀ k, s.engine.store.kept? p.execution.id = some k → k.Of p.execution) : WellRecorded s p := by
  cases hplan : p.plan with
  | error f => exact of_refused hmade hplan gone kept
  | ok plan => exact of_accepted hmade hplan gone kept

end WellRecorded

theorem Prepared.KeptSince.of {p : Prepared} {e₂ e₃ e : Engine} (h : p.KeptSince e₃ e)
    (hcreate : (StartCall.create p).step? e₂ = some (.announce p, e₃)) :
    ∀ k, e.store.kept? p.execution.id = some k → k.Of p.execution := by
  intro k hk
  rcases h with hsame | ⟨-, hnone⟩
  · obtain ⟨k', hk', hof⟩ := kept_of_create hcreate
    cases hk.symm.trans (hsame.trans hk')
    exact hof
  · exact absurd (hnone.symm.trans hk) nofun

theorem Stage.wellRecorded {past : List Entry} {s : Desk} {p : Prepared} (h : Stage past s p) (hmade : p.IsMade) :
    WellRecorded s p := by
  have hunkept : s.engine.store.kept? p.execution.id = none →
      ∀ k, s.engine.store.kept? p.execution.id = some k → k.Of p.execution :=
    fun hnone k hk => absurd (hnone.symm.trans hk) nofun
  cases h with
  | made _ _ _ gone unkept => exact .of_gone hmade gone (hunkept unkept)
  | dropped _ gone unkept => exact .of_gone hmade gone (hunkept unkept)
  | recorded _ _ _ gone create kept => exact .of_gone hmade gone (kept.of create)
  | announced _ _ _ gone create _ kept => exact .of_gone hmade gone (kept.of create)
  | refused _ _ gone create kept => exact .of_gone hmade gone (kept.of create)
  | @living r plan e₁ life store request origin planned entered lives kept free told timed ports =>
    obtain ⟨r', -, haccepted⟩ := hmade.accepted planned
    have hbegun := Execution.wellFormed_of_accepted haccepted (hmade.stoppedAt planned)
    refine .accepted planned hbegun (fun run hrun => ?_) fun k hk => ?_
    · have hsound := lives.isSound entered hrun ports
      obtain ⟨whole, hwhole, hrecord⟩ := lives.wellFormed entered hrun ports
      refine ⟨request ▸ hsound, hsound.settled, fun hopen => ?_⟩
      rw [if_neg (by rw [hopen]; nofun)] at hrecord
      exact hrecord ▸ hwhole
    · obtain ⟨k', record, hk', hof, hsound⟩ := lives.kept_of_sound entered ports
      have hsame := kept.resolve_left (by rw [hk]; nofun)
      cases hk.symm.trans (hsame.trans hk')
      exact ⟨record, hof, request ▸ hsound, hsound.settled, Store.gives_of_kept hk hof⟩

/-- At every point of a history all executions are well recorded. -/
theorem Engine.recordsWellFormed {e₀ : Engine} {past : List Entry} {s : Desk} (h₀ : e₀.IsReady) (h : Hosts e₀ past s) :
    RecordsWellFormed e₀ past s := by
  have hchronicle := h.chronicle h₀
  refine
    { made := fun p hp => (hchronicle.stages p hp).wellRecorded (hchronicle.made p hp)
      alive := fun id run hrun => hchronicle.of_alive hrun
      stored := fun id k hk => ?_ }
  by_cases hold : ∃ p : Prepared, p.MadeIn past ∧ p.execution.id = id
  · exact .inl hold
  · exact .inr (hchronicle.older id (fun p hp hid => hold ⟨p, hp, hid⟩) k hk)

/-! ## A run of one node on a table -/

namespace Relay

open Engine

/-- The engine that has started a run of the workflow, which is kept in a table. -/
def entered (trigger : Json) : Engine := (engine.host.started definition trigger none).2.engine

/-- What happens until the run has written that its node has ended, and the engine then. -/
def ran (trigger : Json) : List Moment × Engine := runNode "run" "n" (.ok [("main", trigger)]) 4 1 (entered trigger)

theorem isReady_host : engine.host.IsReady := Engine.isReady_host rfl rfl rfl rfl rfl

theorem ports_sorted (trigger : Json) : ∀ out, (.ok [("main", trigger)] : Outcome) = .ok out → Keyed.Sorted out :=
  fun _ hout => Except.ok.inj hout ▸ List.pairwise_singleton _ _

/-- The record of the run is well formed once its node has ended. -/
theorem recordsWellFormed_relay : ∃ past s run, engine.host.IsReady ∧ Hosts engine.host past s ∧
    s.engine.run? "run" = some run ∧ run.coordinator.execution = record (.string "go") ∧
    RecordsWellFormed engine.host past s := by
  have hran := (hosts_started engine.host definition (.string "go") none).runNode "run" "n" (.ok [("main", .string "go")])
    4 1 (by decide +kernel) (ports_sorted _)
  have hwrote : ((ran (.string "go")).2.run? "run").map (·.coordinator.execution) = some (record (.string "go")) := by
    decide +kernel
  obtain ⟨run, hrun, hrecord⟩ := Option.map_eq_some_iff.mp hwrote
  exact ⟨_, _, run, isReady_host, hran, hrun, hrecord, recordsWellFormed isReady_host hran⟩

/-- The record of a run whose trigger nests 126 levels deep is well formed, but reads as one whose
data bag is not there though a node has succeeded. -/
theorem reads_ill_formed : ∃ past s run back, engine.host.IsReady ∧ Hosts engine.host past s ∧
    s.engine.run? "run" = some run ∧ run.coordinator.execution.WellFormed plan ∧
    s.engine.store.get "run" = .ok back ∧ ¬ back.WellFormed plan := by
  have hwaits : waitsFor "run" "n" (takeSteps "run" 4 (entered deep)).2 = true := by decide +kernel
  have hran := (hosts_started engine.host definition deep none).runNode "run" "n" (.ok [("main", deep)]) 4 1 hwaits
    (ports_sorted _)
  have henters : Enters ⟨definition, deep, none⟩ plan "run" (entered deep) :=
    .of_startDefinition (e := engine.host) rfl rfl rfl
  have hlives : Lives "run" (entered deep) (ran deep).1 (ran deep).2 := .runNode hwaits
  have hwrites : (ran deep).1.getLast?.any (·.happening.writes) = true := by decide +kernel
  have hwrote : ((ran deep).2.run? "run").map (·.coordinator.execution) = some (record deep) := by decide +kernel
  obtain ⟨run, hrun, hrecord⟩ := Option.map_eq_some_iff.mp hwrote
  obtain ⟨k, hk, hof⟩ := (HasWritten.intro henters hlives hwrites hrun hrecord).kept
  obtain ⟨t, ht⟩ : ∃ t, (ran deep).2.store = .table t := ⟨_, rfl⟩
  have hget := (Store.gives_of_kept hk hof).table t ht (plain_record (Json.whole_nested 126))
  have hdeep : ¬ (record deep).data.depth ≤ Json.depthLimit := by decide +kernel
  refine ⟨_, _, run, _, isReady_host, hran, hrun, ?_, hget, fun hback => ?_⟩
  · obtain ⟨whole, hwhole, hsame | ⟨⟨hterm, -⟩, hcleared⟩⟩ := hlives.isSound henters hrun (ports_of_runNode (ports_sorted _))
    · exact hsame ▸ hwhole
    · have hstatus : whole.status = .running := congrArg Execution.status (hcleared.symm.trans hrecord)
      rw [Execution.isTerminal, hstatus] at hterm
      cases hterm
  · obtain ⟨bag, hbag, -⟩ := hback.data
    rw [Execution.data_mapPayloads_clip hdeep] at hbag
    cases hbag

end Relay
end Workflows
