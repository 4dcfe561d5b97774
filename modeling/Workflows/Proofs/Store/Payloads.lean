/-
  Workflows.Proofs.Store.Payloads — which payloads a table gives back.

  A table keeps payloads as texts, and a text that nests more than 127 levels deep cannot be
  read: what is kept of it counts as `null`. Nothing keeps a run from writing such a payload,
  since each node may wrap what it is given, and the data bag adds two levels more
  (`Relay.data_comes_back_null`). So whoever reads a record that was put into a table, or that a run
  has just written there, is given every payload as it was, or `null` in place of one that nests
  too deeply, and all of the record exactly if there is none such (`Execution.readsAs_clip`).
-/

import Workflows.Proofs.Json.Roundtrip
import Workflows.Proofs.Run.Durable

namespace Workflows

/-- What becomes of a payload in a table: nothing, unless it nests too deeply. -/
def Json.clip (j : Json) : Json := if j.depth ≤ Json.depthLimit then j else .null

theorem Json.readBack_of_whole {j : Json} (h : j.Whole) : j.readBack = j.clip := valueOfText_compact h

theorem Json.clip_eq_self_iff {j : Json} : j.clip = j ↔ j.depth ≤ Json.depthLimit := by
  rw [clip]
  split
  next hfits => exact iff_of_true rfl hfits
  next hdeep =>
    refine iff_of_false (fun h => ?_) hdeep
    subst h
    exact hdeep (Nat.zero_le _)

namespace Execution

/-- The numbers in the payloads of the record are integers, and its instants lie in the years of
four digits. -/
structure Plain (e : Execution) : Prop where
  tidy : e.Tidy
  whole : ∀ j ∈ e.payloads, j.Whole
  instants : e.InColumn

variable {e : Execution}

theorem Plain.execution_ofExecution (h : e.Plain) :
    (ExecutionRow.ofExecution e).execution = .ok (e.mapPayloads Json.clip) := by
  rw [ExecutionRow.execution_ofExecution_mapPayloads h.tidy h.instants]
  exact congrArg Except.ok (mapPayloads_congr fun j hj => Json.readBack_of_whole (h.whole j hj))

/-- Nothing of a record is lost exactly if none of its payloads nests too deeply. -/
theorem mapPayloads_clip_eq_self_iff : e.mapPayloads Json.clip = e ↔ ∀ j ∈ e.payloads, j.depth ≤ Json.depthLimit :=
  mapPayloads_eq_self_iff.trans (forall₂_congr fun _ _ => Json.clip_eq_self_iff)

theorem data_mapPayloads_clip (h : ¬ e.data.depth ≤ Json.depthLimit) : (e.mapPayloads Json.clip).data = .null :=
  if_neg h

/-- Whoever reads a table that has all of a record. -/
theorem Plain.get?_of_kept {t : TableStore} {k : Kept} {id : String} (he : e.Plain)
    (hk : (Store.table t).kept? id = some k) (hof : k.Of e) : t.get? id = .ok (some (e.mapPayloads Json.clip)) := by
  obtain ⟨row, hrow, rfl⟩ := Option.map_eq_some_iff.mp hk
  cases hof
  simp only [TableStore.get?, hrow, he.execution_ofExecution, Except.map]

end Execution

/-! ## What a run has written -/

/-- After a write of the run what is kept is all of its record. -/
theorem Mirrored.of_advance {k : Kept} {c c' : Coordinator} {canceled : Bool} {x : Happening} (h : Mirrored k c)
    (htidy : c.execution.Tidy) (ha : c.Advance canceled x c') (hx : x.writes = true) : (k.after x).Of c'.execution := by
  cases ha with
  | errand now he => exact (h.of_write htidy he hx).1
  | passed | skipped | stopped | started | ended | timedOut | succeeded | failed | canceled | elsewhere => cases hx

namespace Engine

variable {r : StartRequest} {p : Plan} {id : String} {e₀ e e' : Engine} {past : List Moment} {x : Happening}
  {run : ActiveRun} {record : Execution}

/-- The last thing that happened to the run `id` is that it wrote its record, or the result of a
node, which makes what was written before equal to the record. -/
inductive HasWritten (e : Engine) (id : String) (record : Execution) : Prop
  | intro {r : StartRequest} {p : Plan} {e₀ : Engine} {past : List Moment} {run : ActiveRun} (enters : Enters r p id e₀)
      (lives : Lives id e₀ past e) (writes : past.getLast?.any (·.happening.writes) = true)
      (alive : e.run? id = some run) (wrote : run.coordinator.execution = record)

/-- After a write the store has all of the record. -/
theorem HasWritten.kept (h : e.HasWritten id record) : ∃ k, e.store.kept? id = some k ∧ k.Of record := by
  obtain ⟨enters, lives, writes, hrun, rfl⟩ := h
  cases lives with
  | start => cases writes
  | next hlife moves =>
    rw [List.getLast?_concat, Option.any_some] at writes
    obtain ⟨before, hbefore, hturn, -⟩ := moves.turn hrun
    obtain ⟨k, hk, hmirrored⟩ := hlife.mirrored enters hbefore
    obtain ⟨_, -, hrecorded⟩ := hlife.recorded enters hbefore
    have hruns := hlife.runs enters hbefore
    have hadvance := hruns.sound.advance hturn
    exact ⟨_, moves.kept? hbefore hruns.id_eq hk, hmirrored.of_advance hrecorded.tidy hadvance writes⟩

end Engine

/-! ## Reading what was written -/

/-- What a table gives back of a record, however it came there. -/
structure Execution.ReadsAs (e back : Execution) : Prop where
  created : ∀ t t' : TableStore, t.create e = .ok t' → t'.get? e.id = .ok (some back)
  updated : ∀ (t : TableStore) (old : Execution), t.row? e.id = some (.ofExecution old) → old.Tidy → old.Keeps e →
    ∃ t', t.update e = .ok t' ∧ t'.get? e.id = .ok (some back)
  run : ∀ (engine : Engine) (t : TableStore) (id : String), engine.HasWritten id e → engine.store = .table t →
    t.get? id = .ok (some back)

/-- Whoever reads a record in a table is given its payloads as far as they nest no deeper than a
text can, and `null` in place of the others. -/
theorem Execution.readsAs_clip {e : Execution} (he : e.Plain) :
    e.ReadsAs (e.mapPayloads Json.clip) ∧
      (e.mapPayloads Json.clip = e ↔ ∀ j ∈ e.payloads, j.depth ≤ Json.depthLimit) := by
  refine ⟨⟨fun t t' hcreate => ?_, fun t old hold htidy hkeeps => ?_, fun engine t id hwritten hstore => ?_⟩,
    mapPayloads_clip_eq_self_iff⟩
  · have hcreate' : (Store.table t).create e = .ok (.table t') := by rw [Store.create, hcreate]; rfl
    obtain ⟨k, hk, hof⟩ := Store.kept?_of_create hcreate'
    exact he.get?_of_kept hk hof
  · have hk : (Store.table t).kept? e.id = some (.row (.ofExecution old)) := by rw [Store.kept?, hold]; rfl
    obtain ⟨s, hupdate, hkept⟩ := Store.update_kept hk
    obtain ⟨t', ht', rfl⟩ : ∃ t', t.update e = .ok t' ∧ s = .table t' := by
      rw [Store.update] at hupdate
      cases hu : t.update e with
      | error f => rw [hu] at hupdate; cases hupdate
      | ok t' => rw [hu] at hupdate; exact ⟨t', rfl, (Except.ok.inj hupdate).symm⟩
    exact ⟨t', ht', he.get?_of_kept hkept ((Kept.Of.row old).update htidy he.tidy hkeeps)⟩
  · obtain ⟨k, hk, hof⟩ := hwritten.kept
    exact he.get?_of_kept (hstore ▸ hk) hof

/-! ## A run of one node -/

/-- So many lists, one in the other. -/
def Json.nested : Nat → Json
  | 0 => .null
  | n + 1 => .array [nested n]

theorem Json.whole_nested (n : Nat) : (nested n).Whole := by
  induction n with
  | zero => trivial
  | succ n ih => exact ⟨ih, trivial⟩

namespace Relay

open Engine

/-- A workflow of one node, which hands on what triggered it. -/
def definition : Definition := { name := "relay", nodes := [{ id := "n", type := "trigger" }] }

def plan : Plan := { order := ["n"], roots := ["n"], producers := [("n", [])], consumers := [("n", [])] }

def engine : Engine :=
  { registry := [("trigger", NodeType.trigger)], store := .table {}, ids := { run := fun _ => "run" } }

/-- The engine that has started a run. -/
def begun (trigger : Json) : Engine := (engine.startDefinition definition trigger none).2

/-- What happens until the run has written that its node has ended, and the engine then. -/
def written (trigger : Json) : List Moment × Engine := runNode "run" "n" (.ok [("main", trigger)]) 4 1 (begun trigger)

/-- What the run has written. -/
def record (trigger : Json) : Execution :=
  { id := "run", workflowId := "relay", workflowVersion := 1, status := .running, startedAt := .epoch
    data := .object [("n", .object [("main", trigger)])], triggerData := trigger
    nodeResults := [("n",
      { nodeId := "n", status := .success, input := .object [("main", trigger)], output := .object [("main", trigger)]
        startedAt := some ⟨0, 2000, by decide, by decide⟩, stoppedAt := some ⟨0, 6000, by decide, by decide⟩ })] }

/-- What nests so deeply that a table gives back nothing of the data bag. -/
def deep : Json := .nested 126

theorem hasWritten_deep : (written deep).2.HasWritten "run" (record deep) := by
  have henters : Enters ⟨definition, deep, none⟩ plan "run" (begun deep) := .of_startDefinition (e := engine) rfl rfl rfl
  have hwrites : (written deep).1.getLast?.any (·.happening.writes) = true := by decide +kernel
  have hwrote : ((written deep).2.run? "run").map (·.coordinator.execution) = some (record deep) := by decide +kernel
  obtain ⟨run, hrun, hrecord⟩ := Option.map_eq_some_iff.mp hwrote
  exact .intro henters (.runNode (by decide +kernel)) hwrites hrun hrecord

theorem whole_record {trigger : Json} (h : trigger.Whole) : ∀ j ∈ (record trigger).payloads, j.Whole := by
  have hport : (Json.object [("main", trigger)]).Whole := ⟨List.pairwise_singleton _ _, h, trivial⟩
  intro j hj
  rcases Execution.mem_payloads.mp hj with rfl | rfl | ⟨p, hp, hj⟩
  · exact ⟨List.pairwise_singleton _ _, hport, trivial⟩
  · exact h
  · cases List.mem_singleton.mp hp
    rcases hj with rfl | rfl <;> exact hport

theorem plain_record {trigger : Json} (h : trigger.Whole) : (record trigger).Plain where
  tidy := Execution.Tidy.setNode (e := { record trigger with nodeResults := [] }) ⟨Keyed.sorted_nil, nofun⟩ rfl
  whole := whole_record h
  instants := by
    refine ⟨show Instant.epoch.InColumn by decide, nofun, fun p hp => ?_⟩
    cases List.mem_singleton.mp hp
    constructor <;> rintro t ⟨⟩ <;> decide

/-- A run whose trigger nests 126 levels deep writes a data bag of 128 levels, and whoever reads
its record is given `null` in place of it. -/
theorem data_comes_back_null : ∃ (e : Engine) (t : TableStore) (back : Execution),
    e.HasWritten "run" (record deep) ∧ (record deep).Plain ∧ e.store = .table t ∧ t.get? "run" = .ok (some back) ∧
      back.data = .null ∧ (record deep).data ≠ .null := by
  have hplain := plain_record (Json.whole_nested 126)
  obtain ⟨k, hk, hof⟩ := hasWritten_deep.kept
  obtain ⟨t, hstore⟩ : ∃ t, (written deep).2.store = .table t := ⟨_, rfl⟩
  have hget := hplain.get?_of_kept (hstore ▸ hk) hof
  have hdeep : ¬ (record deep).data.depth ≤ Json.depthLimit := by decide +kernel
  exact ⟨_, t, _, hasWritten_deep, hplain, hstore, hget, Execution.data_mapPayloads_clip hdeep, nofun⟩

end Relay

/-- All of the record of a run that was triggered with a text comes back. -/
theorem Execution.readsAs_clip_relay : (Relay.record (.string "go")).Plain ∧
    (Relay.record (.string "go")).ReadsAs (Relay.record (.string "go")) := by
  have hplain : (Relay.record (.string "go")).Plain := Relay.plain_record trivial
  obtain ⟨hreads, hiff⟩ := readsAs_clip hplain
  have hsame := hiff.mpr (by decide +kernel)
  exact ⟨hplain, hsame ▸ hreads⟩

end Workflows
