/-
  Workflows.Proofs.Run.Bare — a policy that forgets payloads forgets nothing else.

  A run whose definition has the payloads forgotten at its end is held against its counterpart: the
  same run under a definition that keeps everything, entered with the same record, to which the
  same has happened at the same instants. There is one for every life of the run, and once the run
  is over, what either store keeps of it is what the counterpart has left there without the data
  bag and the inputs and outputs of the nodes (`forgetsPayloadsOnly`). The last write covers all
  that was written node by node, so no row of a node keeps a payload.
-/

import Workflows.Proofs.Run.Clients
import Workflows.Proofs.Run.Forgetting

namespace Workflows

def StartRequest.keepingAll (r : StartRequest) : StartRequest := { r with definition := r.definition.keepingAll }

def ActiveRun.keepingAll (run : ActiveRun) : ActiveRun :=
  { run with coordinator := { run.coordinator with definition := run.coordinator.definition.keepingAll } }

/-! ## Without payloads -/

/-- The record with the empty object for its data bag and `null` for what went into and came out of
each node; all else is as it was. -/
def Execution.bare (e : Execution) : Execution :=
  { e with
    data := .object []
    nodeResults := Keyed.mapValues (fun r => { r with input := .null, output := .null }) e.nodeResults }

def NodeRow.bare (row : NodeRow) : NodeRow := { row with input := "null", output := "null" }

/-- The row with the texts of the same for its data bag and the inputs and outputs of its nodes. -/
def ExecutionRow.bare (row : ExecutionRow) : ExecutionRow :=
  { row with data := "\x7b\x7d", nodes := Keyed.mapValues NodeRow.bare row.nodes }

namespace Kept

def bare : Kept → Kept
  | .record e => .record e.bare
  | .row r => .row r.bare

/-- What whoever reads it is given. -/
def read : Kept → Except Failure Execution
  | .record e => .ok e
  | .row r => r.execution

def isRow : Kept → Bool
  | .record _ => false
  | .row _ => true

end Kept

theorem valueOfText_null : valueOfText "null" = .null := by decide +kernel

theorem valueOfText_empty : valueOfText "\x7b\x7d" = .object [] := by decide +kernel

theorem NodeRow.result_bare (row : NodeRow) (id : String) :
    row.bare.result id = (row.result id).map NodeResult.clearPayload := by
  simp only [result, bare, valueOfText_null, bind, Except.bind]
  cases instantOfColumn? row.startedAt with
  | error f => rfl
  | ok started => cases instantOfColumn? row.stoppedAt <;> rfl

/-- The result of a node as it is read, under its id. -/
def NodeRow.entry (p : String × NodeRow) : Except Failure (String × NodeResult) :=
  (p.2.result p.1).map fun r => (p.1, r)

namespace ExecutionRow

theorem execution_eq (row : ExecutionRow) : row.execution = do
    let startedAt ← instantOfColumn row.startedAt
    let stoppedAt ← instantOfColumn? row.stoppedAt
    let nodeResults ← row.nodes.mapM NodeRow.entry
    return { id := row.id, workflowId := row.workflowId, workflowVersion := row.workflowVersion, status := row.status,
             startedAt, stoppedAt, data := valueOfText row.data, error := row.error,
             idempotencyKey := row.idempotencyKey, triggerData := valueOfText row.triggerData, nodeResults } := by
  have hentry : NodeRow.entry = fun p => do return (p.1, ← p.2.result p.1) := by
    funext p
    unfold NodeRow.entry
    cases p.2.result p.1 <;> rfl
  rw [hentry]
  rfl

/-- The row without payloads reads as the row does, without its payloads. -/
theorem execution_bare (row : ExecutionRow) : row.bare.execution = row.execution.map Execution.bare := by
  have hnodes : row.bare.nodes.mapM NodeRow.entry =
      (row.nodes.mapM NodeRow.entry).map (Keyed.mapValues NodeResult.clearPayload) := by
    simp only [bare, Keyed.mapValues, List.mapM_map]
    refine mapM_map_result fun p _ => ?_
    simp only [Function.comp_apply, NodeRow.entry, NodeRow.result_bare]
    cases p.2.result p.1 <;> rfl
  have hdata : valueOfText row.bare.data = .object [] := valueOfText_empty
  have hstarted : row.bare.startedAt = row.startedAt := rfl
  have hstopped : row.bare.stoppedAt = row.stoppedAt := rfl
  rw [execution_eq, execution_eq, hnodes, hdata, hstarted, hstopped]
  cases instantOfColumn row.startedAt with
  | error f => rfl
  | ok started =>
    cases instantOfColumn? row.stoppedAt with
    | error f => rfl
    | ok stopped => cases row.nodes.mapM NodeRow.entry <;> rfl

theorem ofExecution_bare {e : Execution} (htidy : e.Tidy) : ofExecution e.bare = (ofExecution e).bare := by
  have hbare : e.bare.Tidy := htidy.clearPayloads
  refine ext_of_nodes ?_ ?_
  · have hdata : (Json.object []).compact = "\x7b\x7d" := by decide +kernel
    exact congrArg (fun data => { ofExecution e with data, nodes := [] }) hdata
  · have hnull : Json.null.compact = "null" := by decide +kernel
    rw [nodes_ofExecution hbare, bare, nodes_ofExecution htidy]
    simp only [Execution.bare, Keyed.mapValues, List.map_map]
    refine List.map_congr_left fun p _ => ?_
    simp only [Function.comp_apply, NodeRow.ofResult, NodeRow.bare, hnull]

end ExecutionRow

namespace Kept

variable {k k' : Kept} {e : Execution}

theorem read_bare (k : Kept) : k.bare.read = k.read.map Execution.bare := by
  cases k with
  | record e => rfl
  | row r => exact r.execution_bare

theorem isRow_bare (k : Kept) : k.bare.isRow = k.isRow := by
  cases k <;> rfl

theorem Of.bare (h : k.Of e) (htidy : e.Tidy) : k.bare.Of e.bare := by
  cases h with
  | record => exact .record _
  | row =>
    have hrow : Kept.bare (.row (.ofExecution e)) = .row (.ofExecution e.bare) :=
      congrArg Kept.row (ExecutionRow.ofExecution_bare htidy).symm
    exact hrow ▸ .row _

/-- In a store of one kind a record is kept in one way. -/
theorem Of.unique (h : k.Of e) (h' : k'.Of e) (hkind : k.isRow = k'.isRow) : k = k' := by
  cases h with
  | record =>
    cases h' with
    | record => rfl
    | row => cases hkind
  | row =>
    cases h' with
    | record => cases hkind
    | row => rfl

/-- Whatever is written, a record stays a record and a row a row. -/
theorem isRow_after (k : Kept) (x : Happening) : (k.after x).isRow = k.isRow := by
  cases x with
  | step effect =>
    cases effect with
    | none => rfl
    | some f => cases f <;> cases k <;> rfl
  | cancel | timeUp | finished | elsewhere => rfl

end Kept

theorem Store.get_of_kept {s : Store} {id : String} {k : Kept} (h : s.kept? id = some k) : s.get id = k.read := by
  cases s with
  | memory m =>
    obtain ⟨e, he, rfl⟩ := Option.map_eq_some_iff.mp h
    simp only [get, get?, he, Kept.read]
  | table t =>
    obtain ⟨row, hrow, rfl⟩ := Option.map_eq_some_iff.mp h
    simp only [get, get?, TableStore.get?, hrow, Kept.read]
    cases row.execution <;> rfl

/-! ## The counterpart of a run -/

namespace Engine

/-- The same run where all payloads are kept. It is entered with the same record, put into a store
of the same kind, and what happens to it is what has happened to the run, at the same instants. -/
structure Counterpart (r : StartRequest) (p : Plan) (id : String) (e₀ : Engine) (past : List Moment)
    (e₀' : Engine) (past' : List Moment) (e' : Engine) : Prop where
  entered : Enters r.keepingAll p id e₀'
  run : e₀'.run? id = (e₀.run? id).map ActiveRun.keepingAll
  stored : e₀'.store.kept? id = e₀.store.kept? id
  lives : Lives id e₀' past' e'
  beats : beats past' = beats past

variable {r : StartRequest} {p : Plan} {id : String} {e₀ e₀' e e' e₁ : Engine} {past past' : List Moment}
  {run : ActiveRun} {x : Happening} {d : Definition} {q : Prepared} {types : Registry} {k k₀ : Kept}

/-! ### There is one -/

theorem allConnectionErrors_keepingAll (before connections : List Connection) :
    d.keepingAll.allConnectionErrors types before connections = d.allConnectionErrors types before connections := by
  induction connections generalizing before with
  | nil => rfl
  | cons c rest ih =>
    rw [Definition.allConnectionErrors, ih]
    rfl

/-- Neither the check nor the plan of a definition looks at its settings. -/
theorem prepare_keepingAll : prepare d.keepingAll types = prepare d types := by
  have hcheck : d.keepingAll.check types = d.check types := by
    simp only [Definition.check, allConnectionErrors_keepingAll]
    rfl
  have hplan : Plan.ofDefinition d.keepingAll = Plan.ofDefinition d := by
    unfold Plan.ofDefinition
    rfl
  rw [prepare, hcheck, hplan, prepare]

theorem makeRecord_keepingAll : StartCall.makeRecord r.keepingAll types e =
    ({ (StartCall.makeRecord r types e).1 with definition := r.definition.keepingAll },
      (StartCall.makeRecord r types e).2) := by
  simp only [StartCall.makeRecord, StartRequest.keepingAll, prepare_keepingAll]
  rfl

theorem create_redefined (h : (StartCall.create q).step? e = some (.announce q, e')) :
    (StartCall.create { q with definition := d }).step? e = some (.announce { q with definition := d }, e') := by
  simp only [StartCall.step?] at h ⊢
  split at h
  next store hstore =>
    cases h
    rfl
  next => cases h

theorem announce_redefined (h : (StartCall.announce q).step? e = some (.enter q p, e')) :
    (StartCall.announce { q with definition := d }).step? e = some (.enter { q with definition := d } p, e') := by
  simp only [StartCall.step?] at h ⊢
  split at h
  next plan hplan =>
    cases h
    rfl
  next => cases h

/-- A start that has entered a run would have entered its counterpart. -/
theorem Enters.counterpart (h : Enters r p id e) : ∃ e', Enters r.keepingAll p id e' ∧
    e'.run? id = (e.run? id).map ActiveRun.keepingAll ∧ e'.store.kept? id = e.store.kept? id := by
  obtain @⟨types, q, e₁, e₂, e₃, e₄, e₅, e₆, e₇, hprepare, hcreate, hannounce, henter, fresh, hkept⟩ := h
  have hprepare' : (StartCall.prepare r.keepingAll types).step? e₁ =
      some (.create { q with definition := r.definition.keepingAll }, e₂) := by
    have hmade : StartCall.makeRecord r types e₁ = (q, e₂) := by cases hprepare; rfl
    rw [StartCall.step?, makeRecord_keepingAll, hmade]
  have hdefinition : q.definition = r.definition := by cases hprepare; rfl
  have hid : q.execution.id = id := by
    unfold StartCall.step? at henter
    exact Except.ok.inj (StartCall.answered.inj (Prod.mk.inj (Option.some.inj henter)).1)
  have hentered : e = { e₇ with active := e₇.active ++ [(id,
      { coordinator := .ofPlan q.definition p q.types e₇.config q.execution })] } := by
    unfold StartCall.step? at henter
    rw [← hid]
    exact (Prod.mk.inj (Option.some.inj henter)).2.symm
  have henter' : (StartCall.enter { q with definition := r.definition.keepingAll } p).step? e₇ =
      some (.answered (.ok id), { e₇ with active := e₇.active ++ [(id,
        { coordinator := .ofPlan r.definition.keepingAll p q.types e₇.config q.execution })] }) := by
    rw [← hid]
    rfl
  refine ⟨_, .intro hprepare' (create_redefined hcreate) (announce_redefined hannounce) henter' fresh hkept, ?_, ?_⟩
  · rw [run?_entered fresh, hentered, run?_entered fresh, hdefinition]
    rfl
  · rw [hentered]

theorem exists_of_eq_forgetting (h : e.run? id = (e'.run? id).map (·.forgetting d)) (hr : e.run? id = some run) :
    ∃ run', e'.run? id = some run' ∧ run'.forgetting d = run := Option.map_eq_some_iff.mp (h.symm.trans hr)

/-- What happens to a run can happen at the same instant to one that keeps everything beside it. -/
theorem Moves.beside (m : e.Moves id x e₁) (hrun : e.run? id = (e'.run? id).map (·.forgetting d))
    (hd : ∀ run' ∈ e'.run? id, run'.coordinator.definition = d.keepingAll) (hclock : e'.clock = e.clock) :
    ∃ x' e₁', e'.Moves id x' e₁' ∧ Moment.beat? ⟨e', x'⟩ = Moment.beat? ⟨e, x⟩ := by
  cases m with
  | step h =>
    obtain ⟨run, c, hr, hstep, -⟩ := stepRun?_eq_some h
    obtain ⟨run', hr', rfl⟩ := exists_of_eq_forgetting hrun hr
    replace hstep : (run'.coordinator.forgetting d).step? run'.canceled e.clock = _ := hstep
    rw [Coordinator.step?_forgetting (hd run' hr'), ← hclock] at hstep
    obtain ⟨⟨c', effect'⟩, hstep', -⟩ := Option.map_eq_some_iff.mp hstep
    exact ⟨_, _, .step (stepRun?_of_step? hr' hstep'), by simp only [Moment.beat?, hclock]⟩
  | cancel => exact ⟨_, _, .cancel, by simp only [Moment.beat?, hclock]⟩
  | timeUp hr hw going limit =>
    obtain ⟨run', hr', rfl⟩ := exists_of_eq_forgetting hrun hr
    exact ⟨_, _, .timeUp hr' hw going limit, by simp only [Moment.beat?, hclock]⟩
  | @finished run node outcome hr hw flying =>
    obtain ⟨run', hr', rfl⟩ := exists_of_eq_forgetting hrun hr
    exact ⟨.finished node outcome, _, .finished hr' hw flying, by simp only [Moment.beat?, hclock]⟩
  | elsewhere => exact ⟨_, _, .elsewhere rfl rfl, rfl⟩

/-! ### What it leaves -/

/-- A run is its counterpart with what it forgets forgotten. -/
theorem Counterpart.run?_eq (h : Counterpart r p id e₀ past e₀' past' e') (h₀ : Enters r p id e₀)
    (hlife : Lives id e₀ past e) : e.run? id = (e'.run? id).map (·.forgetting r.definition) := by
  obtain ⟨-, types, config, record, -, hr, -⟩ := h₀.spec
  have hbegun : e₀.run? id = (e₀'.run? id).map (·.forgetting r.definition) := by
    rw [h.run, hr]
    rfl
  have hkeeps : ∀ run' ∈ e₀'.run? id, run'.coordinator.definition = r.definition.keepingAll := by
    intro run' hr'
    rw [h.run, hr] at hr'
    cases hr'
    rfl
  rw [hlife.replayed, h.lives.replayed, h.beats, hbegun, ActiveRun.replay_forgetting _ hkeeps]

/-- Every life of a run has a counterpart. -/
theorem Lives.counterpart (h₀ : Enters r p id e₀) (h : Lives id e₀ past e) :
    ∃ e₀' past' e', Counterpart r p id e₀ past e₀' past' e' := by
  obtain ⟨e₀', hentered, hrun, hstored⟩ := h₀.counterpart
  refine ⟨e₀', ?_⟩
  induction h with
  | start => exact ⟨[], e₀', hentered, hrun, hstored, .start, rfl⟩
  | @next past e e₁ x hlife m ih =>
    obtain ⟨past', e', hbeside⟩ := ih
    have hkeeps : ∀ run' ∈ e'.run? id, run'.coordinator.definition = r.definition.keepingAll :=
      fun run' hr' => (hbeside.lives.runs hentered hr').definition
    -- the clock of the other engine is set first
    have hset : e'.Moves id .elsewhere { e' with clock := e.clock } := .elsewhere rfl rfl
    have hrun' : e.run? id = (run? { e' with clock := e.clock } id).map (·.forgetting r.definition) :=
      hbeside.run?_eq h₀ hlife
    obtain ⟨x', e₁', m', hbeat⟩ := m.beside hrun' hkeeps rfl
    refine ⟨_, e₁', hentered, hrun, hstored, (hbeside.lives.next hset).next m', ?_⟩
    have hquiet : Moment.beat? ⟨e', .elsewhere⟩ = none := rfl
    rw [beats_append, beats_append, beats_append, hbeat, hbeside.beats, hquiet, Option.toList_none, List.append_nil]

/-- Whatever happens, what is kept of a run stays a record or a row. -/
theorem Lives.isRow (h₀ : Enters r p id e₀) (h : Lives id e₀ past e) (hk₀ : e₀.store.kept? id = some k₀)
    (hk : e.store.kept? id = some k) : k.isRow = k₀.isRow := by
  induction h generalizing k with
  | start =>
    cases hk.symm.trans hk₀
    rfl
  | @next past e e' x hlife m ih =>
    obtain ⟨before, hbefore⟩ := Option.isSome_iff_exists.mp (hlife.isSome_kept h₀)
    cases hr : e.run? id with
    | none =>
      cases hk.symm.trans ((m.of_gone hr).2.trans hbefore)
      exact ih hbefore
    | some run =>
      cases hk.symm.trans (m.kept? hr (hlife.runs h₀ hr).id_eq hbefore)
      exact (before.isRow_after x).trans (ih hbefore)

end Engine

/-- What a run under the definition has left in the store `s`, where its counterpart has left the
record `whole` in the store `s'`. -/
structure LeavesBare (d : Definition) (id : String) (whole : Execution) (s s' : Store) : Prop where
  ended : whole.isTerminal = true
  kept : ∃ k, s'.kept? id = some k ∧ k.Of whole
  /-- The policy for this status is to forget: the same is kept and read, but for the payloads. -/
  forgotten : whole.IsForgotten d →
    s.kept? id = (s'.kept? id).map Kept.bare ∧ s.get id = (s'.get id).map Execution.bare
  /-- It is to keep: the very same is kept and read. -/
  retained : ¬ whole.IsForgotten d → s.kept? id = s'.kept? id ∧ s.get id = s'.get id

theorem LeavesBare.of_kept {d : Definition} {id : String} {whole : Execution} {s s' : Store} {k k' : Kept}
    (hk : s.kept? id = some k) (hk' : s'.kept? id = some k') (hkind : k.isRow = k'.isRow)
    (ended : whole.isTerminal = true) (htidy : whole.Tidy) (hof' : k'.Of whole)
    (hforgotten : whole.IsForgotten d → k.Of whole.bare) (hretained : ¬ whole.IsForgotten d → k.Of whole) :
    LeavesBare d id whole s s' := by
  have hget := Store.get_of_kept hk
  have hget' := Store.get_of_kept hk'
  refine ⟨ended, ⟨k', hk', hof'⟩, fun hpolicy => ?_, fun hpolicy => ?_⟩
  · have hbare : k = k'.bare := (hforgotten hpolicy).unique (hof'.bare htidy) (hkind.trans k'.isRow_bare.symm)
    rw [hk, hk', hget, hget', hbare, Kept.read_bare]
    exact ⟨rfl, rfl⟩
  · have hsame : k = k' := (hretained hpolicy).unique hof' hkind
    rw [hk, hk', hget, hget', hsame]
    exact ⟨rfl, rfl⟩

namespace Coordinator

variable {c : Coordinator} {d : Definition}

theorem retention_eq_none_iff (hclosing : c.closing = true) (hended : c.execution.isTerminal = true) :
    c.retention d = .none ↔ c.execution.IsForgotten d := by
  rw [retention, if_pos hclosing, policy_eq, Execution.IsForgotten]
  exact (and_iff_right hended).symm

/-- A run that forgets ends with the record of the one that keeps everything, or with what is bare
of it. -/
theorem execution_forgetting (hclosing : c.closing = true) (hended : c.execution.isTerminal = true) :
    (c.execution.IsForgotten d → (c.forgetting d).execution = c.execution.bare) ∧
      (¬ c.execution.IsForgotten d → (c.forgetting d).execution = c.execution) := by
  have hleft : (c.forgetting d).execution = c.execution.under (c.retention d) := rfl
  rw [hleft, ← retention_eq_none_iff hclosing hended]
  cases c.retention d with
  | none => exact ⟨fun _ => rfl, fun hnot => absurd rfl hnot⟩
  | all => exact ⟨nofun, fun _ => rfl⟩

end Coordinator

namespace Engine

variable {r : StartRequest} {p : Plan} {id : String} {e₀ e₀' e e' : Engine} {past past' : List Moment} {k k' : Kept}

theorem Counterpart.isRow_eq (h : Counterpart r p id e₀ past e₀' past' e') (h₀ : Enters r p id e₀)
    (hlife : Lives id e₀ past e) (hk : e.store.kept? id = some k) (hk' : e'.store.kept? id = some k') :
    k.isRow = k'.isRow := by
  obtain ⟨-, types, config, record, -, -, k₀, hk₀, -⟩ := h₀.spec
  exact (hlife.isRow h₀ hk₀ hk).trans (h.lives.isRow h.entered (h.stored.trans hk₀) hk').symm

/-- Once a run is over so is its counterpart, and what is kept of the two is all of their records. -/
theorem Counterpart.over (h : Counterpart r p id e₀ past e₀' past' e') (h₀ : Enters r p id e₀)
    (hlife : Lives id e₀ past e) (hover : ∀ run, e.run? id = some run → run.coordinator.Over) :
    ∃ (c : Coordinator) (k k' : Kept), c.closing = true ∧ c.execution.isTerminal = true ∧ c.execution.Tidy ∧
      e.store.kept? id = some k ∧ k.Of (c.forgetting r.definition).execution ∧
      e'.store.kept? id = some k' ∧ k'.Of c.execution := by
  -- both are looked at where the run was over but not gone yet
  obtain ⟨before, after, e₁, run, rfl, hbefore, hr, hover₁, hsame⟩ := hlife.over h₀ hover
  obtain ⟨first, last, e₁', rfl, hfirst, hbefore', hlater⟩ :=
    h.lives.cut_of_beats (h.beats.trans List.filterMap_append)
  have hbeside : Counterpart r p id e₀ before e₀' first e₁' := ⟨h.entered, h.run, h.stored, hbefore', hfirst⟩
  obtain ⟨run', hr', rfl⟩ := exists_of_eq_forgetting (hbeside.run?_eq h₀ hbefore) hr
  have hover' : run'.coordinator.Over := ⟨hover₁.closing, hover₁.visible⟩
  obtain ⟨-, -, k, hk, hof⟩ := hbefore.kept_of_over h₀ hr hover₁
  obtain ⟨htidy, hended, k', hk', hof'⟩ := hbefore'.kept_of_over h.entered hr' hover'
  have hsame' : e'.store.kept? id = e₁'.store.kept? id :=
    hlater.kept?_of_not_writes (hbefore'.stands h.entered hr' hover' hlater).1
  exact ⟨run'.coordinator, k, k', hover'.closing, hended, htidy, hsame.trans hk, hof, hsame'.trans hk', hof'⟩

/-- Once a run is over, its record is kept in either store as its counterpart leaves it, or without
the payloads if the policy for its status is to forget them; and every run has a counterpart. -/
theorem forgetsPayloadsOnly (h₀ : Enters r p id e₀) (h : Lives id e₀ past e)
    (hover : ∀ run, e.run? id = some run → run.coordinator.Over) :
    (∃ e₀' past' e', Counterpart r p id e₀ past e₀' past' e') ∧
      ∀ e₀' past' e', Counterpart r p id e₀ past e₀' past' e' →
        ∃ whole, LeavesBare r.definition id whole e.store e'.store := by
  refine ⟨h.counterpart h₀, fun e₀' past' e' hcounterpart => ?_⟩
  obtain ⟨c, k, k', hclosing, hended, htidy, hk, hof, hk', hof'⟩ := hcounterpart.over h₀ h hover
  obtain ⟨hforgotten, hretained⟩ := Coordinator.execution_forgetting (d := r.definition) hclosing hended
  have hkind := hcounterpart.isRow_eq h₀ h hk hk'
  exact ⟨c.execution, .of_kept hk hk' hkind hended htidy hof' (fun hpolicy => hforgotten hpolicy ▸ hof)
    fun hpolicy => hretained hpolicy ▸ hof⟩

end Engine

/-! ## A run that forgets -/

namespace Relay

open Engine

/-- The workflow of one node, which keeps no payloads. -/
def forgetful : Definition := { definition with settings := { saveOnError := .none, saveOnSuccess := .none } }

/-- The engine that has started a run, which is kept in a table. -/
def confided : Engine := (engine.startDefinition forgetful (.string "go") none).2

/-- What happens until the run is gone, and the engine then. -/
def forgot : List Moment × Engine := runNode "run" "n" (.ok [("main", .string "secret")]) 4 7 confided

/-- What the node has put out was in the table while the run went on, and is not there any more. -/
theorem forgetsPayloadsOnly_relay : ∃ past e, Lives "run" confided past e ∧
    (∀ run, e.run? "run" = some run → run.coordinator.Over) ∧
    (∃ m ∈ past, (m.engine.store.get "run").map (·.data) =
      .ok (.object [("n", .object [("main", .string "secret")])])) ∧
    (e.store.get "run").map (·.data) = .ok (.object []) ∧
    (∃ e₀' past' e', Counterpart ⟨forgetful, .string "go", none⟩ plan "run" confided past e₀' past' e') ∧
      ∀ e₀' past' e', Counterpart ⟨forgetful, .string "go", none⟩ plan "run" confided past e₀' past' e' →
        ∃ whole, LeavesBare forgetful "run" whole e.store e'.store := by
  have henters : Enters ⟨forgetful, .string "go", none⟩ plan "run" confided :=
    .of_startDefinition (e := engine) rfl rfl rfl
  have hlives : Lives "run" confided forgot.1 forgot.2 := .runNode (by decide +kernel)
  have hgone : forgot.2.run? "run" = none := Option.isNone_iff_eq_none.mp (by decide +kernel)
  have hover : ∀ run, forgot.2.run? "run" = some run → run.coordinator.Over :=
    fun run hr => absurd (hgone.symm.trans hr) nofun
  refine ⟨forgot.1, forgot.2, hlives, hover, ?_, by decide +kernel, forgetsPayloadsOnly henters hlives hover⟩
  have hany : forgot.1.any (fun m => (m.engine.store.get "run").map (·.data) =
      .ok (.object [("n", .object [("main", .string "secret")])])) = true := by decide +kernel
  obtain ⟨m, hm, heq⟩ := List.any_eq_true.mp hany
  exact ⟨m, hm, of_decide_eq_true heq⟩

end Relay
end Workflows
