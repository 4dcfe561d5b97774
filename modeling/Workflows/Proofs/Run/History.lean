/-
  Workflows.Proofs.Run.History — the life of one run in an engine where anything else goes on.

  A run begins when its start call enters it (`Enters`); between the steps of that call, and
  between any two turns of the run, the engine may do whatever leaves this run and what the
  store keeps of it alone. `Lives` lists all that has happened since, each happening with the
  engine it met. Every happening is a turn of the coordinator (`Moves.turn`) and changes what is
  kept by what it wrote (`Moves.kept?`), so what turns preserve holds throughout a life
  (`Lives.sound`).
-/

import Workflows.Engine.Calls
import Workflows.NodeType.Builtin
import Workflows.Proofs.Definition.Checked
import Workflows.Proofs.Run.Advance
import Workflows.Proofs.Store.Kept

namespace Workflows

/-- It leaves the run asked to cancel. -/
def Happening.asksToCancel : Happening → Bool
  | .cancel | .step (some .cancel) => true
  | _ => false

/-- Where the run `id` of a request comes from. -/
def StartRequest.origin (r : StartRequest) (id : String) : Execution.Origin :=
  ⟨id, r.definition.key, r.definition.version, r.key, r.trigger⟩

/-- What a happening leaves of what was kept of the run. -/
def Kept.after (k : Kept) : Happening → Kept
  | .step (some (.save e)) => k.update e
  | .step (some (.saveNode _ r)) => k.putNode r
  | _ => k

namespace Engine

/-- One thing happens in the engine, as it looks from the run `id`. -/
inductive Moves (id : String) (e : Engine) : Happening → Engine → Prop
  | step {e' : Engine} {effect : Option Effect} (h : e.stepRun? id = some (e', effect)) : Moves id e (.step effect) e'
  | cancel : Moves id e .cancel (e.cancelActive id)
  | timeUp {run : ActiveRun} (hr : e.run? id = some run) (hw : run.coordinator.isWaiting run.canceled = true)
      (going : run.coordinator.stopping = false) (limit : run.coordinator.config.runTimeout.isSome) :
      Moves id e .timeUp (e.signal id .timedOut)
  | finished {run : ActiveRun} {node : String} {outcome : Outcome} (hr : e.run? id = some run)
      (hw : run.coordinator.isWaiting run.canceled = true) (flying : node ∈ run.coordinator.inFlight) :
      Moves id e (.finished node outcome) (e.signal id (.finished node outcome))
  | elsewhere {e' : Engine} (hr : e'.run? id = e.run? id) (hk : e'.store.kept? id = e.store.kept? id) :
      Moves id e .elsewhere e'

/-- A happening and the engine it met. -/
structure Moment where
  engine : Engine
  happening : Happening

/-- What has happened since `e₀`, in order, and led to an engine. -/
inductive Lives (id : String) (e₀ : Engine) : List Moment → Engine → Prop
  | start : Lives id e₀ [] e₀
  | next {past : List Moment} {e e' : Engine} {x : Happening} (h : Lives id e₀ past e) (m : e.Moves id x e') :
      Lives id e₀ (past ++ [⟨e, x⟩]) e'

/-- A start call has entered the run `id` of a request with the plan `p`, and the engine is now
`e`. Anything may have happened between its steps but to the record it put into the store. -/
inductive Enters (r : StartRequest) (p : Plan) (id : String) (e : Engine) : Prop
  | intro {types : Registry} {prepared : Prepared} {e₀ e₁ e₂ e₃ e₄ e₅ e₆ : Engine}
      (prepare : (StartCall.prepare r types).step? e₀ = some (.create prepared, e₁))
      (create : (StartCall.create prepared).step? e₂ = some (.announce prepared, e₃))
      (announce : (StartCall.announce prepared).step? e₄ = some (.enter prepared p, e₅))
      (enter : (StartCall.enter prepared p).step? e₆ = some (.answered (.ok id), e))
      (fresh : e₆.run? id = none) (kept : e₆.store.kept? id = e₃.store.kept? id)

/-! ## What becomes of the run -/

variable {id : String} {e e' : Engine} {run run' : ActiveRun} {x : Happening}

theorem run?_modifyRun (f : ActiveRun → ActiveRun) : (e.modifyRun id f).run? id = (e.run? id).map f := by
  simp only [run?, modifyRun]
  induction e.active with
  | nil => rfl
  | cons p rest ih =>
    obtain ⟨k, r⟩ := p
    by_cases hk : k = id
    · simp [hk]
    · simpa [hk, List.find?_cons] using ih

theorem run?_entered (hgone : e.run? id = none) (run : ActiveRun) :
    run? { e with active := e.active ++ [(id, run)] } id = some run := by
  have hnone : e.active.find? (·.1 == id) = none := Option.map_eq_none_iff.mp hgone
  simp [run?, List.find?_append, hnone]

theorem run?_write (f : Store → Except Failure Store) : (e.write f).run? id = e.run? id := by
  unfold write
  split <;> rfl

theorem run?_apply (effect : Effect) :
    (e.apply id effect).run? id =
      match effect with
      | .cancel => (e.run? id).map fun r => { r with canceled := true }
      | .signalDone => (e.run? id).map fun r => { r with done := true }
      | .leave => none
      | _ => e.run? id := by
  cases effect with
  | save | saveNode => exact run?_write _
  | emit | launch | request => rfl
  | cancel | signalDone => exact run?_modifyRun _
  | leave => simp [apply, run?]

/-- The engine after the coordinator of the run has taken a step, before that step has any
effect. -/
def withCoordinator (e : Engine) (id : String) (c : Coordinator) : Engine :=
  { e with clock := e.clock.tick }.modifyRun id fun r => { r with coordinator := c }

theorem stepRun?_eq_some {effect : Option Effect} (h : e.stepRun? id = some (e', effect)) :
    ∃ run c, e.run? id = some run ∧ run.coordinator.step? run.canceled e.clock = some (c, effect) ∧
      e' = effect.elim (e.withCoordinator id c) ((e.withCoordinator id c).apply id) := by
  simp only [stepRun?, bind, Option.bind_eq_some_iff] at h
  obtain ⟨run, hrun, ⟨c, f⟩, hstep, h⟩ := h
  refine ⟨run, c, hrun, ?_⟩
  cases f with
  | none => cases h; exact ⟨hstep, rfl⟩
  | some f => cases h; exact ⟨hstep, rfl⟩

theorem run?_withCoordinator (c : Coordinator) :
    (e.withCoordinator id c).run? id = (e.run? id).map fun r => { r with coordinator := c } := by
  rw [withCoordinator, run?_modifyRun]
  simp only [run?]

theorem run?_signal (s : Signal) :
    (e.signal id s).run? id = (e.run? id).map fun r => { r with coordinator := r.coordinator.receive e.clock s } := by
  rw [signal, readClock, run?_modifyRun]
  simp only [run?]

/-- A happening is a turn of a run that it does not end. -/
theorem Moves.turn (m : e.Moves id x e') (hr : e'.run? id = some run') :
    ∃ run, e.run? id = some run ∧ run.coordinator.Turn run.canceled x run'.coordinator ∧
      run'.canceled = (run.canceled || x.asksToCancel) ∧ x ≠ .step (some .leave) := by
  cases m with
  | @step _ effect h =>
    obtain ⟨run, c, hrun, hstep, rfl⟩ := stepRun?_eq_some h
    refine ⟨run, hrun, ?_⟩
    have hturn := Coordinator.turn_of_step? hstep
    have hafter : (e.withCoordinator id c).run? id = some { run with coordinator := c } := by
      rw [run?_withCoordinator, hrun, Option.map_some]
    cases effect with
    | none =>
      cases hafter.symm.trans hr
      exact ⟨hturn, by simp [Happening.asksToCancel], nofun⟩
    | some f =>
      replace hr : ((e.withCoordinator id c).apply id f).run? id = some run' := hr
      rw [run?_apply, hafter] at hr
      cases f with
      | leave => cases hr
      | save | saveNode | emit | launch | cancel | request | signalDone =>
        cases hr
        exact ⟨hturn, by simp [Happening.asksToCancel], nofun⟩
  | cancel =>
    rw [cancelActive, run?_modifyRun] at hr
    obtain ⟨run, hrun, rfl⟩ := Option.map_eq_some_iff.mp hr
    exact ⟨run, hrun, .canceled, by simp [Happening.asksToCancel], nofun⟩
  | @timeUp run hrun hw going limit =>
    rw [run?_signal, hrun] at hr
    cases hr
    exact ⟨run, hrun, .timeUp _ hw going limit, by simp [Happening.asksToCancel], nofun⟩
  | @finished run node outcome hrun hw flying =>
    rw [run?_signal, hrun] at hr
    cases hr
    exact ⟨run, hrun, .finished _ hw flying, by simp [Happening.asksToCancel], nofun⟩
  | elsewhere hsame hk =>
    exact ⟨run', hsame ▸ hr, .elsewhere, by simp [Happening.asksToCancel], nofun⟩

/-! ## What becomes of what is kept -/

theorem store_withCoordinator (c : Coordinator) : (e.withCoordinator id c).store = e.store := rfl

/-- What is kept of the run changes by what the run writes. -/
theorem Moves.kept? {k : Kept} (m : e.Moves id x e') (hr : e.run? id = some run)
    (hid : run.coordinator.execution.id = id) (hk : e.store.kept? id = some k) :
    e'.store.kept? id = some (k.after x) := by
  cases m with
  | @step _ effect h =>
    obtain ⟨_, c, hrun, hstep, rfl⟩ := stepRun?_eq_some h
    cases hrun.symm.trans hr
    have hturn := Coordinator.turn_of_step? hstep
    cases effect with
    | none => exact hk
    | some f =>
      cases f with
      | save record =>
        cases hturn.save_eq
        obtain ⟨s, hs, hk'⟩ := Store.update_kept (e := run.coordinator.execution) (s := e.store) (hid.symm ▸ hk)
        have : ((e.withCoordinator id c).apply id (.save run.coordinator.execution)).store = s := by
          simp only [apply, write, store_withCoordinator, hs]
        rw [Option.elim_some, this, ← hid]
        exact hk'
      | saveNode execution r =>
        obtain ⟨node, rest, -, -, rfl⟩ := hturn.saveNode_eq
        obtain ⟨s, hs, hk'⟩ := Store.putNode_kept r hk
        have : ((e.withCoordinator id c).apply id (.saveNode run.coordinator.execution.id r)).store = s := by
          simp only [apply, write, store_withCoordinator, hid, hs]
        rw [Option.elim_some, this]
        exact hk'
      | emit | launch | cancel | request | signalDone | leave => exact hk
  | cancel => exact hk
  | timeUp | finished => exact hk
  | elsewhere hsame hkept => exact hkept.trans hk

/-! ## The beginning -/

/-- The record a run begins with: every node waits. -/
structure Accepted (r : StartRequest) (p : Plan) (id : String) (record : Execution) : Prop where
  origin : record.origin = r.origin id
  status : record.status = .running
  error : record.error = none
  data : record.data = .object []
  sorted : Keyed.Sorted record.nodeResults
  nodes : ∀ x, record.node? x = if x ∈ p.order then some (.waiting x) else none

variable {r : StartRequest} {p : Plan} {record : Execution} {e₀ : Engine}

theorem Accepted.nodeStatus? (h : Accepted r p id record) (x : String) :
    record.nodeStatus? x = if x ∈ p.order then some .waiting else none := by
  rw [Execution.nodeStatus?, h.nodes x]
  split <;> rfl

theorem Accepted.named (h : Accepted r p id record) : record.Named := by
  intro x s hs
  rw [h.nodes x] at hs
  split at hs
  · cases hs; rfl
  · cases hs

theorem Accepted.tidy (h : Accepted r p id record) : record.Tidy := ⟨h.sorted, h.named⟩

theorem accepted_makeRecord {types : Registry} (hp : (StartCall.makeRecord r types e).1.plan = .ok p) :
    Plan.ofDefinition r.definition = .ok p ∧
      Accepted r p (StartCall.makeRecord r types e).1.execution.id (StartCall.makeRecord r types e).1.execution := by
  have hprepare : Engine.prepare r.definition types = .ok p := hp
  refine ⟨(prepare_eq_ok.mp hprepare).2, ?_⟩
  simp only [StartCall.makeRecord, hprepare, StartCall.accepted]
  exact ⟨rfl, rfl, rfl, rfl, Keyed.sorted_ofList _, fun x => Keyed.get?_ofList_map _ _ _⟩

/-- The node types a run is entered with are types under which its definition could be prepared. -/
theorem Enters.opened (h : Enters r p id e) :
    ∃ types config record, prepare r.definition types = .ok p ∧ Accepted r p id record ∧ record.stoppedAt = none ∧
      e.run? id = some { coordinator := .ofPlan r.definition p types config record } ∧
      ∃ k, e.store.kept? id = some k ∧ k.Of record := by
  obtain @⟨types, prepared, e₁, e₂, e₃, e₄, e₅, e₆, e₇, hprepare, hcreate, hannounce, henter, fresh, hkept⟩ := h
  -- each step of the call, read backwards: what it was given
  have hmade : (StartCall.makeRecord r types e₁).1 = prepared := by cases hprepare; rfl
  have hplan : prepared.plan = .ok p := by
    simp only [StartCall.step?] at hannounce
    split at hannounce
    next q hq => cases hannounce; exact hq
    next f hf => cases hannounce
  have hid : prepared.execution.id = id := by
    unfold StartCall.step? at henter
    exact Except.ok.inj (StartCall.answered.inj (Prod.mk.inj (Option.some.inj henter)).1)
  have hentered : e = { e₇ with active := e₇.active ++ [(prepared.execution.id,
      { coordinator := .ofPlan prepared.definition p prepared.types e₇.config prepared.execution })] } := by
    unfold StartCall.step? at henter
    exact (Prod.mk.inj (Option.some.inj henter)).2.symm
  obtain ⟨store, hstore, he₄⟩ : ∃ s, e₃.store.create prepared.execution = .ok s ∧ e₄.store = s := by
    simp only [StartCall.step?] at hcreate
    split at hcreate
    next s hs => cases hcreate; exact ⟨s, hs, rfl⟩
    next => cases hcreate
  subst hmade
  have hprepared : Engine.prepare r.definition types = .ok p := hplan
  refine ⟨types, e₇.config, (StartCall.makeRecord r types e₁).1.execution, hprepared,
    hid ▸ (accepted_makeRecord hplan).2, ?_, ?_, ?_⟩
  · simp only [StartCall.makeRecord, hprepared, StartCall.accepted]
    rfl
  · rw [hentered, hid]
    exact run?_entered fresh _
  · obtain ⟨k, hk, hof⟩ := Store.kept?_of_create hstore
    refine ⟨k, ?_, hof⟩
    have hsame : e.store = e₇.store := by rw [hentered]
    rw [hsame, hkept, he₄, ← hid]
    exact hk

theorem Enters.spec (h : Enters r p id e) :
    Plan.ofDefinition r.definition = .ok p ∧ ∃ types config record, Accepted r p id record ∧
      e.run? id = some { coordinator := .ofPlan r.definition p types config record } ∧
      ∃ k, e.store.kept? id = some k ∧ k.Of record := by
  obtain ⟨types, config, record, hprepared, haccepted, -, hrun, hkept⟩ := h.opened
  exact ⟨(prepare_eq_ok.mp hprepared).2, types, config, record, haccepted, hrun, hkept⟩

/-! ## Throughout a life -/

/-- A sound coordinator of the run of a request. -/
structure Runs (r : StartRequest) (p : Plan) (id : String) (c : Coordinator) : Prop where
  sound : c.Sound
  definition : c.definition = r.definition
  plan : c.plan = p
  origin : c.execution.origin = r.origin id

theorem Runs.id_eq {c : Coordinator} (h : Runs r p id c) : c.execution.id = id :=
  congrArg Execution.Origin.id h.origin

theorem Runs.trigger {c : Coordinator} (h : Runs r p id c) : c.execution.triggerData = r.trigger :=
  congrArg Execution.Origin.triggerData h.origin

theorem Runs.turn {c c' : Coordinator} {canceled : Bool} (h : Runs r p id c) (ht : c.Turn canceled x c') :
    Runs r p id c' :=
  ⟨h.sound.turn ht, ht.sameRun.definition.trans h.definition, ht.sameRun.plan.trans h.plan,
    ht.sameRun.origin.trans h.origin⟩

variable {past : List Moment}

theorem Lives.runs (h₀ : Enters r p id e₀) (h : Lives id e₀ past e) (hr : e.run? id = some run) :
    Runs r p id run.coordinator := by
  induction h generalizing run with
  | start =>
    obtain ⟨hp, types, config, record, hrecord, hrun, -⟩ := h₀.spec
    cases hrun.symm.trans hr
    exact ⟨.ofPlan hp hrecord.status hrecord.error hrecord.nodeStatus?, rfl, rfl, hrecord.origin⟩
  | next _ m ih =>
    obtain ⟨before, hbefore, hturn, -⟩ := m.turn hr
    exact (ih hbefore).turn hturn

/-- What holds of a run when it is entered, and is kept by everything that can happen to a sound
coordinator, holds throughout its life. -/
theorem Lives.induction {motive : List Moment → ActiveRun → Prop} (h₀ : Enters r p id e₀) (h : Lives id e₀ past e)
    (hr : e.run? id = some run)
    (begins : ∀ types config record, Accepted r p id record →
      motive [] { coordinator := .ofPlan r.definition p types config record })
    (advances : ∀ past e x run run', Lives id e₀ past e → e.run? id = some run → motive past run →
      run.coordinator.Sound → run.coordinator.Advance run.canceled x run'.coordinator →
      run'.canceled = (run.canceled || x.asksToCancel) → x ≠ .step (some .leave) → motive (past ++ [⟨e, x⟩]) run') :
    motive past run := by
  induction h generalizing run with
  | start =>
    obtain ⟨-, types, config, record, hrecord, hrun, -⟩ := h₀.spec
    cases hrun.symm.trans hr
    exact begins types config record hrecord
  | next hlife m ih =>
    obtain ⟨before, hbefore, hturn, hcanceled, hstays⟩ := m.turn hr
    have hsound := (hlife.runs h₀ hbefore).sound
    exact advances _ _ _ _ _ hlife hbefore (ih hbefore) hsound (hsound.advance hturn) hcanceled hstays

/-- A life goes on where another has led to. -/
theorem Lives.append {more : List Moment} (h : Lives id e₀ past e) (hmore : Lives id e more e') :
    Lives id e₀ (past ++ more) e' := by
  induction hmore with
  | start => exact (List.append_nil past).symm ▸ h
  | next _ m ih => exact List.append_assoc _ _ _ ▸ ih.next m

/-- What every turn of the run keeps so is so later in its life. -/
theorem Lives.forward {P : Coordinator → Prop} {more : List Moment} (h₀ : Enters r p id e₀) (h : Lives id e₀ past e)
    (hr : e.run? id = some run) (hp : P run.coordinator)
    (keeps : ∀ c canceled x c', c.Sound → P c → c.Advance canceled x c' → P c') (hmore : Lives id e more e')
    (hr' : e'.run? id = some run') : P run'.coordinator := by
  induction hmore generalizing run' with
  | start => cases hr.symm.trans hr'; exact hp
  | next hlife m ih =>
    obtain ⟨before, hbefore, hturn, -⟩ := m.turn hr'
    have hsound := ((h.append hlife).runs h₀ hbefore).sound
    exact keeps _ _ _ _ hsound (ih hbefore) (hsound.advance hturn)

/-- A life is cut at one of its moments. -/
theorem Lives.split {before after : List Moment} {m : Moment} (h : Lives id e₀ (before ++ m :: after) e) :
    ∃ e₁, Lives id e₀ before m.engine ∧ m.engine.Moves id m.happening e₁ ∧ Lives id e₁ after e := by
  generalize hpast : before ++ m :: after = past at h
  induction h generalizing after with
  | start => exact absurd hpast (by simp)
  | @next past e e' x hlife hmoves ih =>
    rcases List.eq_nil_or_concat after with rfl | ⟨after, last, rfl⟩
    · obtain ⟨rfl, hm⟩ := List.append_inj' hpast rfl
      cases hm
      exact ⟨e', hlife, hmoves, .start⟩
    · rw [List.concat_eq_append, ← List.cons_append, ← List.append_assoc] at hpast
      obtain ⟨hbefore, hlast⟩ := List.append_inj' hpast rfl
      cases hlast
      obtain ⟨e₁, hlife₁, hmoves₁, hafter⟩ := ih hbefore
      rw [List.concat_eq_append]
      exact ⟨e₁, hlife₁, hmoves₁, hafter.next hmoves⟩

/-- What has happened happened in a life up to then. -/
theorem Lives.of_mem (h : Lives id e₀ past e) {m : Moment} (hm : m ∈ past) :
    ∃ before after e₁, past = before ++ m :: after ∧ Lives id e₀ before m.engine ∧
      m.engine.Moves id m.happening e₁ := by
  obtain ⟨before, after, rfl⟩ := List.append_of_mem hm
  obtain ⟨e₁, hbefore, hmoves, -⟩ := h.split
  exact ⟨before, after, e₁, rfl, hbefore, hmoves⟩

/-- Lets the run take up to `fuel` steps with nothing else going on. -/
def takeSteps (id : String) : (fuel : Nat) → Engine → List Moment × Engine
  | 0, e => ([], e)
  | fuel + 1, e =>
    match e.stepRun? id with
    | some (e', effect) => (⟨e, .step effect⟩ :: (takeSteps id fuel e').1, (takeSteps id fuel e').2)
    | none => ([], e)

theorem mem_takeSteps {fuel : Nat} {m : Moment} (hm : m ∈ (takeSteps id fuel e).1) :
    ∃ effect, m.happening = .step effect := by
  induction fuel generalizing e with
  | zero => exact absurd hm List.not_mem_nil
  | succ fuel ih =>
    unfold takeSteps at hm
    split at hm
    next e' effect hstep =>
      rcases List.mem_cons.mp hm with rfl | hm
      · exact ⟨effect, rfl⟩
      · exact ih hm
    next => exact absurd hm List.not_mem_nil

theorem Lives.takeSteps (h : Lives id e₀ past e) (fuel : Nat) :
    Lives id e₀ (past ++ (takeSteps id fuel e).1) (takeSteps id fuel e).2 := by
  induction fuel generalizing past e with
  | zero => exact (List.append_nil past).symm ▸ h
  | succ fuel ih =>
    unfold Engine.takeSteps
    split
    next e' effect hstep =>
      have := ih (h.next (.step hstep))
      rwa [List.append_assoc] at this
    next => exact (List.append_nil past).symm ▸ h

/-- Whether the run waits for a node. -/
def waitsFor (id node : String) (e : Engine) : Bool :=
  (e.run? id).any fun run => run.coordinator.isWaiting run.canceled && run.coordinator.inFlight.contains node

/-- Lets the run take some steps, tells it how a node has ended, and lets it take some more. -/
def runNode (id node : String) (outcome : Outcome) (before after : Nat) (e : Engine) : List Moment × Engine :=
  let opened := takeSteps id before e
  let closed := takeSteps id after (opened.2.signal id (.finished node outcome))
  (opened.1 ++ ⟨opened.2, .finished node outcome⟩ :: closed.1, closed.2)

theorem Lives.runNode {node : String} {outcome : Outcome} {before after : Nat}
    (h : waitsFor id node (Engine.takeSteps id before e).2 = true) :
    Lives id e (runNode id node outcome before after e).1 (runNode id node outcome before after e).2 := by
  obtain ⟨run, hr, hrun⟩ := (Option.any_eq_true _ _).mp h
  obtain ⟨hw, hn⟩ := Bool.and_eq_true_iff.mp hrun
  have hended : (Engine.takeSteps id before e).2.Moves id (.finished node outcome) _ :=
    .finished hr hw (List.contains_iff_mem.mp hn)
  have hlife := ((Lives.takeSteps .start before).next hended).takeSteps after
  rw [List.append_assoc] at hlife
  exact hlife

/-! ## A start at one go -/

theorem advance_of_step? {call call' : StartCall} {e e' : Engine} (n : Nat) (h : call.step? e = some (call', e')) :
    call.advance (n + 1) e = call'.advance n e' := by
  rw [StartCall.advance, h]

/-- A start that nothing comes in between enters its run. -/
theorem Enters.of_startDefinition {d : Definition} {trigger : Json} {e e' : Engine}
    (hplan : prepare d e.registry = .ok p) (h : e.startDefinition d trigger none = (.ok id, e'))
    (hfresh : e.run? id = none) : Enters ⟨d, trigger, none⟩ p id e' := by
  obtain ⟨⟨prepared, e₁⟩, hmade⟩ : ∃ x, StartCall.makeRecord ⟨d, trigger, none⟩ e.registry e = x := ⟨_, rfl⟩
  have hprepared : prepared.plan = .ok p := by cases hmade; exact hplan
  have hactive : e₁.active = e.active := by cases hmade; rfl
  have htypes : (StartCall.takeTypes ⟨d, trigger, none⟩).step? e = some (.prepare ⟨d, trigger, none⟩ e.registry, e) := rfl
  have hprepare : (StartCall.prepare ⟨d, trigger, none⟩ e.registry).step? e = some (.create prepared, e₁) := by
    rw [StartCall.step?, hmade]
  rw [startDefinition, begin, StartCall.remaining, advance_of_step? _ htypes, advance_of_step? _ hprepare] at h
  cases hstore : e₁.store.create prepared.execution with
  | error f =>
    have hcreate : (StartCall.create prepared).step? e₁ =
        some (.answered (.error f), StartCall.unlock e₁ prepared.execution.idempotencyKey) := by
      rw [StartCall.step?, hstore]
    rw [advance_of_step? _ hcreate] at h
    cases (Prod.mk.inj h).1
  | ok store =>
    have hcreate : (StartCall.create prepared).step? e₁ = some (.announce prepared, { e₁ with store }) := by
      rw [StartCall.step?, hstore]
    obtain ⟨e₃, hannounce, hactive₃, hstore₃⟩ : ∃ e₃, (StartCall.announce prepared).step? { e₁ with store } =
        some (.enter prepared p, e₃) ∧ e₃.active = e.active ∧ e₃.store = store := by
      simp only [StartCall.step?, hprepared, StartCall.unlock]
      refine ⟨_, rfl, ?_⟩
      split <;> exact ⟨hactive, rfl⟩
    obtain ⟨e₄, henter⟩ : ∃ e₄, (StartCall.enter prepared p).step? e₃ =
        some (.answered (.ok prepared.execution.id), e₄) := ⟨_, rfl⟩
    rw [advance_of_step? _ hcreate, advance_of_step? _ hannounce, advance_of_step? _ henter] at h
    obtain ⟨hid, rfl⟩ := Prod.mk.inj h
    cases Except.ok.inj hid
    refine .intro hprepare hcreate hannounce henter ?_ (congrArg (Store.kept? · _) hstore₃)
    rw [run?, hactive₃]
    exact hfresh

end Engine

/-! ## A run of three nodes -/

namespace Fork

/-- One node feeds two. -/
def definition : Definition :=
  { name := "fork"
    nodes := [{ id := "a", type := "trigger" }, { id := "b", type := "merge" }, { id := "c", type := "merge" }]
    connections := [{ id := "1", source := "a", target := "b" }, { id := "2", source := "a", target := "c" }] }

def plan : Plan :=
  { order := ["a", "b", "c"], roots := ["a"], producers := [("a", []), ("b", ["a"]), ("c", ["a"])],
    consumers := [("a", ["b", "c"]), ("b", []), ("c", [])] }

def types : Registry := [("merge", NodeType.merge), ("trigger", NodeType.trigger)]

def request : StartRequest := ⟨definition, .string "go", none⟩

def engine (config : Config) : Engine := { config, registry := types, ids := { run := fun _ => "run" } }

/-- The engine once a step of the start call has been taken. -/
def after (call : StartCall) (e : Engine) : Engine := (call.step? e).elim e (·.2)

def prepared (config : Config) : Prepared := (StartCall.makeRecord request types (engine config)).1

def recorded (config : Config) : Engine :=
  after (.create (prepared config)) (after (.prepare request types) (engine config))

def announced (config : Config) : Engine := after (.announce (prepared config)) (recorded config)

/-- The engine that has entered the run. -/
def entered (config : Config) : Engine := after (.enter (prepared config) plan) (announced config)

theorem enters (config : Config) : Engine.Enters request plan "run" (entered config) := by
  have hprepare : (StartCall.prepare request types).step? (engine config) =
      some (.create (prepared config), after (.prepare request types) (engine config)) := rfl
  have hcreate : (StartCall.create (prepared config)).step? (after (.prepare request types) (engine config)) =
      some (.announce (prepared config), recorded config) := rfl
  have hannounce : (StartCall.announce (prepared config)).step? (recorded config) =
      some (.enter (prepared config) plan, announced config) := rfl
  have henter : (StartCall.enter (prepared config) plan).step? (announced config) =
      some (.answered (.ok "run"), entered config) := rfl
  exact .intro hprepare hcreate hannounce henter rfl rfl

/-- The engine that has launched the first node. -/
def opened (config : Config) : Engine := (Engine.takeSteps "run" 4 (entered config)).2

theorem lives_opened (config : Config) :
    Engine.Lives "run" (entered config) (Engine.takeSteps "run" 4 (entered config)).1 (opened config) :=
  Engine.Lives.start.takeSteps 4

end Fork
end Workflows
