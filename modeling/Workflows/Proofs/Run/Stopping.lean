/-
  Workflows.Proofs.Run.Stopping — a run that has been told to stop, for good.

  From then on its coordinator only hears of the nodes in flight and ends (`Drains`): nothing
  releases, skips or launches a node, and neither the nodes that end nor another request to
  cancel change the status and the error it has settled on. The nodes in flight are still
  recorded, and what they put out enters the bag (`stopsForGood`).
-/

import Workflows.Proofs.Run.Ending
import Workflows.Proofs.Run.Recorded
import Workflows.Proofs.Run.Results

namespace Workflows

namespace Coordinator

variable {c c' c'' : Coordinator} {canceled : Bool} {x : Happening}

/-- The coordinator `c` had been told to stop and has become `c'`. -/
structure Drains (c c' : Coordinator) : Prop where
  stopping : c'.stopping = true
  status : c'.execution.status = c.execution.status
  error : c'.execution.error = c.execution.error
  started : ∀ y, c'.execution.HasStarted y ↔ c.execution.HasStarted y
  /-- A node that had not started keeps its result, unless there were payloads to clear. -/
  still : ∀ y result, c.execution.node? y = some result → result.status = .waiting ∨ result.status = .skipped →
    result.clearPayload = result → c'.execution.node? y = some result
  calm : ∀ e ∈ c'.errands, e.launched? = none

namespace Drains

theorem refl (hstop : c.stopping = true) (hcalm : ∀ e ∈ c.errands, e.launched? = none) : c.Drains c :=
  ⟨hstop, rfl, rfl, fun _ => Iff.rfl, fun _ _ hr _ _ => hr, hcalm⟩

/-- A running node has ended. -/
theorem ends (h : c.Drains c') {id : String} {r new : NodeResult} (hr : c'.execution.node? id = some r)
    (hrun : r.status = .running) (hnew : new.status = .success ∨ new.status = .error)
    (hstop : c''.stopping = c'.stopping) (hstatus : c''.execution.status = c'.execution.status)
    (herror : c''.execution.error = c'.execution.error)
    (hset : c''.execution.nodeResults = (c'.execution.setNode id new).nodeResults)
    (hcalm : ∀ e ∈ c''.errands, e.launched? = none) : c.Drains c'' := by
  have hnode : ∀ y, c''.execution.node? y = if y = id then some new else c'.execution.node? y := by
    intro y
    rw [Execution.node?, hset]
    exact Execution.node?_setNode
  refine
    { stopping := hstop.trans h.stopping
      status := hstatus.trans h.status
      error := herror.trans h.error
      started := fun y => ?_
      still := fun y result hresult hs hpayload => ?_
      calm := hcalm }
  · have hc := (Execution.changes_setNode (r := new) (Execution.nodeStatus?_eq_some.mpr ⟨r, hr, hrun⟩)).congr hset
    exact (hc.hasStarted_of_ended hnew).trans (h.started y)
  · have hold := h.still y result hresult hs hpayload
    have hy : y ≠ id := by
      intro heq
      subst heq
      cases hold.symm.trans hr
      rw [hrun] at hs
      rcases hs with hs | hs <;> cases hs
    rw [hnode y, if_neg hy]
    exact hold

/-- The final record of a run that was told to stop says what the record said before. -/
theorem finish (h : c.Drains c') (hs : c'.Sound) (now : Instant) : c.Drains (c'.finish now) := by
  obtain ⟨hstatus, herror⟩ := finalRecord_of_terminal now (hs.ended h.stopping)
  refine
    { stopping := h.stopping
      status := hstatus.trans h.status
      error := herror.trans h.error
      started := fun y => (Execution.hasStarted_congr nodeStatus?_finalRecord).trans (h.started y)
      still := fun y result hresult hst hpayload => ?_
      calm := fun e he => ?_ }
  · have hold : Keyed.get? c'.execution.nodeResults y = some result := h.still y result hresult hst hpayload
    have hfinal : (c'.finalRecord now).node? y = some result := by
      rw [Execution.node?, nodeResults_finalRecord]
      split
      · exact (Keyed.get?_mapValues _ _ _).trans (by rw [hold, Option.map_some, hpayload])
      · exact hold
    exact hfinal
  · simp only [Coordinator.finish, List.mem_append, List.mem_cons, List.not_mem_nil, or_false, Option.mem_toList,
      Option.map_eq_some_iff] at he
    rcases he with ((rfl | rfl) | ⟨_, -, rfl⟩) | rfl | rfl <;> rfl

/-- Whatever happens, it keeps draining. -/
theorem advance (h : c.Drains c') (hs : c'.Sound) (ha : c'.Advance canceled x c'') : c.Drains c'' := by
  have hgoing : c'.stopping ≠ false := by rw [h.stopping]; nofun
  cases ha with
  | errand now he hskip => exact { h with calm := fun e hmem => h.calm e (he ▸ List.mem_cons_of_mem _ hmem) }
  | passed he | skipped now he => exact absurd (hs.toSkip _ (he ▸ List.mem_cons_self)).2.1 hgoing
  | stopped now idle going => exact absurd going hgoing
  | started now idle going => exact absurd going hgoing
  | timedOut now idle flying going => exact absurd going hgoing
  | ended now idle landed hend => exact h.finish hs now
  | succeeded now idle hr hrun =>
    exact h.ends hr hrun (.inl rfl) rfl rfl rfl rfl (by simp [Errand.launched?])
  | failed now idle hr hrun =>
    refine h.ends hr hrun (.inr rfl) rfl rfl rfl rfl ?_
    rw [hs.ended h.stopping]
    simp [Errand.launched?]
  | canceled | elsewhere => exact h

end Drains

/-- Nothing is launched by a turn of a coordinator that has no node to launch. -/
theorem Advance.launched?_eq_none {e : Engine} (ha : c.Advance canceled x c')
    (hcalm : ∀ e ∈ c.errands, e.launched? = none) :
    Engine.Moment.launched? ⟨e, x⟩ = none := by
  cases ha with
  | @errand errand rest now he hskip =>
    exact (Engine.launched?_perform _ e now errand).trans (hcalm errand (he ▸ List.mem_cons_self))
  | _ => rfl

end Coordinator

/-- The engine that runs `Fork` with one slot, asked to cancel it while one node is in flight and
one is ready. -/
def Fork.askedToCancel : Engine :=
  let fed := (opened { maxConcurrency := 1 }).signal "run" (.finished "a" (.ok [("main", .null)]))
  (Engine.takeSteps "run" 7 fed).2.cancelActive "run"

/-- It has acted on the request. -/
def Fork.stopping : Engine := (Engine.takeSteps "run" 1 Fork.askedToCancel).2

namespace Engine

variable {r : StartRequest} {p : Plan} {id : String} {e₀ e e₁ e₂ : Engine} {past more : List Moment}
  {run run₁ run₂ : ActiveRun} {x : Happening}

/-- A run that has been told to stop launches nothing and drains as long as it lives. -/
theorem Lives.drains (h₀ : Enters r p id e₀) (h : Lives id e₀ past e) (hr : e.run? id = some run)
    (hdrains : run.coordinator.Drains run.coordinator) (hmore : Lives id e more e₁) :
    launches more = [] ∧ ∀ run₁, e₁.run? id = some run₁ → run.coordinator.Drains run₁.coordinator := by
  induction hmore with
  | start =>
    refine ⟨rfl, fun run₁ hr₁ => ?_⟩
    cases hr.symm.trans hr₁
    exact hdrains
  | @next more e₂ e₃ y hlife m ih =>
    obtain ⟨hlaunches, hdrains⟩ := ih
    have hnext : Moment.launched? ⟨e₂, y⟩ = none ∧
        ∀ run₁, e₃.run? id = some run₁ → run.coordinator.Drains run₁.coordinator := by
      cases hr₃ : e₃.run? id with
      | some run₃ =>
        obtain ⟨run₂, hr₂, hturn, -⟩ := m.turn hr₃
        have hs := ((h.append hlife).runs h₀ hr₂).sound
        have ha := hs.advance hturn
        refine ⟨ha.launched?_eq_none (hdrains run₂ hr₂).calm, fun run₁ hr₁ => ?_⟩
        cases hr₁
        exact (hdrains run₂ hr₂).advance hs ha
      | none =>
        refine ⟨?_, fun _ hr₁ => absurd hr₁.symm (Option.some_ne_none _)⟩
        cases hr₂ : e₂.run? id with
        | some run₂ => rw [(m.gone hr₂ hr₃).1]; rfl
        | none => exact launched?_of_not_own (m.not_own_of_gone hr₂)
    refine ⟨?_, hnext.2⟩
    rw [launches_append, hlaunches, hnext.1]
    rfl

/-- What becomes of a coordinator, asked to cancel or not, that `x` tells to stop. -/
structure Halts (c : Coordinator) (canceled : Bool) (x : Happening) (c' : Coordinator) : Prop where
  idle : c.Idle
  stopping : c'.stopping = true
  inFlight : c'.inFlight = c.inFlight
  results : c'.execution.nodeResults = c.execution.nodeResults
  calm : ∀ e ∈ c'.errands, e.launched? = none
  asked : x ≠ .timeUp → canceled = true ∧ c'.execution.status = .canceled ∧ c'.execution.error = none
  timedOut : x = .timeUp → canceled = false ∧ c'.execution.status = .error ∧
    ∃ seconds, c.config.runTimeout = some seconds ∧ c'.execution.error = some (Coordinator.timeoutText seconds)

theorem halts_of_stops (hr : e.run? id = some run) (hstop : Moment.stops id ⟨e, x⟩ = true) {c' : Coordinator}
    (ha : run.coordinator.Advance run.canceled x c') : Halts run.coordinator run.canceled x c' := by
  have hnow : run.coordinator.stopping = false ∧ c'.stopping = true := by
    rw [stops_iff hr ha] at hstop
    simpa using hstop
  cases ha with
  | stopped now idle going asked =>
    exact ⟨idle, rfl, rfl, rfl, by simp [Errand.launched?], fun _ => ⟨asked, rfl, rfl⟩, nofun⟩
  | timedOut now idle flying going unasked limit =>
    obtain ⟨seconds, hseconds⟩ := Option.isSome_iff_exists.mp limit
    refine ⟨idle, rfl, rfl, rfl, by simp [Errand.launched?], fun hx => absurd rfl hx,
      fun _ => ⟨unasked, rfl, seconds, hseconds, ?_⟩⟩
    rw [hseconds, Option.getD_some]
  | _ => exact absurd (hnow.1.symm.trans hnow.2) nofun

/-- The run is still there when it has been told to stop. -/
theorem Lives.halts (h₀ : Enters r p id e₀) (h : Lives id e₀ past e) (hr : e.run? id = some run) (m : e.Moves id x e₁)
    (hstop : Moment.stops id ⟨e, x⟩ = true) :
    ∃ run₁, e₁.run? id = some run₁ ∧ Halts run.coordinator run.canceled x run₁.coordinator := by
  obtain ⟨run₁, hr₁⟩ : ∃ run₁, e₁.run? id = some run₁ := by
    cases hr₁ : e₁.run? id with
    | some run₁ => exact ⟨run₁, rfl⟩
    | none =>
      obtain ⟨rfl, rest, herrands⟩ := m.gone hr hr₁
      simp [Moment.stops, hr, herrands] at hstop
  obtain ⟨_, hrun, hturn, -⟩ := m.turn hr₁
  cases hrun.symm.trans hr
  exact ⟨run₁, hr₁, halts_of_stops hr hstop ((h.runs h₀ hr).sound.advance hturn)⟩

/-- What the run `id` is, after `more` has happened since `x` told it to stop when it was `run`. -/
structure Stopped (r : StartRequest) (id : String) (run : ActiveRun) (x : Happening) (more : List Moment) (e : Engine)
    (run' : ActiveRun) : Prop where
  stopping : run'.coordinator.stopping = true
  /-- It had been asked to cancel, and is canceled. -/
  canceled : x ≠ .timeUp → run.canceled = true ∧ run'.coordinator.execution.status = .canceled ∧
    run'.coordinator.execution.error = none
  /-- It had not been asked to cancel, and its time was up. -/
  timedOut : x = .timeUp → run.canceled = false ∧ run'.coordinator.execution.status = .error ∧
    ∃ seconds, run.coordinator.config.runTimeout = some seconds ∧
      run'.coordinator.execution.error = some (Coordinator.timeoutText seconds)
  started : ∀ y, run'.coordinator.execution.HasStarted y ↔ run.coordinator.execution.HasStarted y
  /-- A node that was not started keeps its result, which has no time of a start. -/
  still : ∀ y result, run.coordinator.execution.node? y = some result →
    result.status = .waiting ∨ result.status = .skipped →
      run'.coordinator.execution.node? y = some result ∧ result.startedAt = none
  /-- The nodes in flight are waited for. -/
  heard : ∀ y ∈ run.coordinator.inFlight,
    y ∈ finishes more ∨ y ∈ run'.coordinator.inFlight ∧ run'.coordinator.closing = false
  /-- What it hears of them is recorded, and what they put out is in the bag. -/
  recorded : ∃ results, run'.coordinator.Shows results ∧ ∀ e y outcome, ⟨e, .finished y outcome⟩ ∈ more →
    (∃ t t', Keyed.get? results y =
      some (.endedWith y (run'.coordinator.bag.inputs r.definition y r.trigger) outcome t t')) ∧
    Keyed.get? run'.coordinator.bag y = outcome.toOption.map Keyed.ofList
  /-- The store has the same, but for what is still to be written. -/
  kept : ∀ y, .save ∉ run'.coordinator.errands → .saveNode y ∉ run'.coordinator.errands →
    e.store.nodeStatus? id y = run'.coordinator.execution.nodeStatus? y

/-- What a run told to stop by `x` comes to. -/
structure StopsForGood (r : StartRequest) (id : String) (run : ActiveRun) (x : Happening) (more : List Moment)
    (e : Engine) : Prop where
  /-- A run asked to cancel by the time it looks is not told that its time is up. -/
  canceledFirst : run.canceled = true → x ≠ .timeUp
  launches : launches more = []
  stops : more.countP (Moment.stops id) = 0
  stopped : ∀ run', e.run? id = some run' → Stopped r id run x more e run'

/-- A node that was in flight is still so, or the run has heard of its end. -/
theorem heard_of_flying (h₀ : Enters r p id e₀) (h : Lives id e₀ past e) (hr : e.run? id = some run)
    (hmore : Lives id e more e₁) (hr₁ : e₁.run? id = some run₁) (hdrains : run.coordinator.Drains run₁.coordinator)
    {y : String} (hy : y ∈ run.coordinator.inFlight) :
    y ∈ finishes more ∨ y ∈ run₁.coordinator.inFlight ∧ run₁.coordinator.closing = false := by
  have hs := ((h.append hmore).runs h₀ hr₁).sound
  have hrunning := (((h.runs h₀ hr).sound).flying y).mp hy
  by_cases hflying : y ∈ run₁.coordinator.inFlight
  · refine .inr ⟨hflying, ?_⟩
    by_contra hclosing
    rw [(hs.closed (Bool.eq_true_of_not_eq_false hclosing)).1] at hflying
    cases hflying
  · left
    have hended : run₁.coordinator.execution.HasEnded y :=
      ((hdrains.started y).mpr (.inl hrunning)).resolve_left fun hrun => hflying ((hs.flying y).mpr hrun)
    have hmem := (((h.append hmore).tally h₀ hr₁).finished y).mpr hended
    rw [finishes, List.filterMap_append] at hmem
    refine (List.mem_append.mp hmem).resolve_left fun hbefore => ?_
    rcases ((h.tally h₀ hr).finished y).mp hbefore with hs | hs <;> exact absurd (hrunning.symm.trans hs) (by decide)

theorem Lives.stopped (h₀ : Enters r p id e₀) (h : Lives id e₀ past e) (hr : e.run? id = some run) (m : e.Moves id x e₁)
    (hr₁ : e₁.run? id = some run₁) (hhalts : Halts run.coordinator run.canceled x run₁.coordinator)
    (hmore : Lives id e₁ more e₂) (hr₂ : e₂.run? id = some run₂)
    (hdrains : run₁.coordinator.Drains run₂.coordinator) : Stopped r id run x more e₂ run₂ := by
  have hlife₁ := h.next m
  have hlife₂ := hlife₁.append hmore
  have hstatus : ∀ y, run₁.coordinator.execution.nodeStatus? y = run.coordinator.execution.nodeStatus? y := by
    intro y
    rw [Execution.nodeStatus?, Execution.node?, hhalts.results]
    rfl
  obtain ⟨shown, hshown, haccounted⟩ := h.accounted h₀ hr
  obtain ⟨results, hshows, haccounted₂⟩ := hlife₂.accounted h₀ hr₂
  obtain ⟨k, hk, hrecorded⟩ := hlife₂.recorded h₀ hr₂
  refine
    { stopping := hdrains.stopping
      canceled := fun hx => ?canceled
      timedOut := fun hx => ?timedOut
      started := fun y => (hdrains.started y).trans (Execution.hasStarted_congr (hstatus y))
      still := fun y result hresult hst => ?still
      heard := fun y hy => heard_of_flying h₀ hlife₁ hr₁ hmore hr₂ hdrains (hhalts.inFlight ▸ hy)
      recorded := ⟨results, hshows, fun e y outcome hmem =>
        haccounted₂.finished e y outcome (List.mem_append_right _ hmem)⟩
      kept := fun y hsave hnode => ?kept }
  case canceled =>
    obtain ⟨hasked, hst, herr⟩ := hhalts.asked hx
    exact ⟨hasked, hdrains.status.trans hst, hdrains.error.trans herr⟩
  case timedOut =>
    obtain ⟨hunasked, hst, seconds, hseconds, herr⟩ := hhalts.timedOut hx
    exact ⟨hunasked, hdrains.status.trans hst, seconds, hseconds, hdrains.error.trans herr⟩
  case still =>
    obtain ⟨rfl, -⟩ := hshown.eq_of_open hhalts.idle.closing
    obtain ⟨hpayload, hstart⟩ := haccounted.of_not_started hresult hst
    refine ⟨hdrains.still y result ?_ hst hpayload, hstart⟩
    rw [Execution.node?, hhalts.results]
    exact hresult
  case kept =>
    rw [Store.nodeStatus?, hk]
    exact hrecorded.synced y hsave hnode

/-- Once a run has been told to stop it starts no node and its status and error stand, whatever
happens until it is gone; the nodes in flight are still recorded and all others stay as they were. -/
theorem stopsForGood (h₀ : Enters r p id e₀) (h : Lives id e₀ past e) (hr : e.run? id = some run) (m : e.Moves id x e₁)
    (hstop : Moment.stops id ⟨e, x⟩ = true) (hmore : Lives id e₁ more e₂) : StopsForGood r id run x more e₂ := by
  obtain ⟨run₁, hr₁, hhalts⟩ := h.halts h₀ hr m hstop
  have hlife₁ := h.next m
  obtain ⟨hlaunches, hdrains⟩ := hlife₁.drains h₀ hr₁ (.refl hhalts.stopping hhalts.calm) hmore
  refine
    { canceledFirst := fun hcanceled htime => ?canceledFirst
      launches := hlaunches
      stops := ?stops
      stopped := fun run₂ hr₂ => h.stopped h₀ hr m hr₁ hhalts hmore hr₂ (hdrains run₂ hr₂) }
  case canceledFirst =>
    exact absurd (hcanceled.symm.trans (hhalts.timedOut htime).1) (by decide)
  case stops =>
    have hbound := ((hlife₁.append hmore).bounded h₀).1
    rw [List.countP_append, List.countP_append, List.countP_singleton, if_pos hstop] at hbound
    omega

/-- It is canceled, and the node that was ready never starts. -/
theorem stopsForGood_fork : ∃ past run more e₂ run₂,
    Lives "run" (Fork.entered { maxConcurrency := 1 }) past Fork.askedToCancel ∧
    Fork.askedToCancel.run? "run" = some run ∧ Fork.askedToCancel.Moves "run" (.step none) Fork.stopping ∧
    Moment.stops "run" ⟨Fork.askedToCancel, .step none⟩ = true ∧ Lives "run" Fork.stopping more e₂ ∧
    e₂.run? "run" = some run₂ ∧ run₂.coordinator.execution.status = .canceled ∧
    run₂.coordinator.execution.node? "c" = some (.waiting "c") ∧
    StopsForGood Fork.request "run" run (.step none) more e₂ := by
  have hfinished : (Fork.opened { maxConcurrency := 1 }).Moves "run" (.finished "a" (.ok [("main", .null)])) _ :=
    .finished rfl rfl (by decide)
  have hlife := (((Fork.lives_opened _).next hfinished).takeSteps 7).next .cancel
  have hstop : Fork.askedToCancel.Moves "run" (.step none) Fork.stopping := .step rfl
  have hstart : Lives "run" Fork.stopping [] Fork.stopping := .start
  have hfinished₂ : (takeSteps "run" 1 Fork.stopping).2.Moves "run" (.finished "b" (.ok [("main", .null)])) _ :=
    .finished rfl rfl (by decide)
  have hmore := ((hstart.takeSteps 1).next hfinished₂).takeSteps 3
  exact ⟨_, _, _, _, _, hlife, rfl, hstop, rfl, hmore, rfl, rfl, rfl,
    stopsForGood (Fork.enters _) hlife rfl hstop rfl hmore⟩

end Engine
end Workflows
