/-
  Workflows.Proofs.Run.Serial — a run with one slot starts its nodes in the order of its plan.

  The plan takes the smallest node all of whose producers it has taken; the coordinator starts
  the smallest ready one. With one slot the coordinator starts a node when no other runs, so all
  that it has started has ended, and the next node of the plan that is not behind a failure is
  ready (`next_of_started`). So what it has started is at every point the beginning of the order
  without the nodes behind the failures so far (`Lives.inOrder`): a failure takes nodes out of
  the rest of that list, none of those that were started. Who comes to an end without having been
  told to stop has started all of it, and who is told to stop starts no more.
-/

import Workflows.Proofs.Plan.Clear
import Workflows.Proofs.Run.Schedule
import Workflows.Proofs.Run.Stopping

namespace Workflows
namespace Coordinator

variable {c c' : Coordinator} {canceled : Bool} {x : Happening}

theorem slots_of_le_one (h : c.config.maxConcurrency ≤ 1) : c.slots = 1 := Nat.max_eq_right h

/-- A run keeps the configuration it started with. -/
theorem Advance.config_eq (h : c.Advance canceled x c') : c'.config = c.config := by
  cases h <;> rfl

/-- What a run is told the end of was running. -/
theorem Advance.running_of_finished {y : String} {outcome : Outcome} (h : c.Advance canceled (.finished y outcome) c') :
    c.execution.nodeStatus? y = some .running := by
  cases h with
  | succeeded now idle hr hrun => exact Execution.nodeStatus?_eq_some.mpr ⟨_, hr, hrun⟩
  | failed now idle hr hrun => exact Execution.nodeStatus?_eq_some.mpr ⟨_, hr, hrun⟩

end Coordinator

namespace Engine

/-- The node that the run is told has failed. -/
def Moment.failed? (m : Moment) : Option String :=
  match m.happening with
  | .finished id (.error _) => some id
  | _ => none

/-- The nodes that have failed, in the order they did. -/
def failures (past : List Moment) : List String := past.filterMap Moment.failed?

/-- The nodes launched, and the one that is about to be. -/
def begun (past : List Moment) (c : Coordinator) : List String := launches past ++ c.errands.filterMap Errand.launched?

variable {r : StartRequest} {p : Plan} {id : String} {e₀ e e₁ : Engine} {past : List Moment} {m : Moment}
  {run run₀ run₁ : ActiveRun} {c c' : Coordinator} {canceled : Bool} {x : Happening}

/-! ## Failures -/

theorem failures_append : failures (past ++ [m]) = failures past ++ m.failed?.toList := by
  simp only [failures, List.filterMap_append]
  cases h : m.failed? <;> simp [h]

theorem failed?_eq_some {y : String} : m.failed? = some y ↔ ∃ f, m.happening = .finished y (.error f) := by
  unfold Moment.failed?
  constructor
  · intro h
    split at h
    next y' f hfinished =>
      cases h
      exact ⟨f, hfinished⟩
    next => cases h
  · intro h
    obtain ⟨f, hfinished⟩ := h
    rw [hfinished]

theorem mem_failures {y : String} : y ∈ failures past ↔ ∃ e f, ⟨e, .finished y (.error f)⟩ ∈ past := by
  rw [failures, List.mem_filterMap]
  constructor
  · intro hex
    obtain ⟨⟨e, happening⟩, hmem, hfailed⟩ := hex
    obtain ⟨f, hfinished⟩ := failed?_eq_some.mp hfailed
    cases hfinished
    exact ⟨e, f, hmem⟩
  · intro hex
    obtain ⟨e, f, hmem⟩ := hex
    exact ⟨_, hmem, rfl⟩

/-- The nodes that have failed are those in error. -/
theorem Lives.mem_failures_iff (h₀ : Enters r p id e₀) (h : Lives id e₀ past e) (hr : e.run? id = some run) (y : String) :
    y ∈ failures past ↔ run.coordinator.execution.nodeStatus? y = some .error := by
  obtain ⟨results, hshows, haccounted⟩ := h.accounted h₀ hr
  have hstatus : ∀ e₁ outcome, ⟨e₁, .finished y outcome⟩ ∈ past →
      ∃ t t', run.coordinator.execution.nodeStatus? y =
        some (NodeResult.endedWith y (run.coordinator.bag.inputs r.definition y r.trigger) outcome t t').status := by
    intro e₁ outcome hmem
    obtain ⟨⟨t, t', hresult⟩, -⟩ := haccounted.finished e₁ y outcome hmem
    exact ⟨t, t', by rw [hshows.nodeStatus? y, hresult]; rfl⟩
  rw [mem_failures]
  constructor
  · intro hex
    obtain ⟨e₁, f, hmem⟩ := hex
    obtain ⟨t, t', hy⟩ := hstatus e₁ _ hmem
    exact hy
  · intro hy
    obtain ⟨e₁, outcome, hmem⟩ := mem_finishes.mp (((h.tally h₀ hr).finished y).mpr (.inr hy))
    cases outcome with
    | error f => exact ⟨e₁, f, hmem⟩
    | ok ports =>
      obtain ⟨t, t', hsuccess⟩ := hstatus e₁ _ hmem
      exact absurd (hy.symm.trans hsuccess) nofun

/-- What is behind the failures is what is doomed. -/
theorem Lives.doomed_iff (h₀ : Enters r p id e₀) (h : Lives id e₀ past e) (hr : e.run? id = some run) (y : String) :
    (∃ a ∈ failures past, r.definition.LeadsTo a y) ↔ run.coordinator.execution.Doomed run.coordinator.definition y := by
  rw [(h.runs h₀ hr).definition]
  exact exists_congr fun a => and_congr_left' (h.mem_failures_iff h₀ hr a)

/-! ## One more node -/

/-- What is begun stays as it is, or a coordinator with a free slot begins the first ready node. -/
theorem begun_of_advance (past : List Moment) (e : Engine) (ha : c.Advance canceled x c') :
    begun (past ++ [⟨e, x⟩]) c' = begun past c ∨
      ∃ y rest, c.Idle ∧ c.stopping = false ∧ c.inFlight.length < c.slots ∧ c.ready = y :: rest ∧ x = .step none ∧
        begun (past ++ [⟨e, x⟩]) c' = begun past c ++ [y] := by
  have quiet : ∀ {x : Happening} {c' : Coordinator}, Moment.launched? ⟨e, x⟩ = none →
      c'.errands.filterMap Errand.launched? = c.errands.filterMap Errand.launched? →
        begun (past ++ [⟨e, x⟩]) c' = begun past c := by
    intro x c' hm hlaunch
    rw [begun, begun, launches_append, hm, hlaunch, Option.toList_none, List.append_nil]
  cases ha with
  | @errand errand rest now he hskip =>
    left
    rw [begun, begun, launches_append, launched?_perform, he, List.filterMap_cons, List.append_assoc]
    cases errand.launched? <;> rfl
  | passed he hs => exact .inl (quiet rfl (by rw [he]; rfl))
  | skipped now he hr hw => exact .inl (quiet rfl (by rw [he]; rfl))
  | stopped now idle going asked => exact .inl (quiet rfl (by rw [idle.errands]; rfl))
  | @started y rest node result now idle going unasked slot first hn hr hw fed =>
    have hname : node.id = y := by simpa using List.find?_some hn
    refine .inr ⟨y, rest, idle, going, slot, first, rfl, ?_⟩
    rw [begun, begun, launches_append, idle.errands, List.filterMap_nil, List.append_nil, List.append_assoc]
    exact congrArg (fun id => launches past ++ [id]) hname
  | ended now idle landed hend =>
    refine .inl (quiet rfl ?_)
    rw [idle.errands, Coordinator.finish]
    simp only [List.filterMap_append]
    cases Coordinator.errorRequest? _ <;> rfl
  | timedOut now idle flying going unasked limit => exact .inl (quiet rfl (by rw [idle.errands]; rfl))
  | succeeded now idle hr hrun => exact .inl (quiet rfl (by rw [idle.errands]; rfl))
  | failed now idle hr hrun =>
    refine .inl (quiet rfl ?_)
    rw [idle.errands, List.filterMap_nil, List.filterMap_eq_nil_iff]
    intro errand hmem
    simp only [List.mem_append, List.mem_cons, List.not_mem_nil, or_false, List.mem_map] at hmem
    rcases hmem with (rfl | rfl) | ⟨y, -, rfl⟩ <;> rfl
  | canceled | elsewhere => exact .inl (quiet rfl rfl)

/-- When no other node runs, the first that is ready is the next of the plan that is not behind a
failure. -/
theorem Lives.next_of_started (h₀ : Enters r p id e₀) (h : Lives id e₀ past e) (hr : e.run? id = some run)
    (idle : run.coordinator.Idle) (hgo : run.coordinator.stopping = false) (landed : run.coordinator.inFlight = [])
    {y : String} {rest : NameSet} (first : run.coordinator.ready = y :: rest)
    (hbegins : launches past <+: p.clearOf (failures past)) : launches past ++ [y] <+: p.clearOf (failures past) := by
  have hruns := h.runs h₀ hr
  have hs := hruns.sound
  have hplanned : Plan.ofDefinition r.definition = .ok p := hruns.definition ▸ hruns.plan ▸ hs.planned
  have hlaunched : ∀ z, z ∈ launches past ↔ run.coordinator.execution.HasStarted z := by
    simpa [idle.errands] using (h.tally h₀ hr).launched
  have hclear : ∀ z, z ∈ p.clearOf (failures past) ↔
      z ∈ run.coordinator.plan.order ∧ ¬ run.coordinator.execution.Doomed run.coordinator.definition z := by
    intro z
    rw [Plan.mem_clearOf hplanned, h.doomed_iff h₀ hr, hruns.plan]
  obtain ⟨left, hleft⟩ := hbegins
  obtain ⟨hw, hfed⟩ := (hs.ready hgo y).mp (first ▸ List.mem_cons_self)
  have hy : y ∈ left := by
    have hmem := (hclear y).mpr ⟨(hs.known y).mp (by rw [hw]; rfl), fun hd => hs.not_fed_of_doomed hd hfed⟩
    rw [← hleft] at hmem
    refine (List.mem_append.mp hmem).resolve_left fun hstarted => ?_
    rcases (hlaunched y).mp hstarted with hy | hy | hy <;> exact absurd (hw.symm.trans hy) nofun
  cases left with
  | nil => exact absurd hy List.not_mem_nil
  | cons z left =>
    -- the next node of the list is ready: it waits, and all that feeds it has come to an end
    have hz := (hclear z).mp (hleft ▸ List.mem_append_right _ List.mem_cons_self)
    have hready : z ∈ run.coordinator.ready := by
      refine (hs.ready hgo z).mpr ⟨?_, fun a ha => ?_⟩
      · obtain ⟨s, hstatus⟩ := Option.isSome_iff_exists.mp ((hs.known z).mpr hz.1)
        have hnew : ¬ run.coordinator.execution.HasStarted z := by
          rw [← hlaunched]
          intro hmem
          have hnodup : (launches past ++ z :: left).Nodup := hleft ▸ (Plan.nodup_order hplanned).filter _
          exact (List.nodup_append.mp hnodup).2.2 z hmem z List.mem_cons_self rfl
        cases s with
        | waiting => exact hstatus
        | running => exact absurd (.inl hstatus) hnew
        | success => exact absurd (.inr (.inl hstatus)) hnew
        | error => exact absurd (.inr (.inr hstatus)) hnew
        | skipped => exact absurd (hs.skipped z hstatus) hz.2
      · have hstarted := Plan.mem_before_of_clearOf hplanned hleft.symm (hruns.definition ▸ ha)
        rcases (hlaunched a).mp hstarted with hrun | hsuccess | herror
        · exact absurd ((hs.flying a).mpr hrun) (by rw [landed]; exact List.not_mem_nil)
        · exact hsuccess
        · exact absurd ⟨a, herror, .single ha⟩ hz.2
    rcases List.mem_cons.mp hy with rfl | hlater
    · exact ⟨left, by rw [← hleft, List.append_assoc]; rfl⟩
    · have hless : z < y := Plan.lt_of_clearOf hplanned hleft.symm hlater fun a ha =>
        (hlaunched a).mpr (.inr (.inl (hfed a (hruns.definition.symm ▸ ha))))
      rw [first] at hready
      rcases List.mem_cons.mp hready with rfl | hmem
      · exact absurd hless (String.lt_irrefl _)
      · have hgreater := (List.pairwise_cons.mp (first ▸ hs.ascending)).1 z hmem
        exact absurd (String.lt_trans hless hgreater) (String.lt_irrefl _)

/-- Nothing that was begun is behind a node that still runs. -/
theorem Lives.not_behind_of_running (h₀ : Enters r p id e₀) (h : Lives id e₀ past e) (hr : e.run? id = some run)
    {y : String} (hrunning : run.coordinator.execution.nodeStatus? y = some .running) :
    ∀ z ∈ begun past run.coordinator, (!(p.allDependents y).contains z) = true := by
  have hruns := h.runs h₀ hr
  have hs := hruns.sound
  intro z hz
  rw [Bool.not_eq_true', ← Bool.not_eq_true, List.contains_iff_mem, ← hruns.plan, Plan.mem_allDependents hs.planned]
  intro hl
  have hsuccess := hs.success_of_leadsTo (((h.tally h₀ hr).launched z).mp hz) hl
  exact absurd (hrunning.symm.trans hsuccess) nofun

/-- With one slot, what is begun is at every point the beginning of the order without what is
behind the failures so far. -/
theorem Lives.inOrder (h₀ : Enters r p id e₀) (h : Lives id e₀ past e) (hr : e.run? id = some run)
    (hone : run.coordinator.config.maxConcurrency ≤ 1) :
    begun past run.coordinator <+: p.clearOf (failures past) := by
  refine h.induction (motive := fun past run => run.coordinator.config.maxConcurrency ≤ 1 →
    begun past run.coordinator <+: p.clearOf (failures past)) h₀ hr (fun _ _ _ _ _ => List.nil_prefix) ?_ hone
  intro past e x run run' hlife hrun hbegins hs ha _ _ hone
  rw [ha.config_eq] at hone
  have hbegins := hbegins hone
  rcases begun_of_advance past e ha with hsame | ⟨y, rest, idle, hgo, slot, first, rfl, hnext⟩
  · rw [hsame, failures_append]
    cases hf : Moment.failed? ⟨e, x⟩ with
    | none => simpa using hbegins
    | some y =>
      obtain ⟨f, hfinished⟩ := failed?_eq_some.mp hf
      cases hfinished
      have hapart := hlife.not_behind_of_running h₀ hrun ha.running_of_finished
      have hrest := hbegins.filter fun z => !(p.allDependents y).contains z
      rwa [List.filter_eq_self.mpr hapart, ← Plan.clearOf_append] at hrest
  · have landed : run.coordinator.inFlight = [] := by
      rw [Coordinator.slots_of_le_one hone] at slot
      exact List.eq_nil_of_length_eq_zero (Nat.lt_one_iff.mp slot)
    have hbegun : begun past run.coordinator = launches past := by
      rw [begun, idle.errands]
      exact List.append_nil _
    rw [hbegun] at hbegins
    rw [hnext, hbegun, failures_append]
    simpa [Moment.failed?] using hlife.next_of_started h₀ hrun idle hgo landed first hbegins

/-! ## Whole runs -/

theorem Lives.config_eq (h : Lives id e₀ past e) (h₀ : e₀.run? id = some run₀) (hr : e.run? id = some run) :
    run.coordinator.config = run₀.coordinator.config := by
  induction h generalizing run with
  | start => cases h₀.symm.trans hr; rfl
  | next _ m ih =>
    obtain ⟨before, hbefore, hturn, -⟩ := m.turn hr
    exact hturn.sameRun.config.trans (ih hbefore)

theorem Moves.exists_run_of_stops (m : e.Moves id x e₁) (hstop : Moment.stops id ⟨e, x⟩ = true) :
    ∃ run, e.run? id = some run := by
  cases m with
  | step h =>
    obtain ⟨run, _, hrun, -⟩ := stepRun?_eq_some h
    exact ⟨run, hrun⟩
  | timeUp hr => exact ⟨_, hr⟩
  | cancel | finished | elsewhere => cases hstop

theorem failed?_of_not_own (h : m.isOwn = false) : m.failed? = none := by
  obtain ⟨e, x⟩ := m
  cases x with
  | cancel | elsewhere => rfl
  | step | timeUp | finished => cases h

/-- Leaving launches nothing and fails nothing, and neither does what comes after. -/
theorem eq_of_left (e : Engine) (before : List Moment) {after : List Moment} (hafter : ∀ m ∈ after, m.isOwn = false) :
    launches (before ++ ⟨e, .step (some .leave)⟩ :: after) = launches before ∧
      failures (before ++ ⟨e, .step (some .leave)⟩ :: after) = failures before := by
  have hlaunched : after.filterMap Moment.launched? = [] :=
    List.filterMap_eq_nil_iff.mpr fun m hm => launched?_of_not_own (hafter m hm)
  have hfailed : after.filterMap Moment.failed? = [] :=
    List.filterMap_eq_nil_iff.mpr fun m hm => failed?_of_not_own (hafter m hm)
  constructor
  · rw [launches, List.filterMap_append, List.filterMap_cons_none rfl, hlaunched]
    exact List.append_nil _
  · rw [failures, List.filterMap_append, List.filterMap_cons_none rfl, hfailed]
    exact List.append_nil _

/-- A run that has come to its end without having been told to stop has launched every node that
it has not skipped, in the order of the plan. -/
theorem Lives.launches_of_closing (h₀ : Enters r p id e₀) (h : Lives id e₀ past e) (hr : e.run? id = some run)
    (hone : run.coordinator.config.maxConcurrency ≤ 1) (hclosing : run.coordinator.closing = true)
    (hgo : run.coordinator.stopping = false) :
    launches past = p.clearOf (failures past) ∧
      launches past = p.order.filter (run.coordinator.execution.nodeStatus? · ≠ some .skipped) := by
  have hruns := h.runs h₀ hr
  have hs := hruns.sound
  have hplanned : Plan.ofDefinition r.definition = .ok p := hruns.definition ▸ hruns.plan ▸ hs.planned
  have hclear : p.clearOf (failures past) =
      p.order.filter (run.coordinator.execution.nodeStatus? · ≠ some .skipped) := by
    refine List.filter_congr fun y _ => ?_
    rw [Bool.eq_iff_iff, Bool.not_eq_true', ← Bool.not_eq_true, Plan.isBehind_iff hplanned, h.doomed_iff h₀ hr,
      ← hs.skipped_iff_of_closing hclosing hgo, decide_eq_true_eq]
  have hbegins := (List.prefix_append _ _).trans (h.inOrder h₀ hr hone)
  have hall : p.clearOf (failures past) ⊆ launches past := by
    intro y hy
    rw [hclear, List.mem_filter, decide_eq_true_eq, ← hruns.plan, ← hs.known] at hy
    exact (mem_launches_iff h₀ h hr hclosing hgo y).mpr hy
  have heq := hbegins.eq_of_length_le (((Plan.nodup_order hplanned).filter _).length_le_of_subset hall)
  exact ⟨heq, heq.trans hclear⟩

/-- A run that is told to stop has launched all that it ever will, the beginning of the order
without what is behind the failures so far. -/
theorem Lives.launches_of_stops {before after : List Moment} (h₀ : Enters r p id e₀)
    (hone : ∀ run, e₀.run? id = some run → run.coordinator.config.maxConcurrency ≤ 1)
    (h : Lives id e₀ (before ++ m :: after) e) (hstop : m.stops id = true) :
    launches (before ++ m :: after) = launches before ∧ launches before <+: p.clearOf (failures before) := by
  obtain ⟨e₁, hbefore, hmoves, hafter⟩ := h.split
  obtain ⟨run, hr⟩ := hmoves.exists_run_of_stops hstop
  obtain ⟨run₁, hr₁, hhalts⟩ := hbefore.halts h₀ hr hmoves hstop
  obtain ⟨hnone, -⟩ := (hbefore.next hmoves).drains h₀ hr₁ (.refl hhalts.stopping hhalts.calm) hafter
  have hm : m.launched? = none := by
    obtain ⟨_, hrun, hturn, -⟩ := hmoves.turn hr₁
    cases hrun.symm.trans hr
    refine ((hbefore.runs h₀ hr).sound.advance hturn).launched?_eq_none fun errand hmem => ?_
    rw [hhalts.idle.errands] at hmem
    exact absurd hmem List.not_mem_nil
  obtain ⟨-, types, config, record, -, hrun₀, -⟩ := h₀.spec
  have hconfig := hone _ hrun₀
  rw [← hbefore.config_eq hrun₀ hr] at hconfig
  refine ⟨?_, (List.prefix_append _ _).trans (hbefore.inOrder h₀ hr hconfig)⟩
  rw [List.append_cons, launches, List.filterMap_append]
  change launches (before ++ [m]) ++ launches after = _
  rw [hnone, launches_append, hm]
  simp

/-- The order in which a run with the plan `p` starts its nodes, one at a time. -/
structure Serial (p : Plan) (id : String) (past : List Moment) (e : Engine) : Prop where
  /-- At every point it has started the beginning of the order without what is behind the failures so far. -/
  inOrder : launches past <+: p.clearOf (failures past)
  /-- From the step that ends it on, it has started every node of the order that it has not
  skipped, if it was not told to stop. -/
  whole : past.countP (Moment.stops id) = 0 → ∀ run, e.run? id = some run → run.coordinator.closing = true →
    launches past = p.clearOf (failures past) ∧
      launches past = p.order.filter (run.coordinator.execution.nodeStatus? · ≠ some .skipped)
  /-- It is only gone once it had. -/
  left : past.countP (Moment.stops id) = 0 → e.run? id = none → ∃ m ∈ past, ∃ run, m.engine.run? id = some run ∧
    run.coordinator.closing = true ∧ launches past = p.clearOf (failures past) ∧
      launches past = p.order.filter (run.coordinator.execution.nodeStatus? · ≠ some .skipped)
  /-- When it was told to stop it had started the beginning of what was then left of the order,
  and has started nothing since. -/
  stopped : ∀ before m after, past = before ++ m :: after → m.stops id = true →
    launches past = launches before ∧ launches before <+: p.clearOf (failures before)

/-- A run with one slot starts its nodes in the order of its plan, but for those behind a failure. -/
theorem serialByPlan (h₀ : Enters r p id e₀)
    (hone : ∀ run, e₀.run? id = some run → run.coordinator.config.maxConcurrency ≤ 1) (h : Lives id e₀ past e) :
    Serial p id past e := by
  have hconfig : ∀ {past e run}, Lives id e₀ past e → e.run? id = some run →
      run.coordinator.config.maxConcurrency ≤ 1 := by
    intro past e run h hr
    obtain ⟨-, types, config, record, -, hrun₀, -⟩ := h₀.spec
    rw [h.config_eq hrun₀ hr]
    exact hone _ hrun₀
  have hwhole : ∀ {past e run}, Lives id e₀ past e → e.run? id = some run → run.coordinator.closing = true →
      past.countP (Moment.stops id) = 0 → launches past = p.clearOf (failures past) ∧
        launches past = p.order.filter (run.coordinator.execution.nodeStatus? · ≠ some .skipped) := by
    intro past e run h hr hclosing hstops
    refine h.launches_of_closing h₀ hr (hconfig h hr) hclosing ?_
    rw [h.countP_stops h₀ hr] at hstops
    cases hgo : run.coordinator.stopping with
    | false => rfl
    | true => rw [hgo] at hstops; cases hstops
  refine
    { inOrder := ?inOrder
      whole := fun hstops run hr hclosing => hwhole h hr hclosing hstops
      left := fun hstops hgone => ?left
      stopped := ?stopped }
  case inOrder =>
    cases hr : e.run? id with
    | some run => exact (List.prefix_append _ _).trans (h.inOrder h₀ hr (hconfig h hr))
    | none =>
      obtain ⟨before, e₁, run, after, hbefore, hrun, -, -, rfl, hafter⟩ := h.left h₀ hr
      obtain ⟨hlaunches, hfailures⟩ := eq_of_left e₁ before hafter
      rw [hlaunches, hfailures]
      exact (List.prefix_append _ _).trans (hbefore.inOrder h₀ hrun (hconfig hbefore hrun))
  case left =>
    obtain ⟨before, e₁, run, after, hbefore, hrun, -, hclosing, rfl, hafter⟩ := h.left h₀ hgone
    obtain ⟨hlaunches, hfailures⟩ := eq_of_left e₁ before hafter
    rw [List.countP_append, Nat.add_eq_zero_iff] at hstops
    refine ⟨⟨e₁, .step (some .leave)⟩, List.mem_append_right _ List.mem_cons_self, run, hrun, hclosing, ?_⟩
    rw [hlaunches, hfailures]
    exact hwhole hbefore hrun hclosing hstops.1
  case stopped =>
    intro before m after hpast hstop
    subst hpast
    exact h.launches_of_stops h₀ hone hstop

end Engine

/-! ## Two ways, one of them blocked -/

namespace Detour

/-- Each of two nodes feeds one other. -/
def definition : Definition :=
  { name := "detour"
    nodes := [{ id := "d", type := "merge" }, { id := "c", type := "merge" }, { id := "b", type := "trigger" },
      { id := "a", type := "trigger" }]
    connections := [{ id := "1", source := "a", target := "c" }, { id := "2", source := "b", target := "d" }] }

def plan : Plan :=
  { order := ["a", "b", "c", "d"], roots := ["a", "b"],
    producers := [("a", []), ("b", []), ("c", ["a"]), ("d", ["b"])],
    consumers := [("a", ["c"]), ("b", ["d"]), ("c", []), ("d", [])] }

def engine : Engine :=
  { config := { maxConcurrency := 0 }, registry := Fork.types, ids := { run := fun _ => "run" } }

/-- The engine that has entered a run. -/
def entered : Engine := (engine.startDefinition definition .null none).2

theorem enters : Engine.Enters ⟨definition, .null, none⟩ plan "run" entered :=
  .of_startDefinition (e := engine) rfl rfl rfl

/-- The first node fails, and the one behind it is skipped. -/
def failed : List Engine.Moment × Engine :=
  Engine.runNode "run" "a" (.error (.invalidInput "no")) 4 5 entered

/-- The next one succeeds, and so does the one after it. -/
def ended : List Engine.Moment × Engine :=
  let second := Engine.runNode "run" "b" (.ok [("main", .null)]) 4 2 failed.2
  let third := Engine.runNode "run" "d" (.ok [("main", .null)]) 4 3 second.2
  (failed.1 ++ (second.1 ++ third.1), third.2)

/-- It is asked to cancel instead. -/
def canceled : List Engine.Moment × Engine :=
  let stopped := Engine.takeSteps "run" 20 (failed.2.cancelActive "run")
  (failed.1 ++ [⟨failed.2, .cancel⟩] ++ stopped.1, stopped.2)

end Detour

namespace Engine

/-- The node behind the failure is left out and the others run in the order of the plan; a run
that is canceled then starts none of them. -/
theorem serialByPlan_detour :
    (Lives "run" Detour.entered Detour.ended.1 Detour.ended.2 ∧
      (Detour.ended.2.run? "run").any (·.coordinator.closing) = true ∧ launches Detour.ended.1 = ["a", "b", "d"] ∧
      failures Detour.ended.1 = ["a"] ∧ Serial Detour.plan "run" Detour.ended.1 Detour.ended.2) ∧
    Lives "run" Detour.entered Detour.canceled.1 Detour.canceled.2 ∧ launches Detour.canceled.1 = ["a"] ∧
      Detour.canceled.1.countP (Moment.stops "run") = 1 ∧ Serial Detour.plan "run" Detour.canceled.1 Detour.canceled.2 := by
  have hone : ∀ run, Detour.entered.run? "run" = some run → run.coordinator.config.maxConcurrency ≤ 1 := by
    intro run hr
    have hconfig : (Detour.entered.run? "run").map (·.coordinator.config.maxConcurrency) = some 0 := rfl
    rw [hr, Option.map_some, Option.some.injEq] at hconfig
    omega
  have hfailed : Lives "run" Detour.entered Detour.failed.1 Detour.failed.2 := Lives.runNode (by decide +kernel)
  have hended : Lives "run" Detour.entered Detour.ended.1 Detour.ended.2 :=
    hfailed.append ((Lives.runNode (by decide +kernel)).append (Lives.runNode (by decide +kernel)))
  have hcanceled : Lives "run" Detour.entered Detour.canceled.1 Detour.canceled.2 := (hfailed.next .cancel).takeSteps 20
  exact ⟨⟨hended, rfl, rfl, rfl, serialByPlan Detour.enters hone hended⟩,
    hcanceled, rfl, by decide +kernel, serialByPlan Detour.enters hone hcanceled⟩

end Engine
end Workflows
