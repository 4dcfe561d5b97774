/-
  Workflows.Proofs.Run.Downstream — what the failure of a node holds back.

  A coordinator takes steps, is asked to cancel and is told what it waits for, in any order
  (`Undergoes`). The count of a node behind a failure never comes down to zero, because one of its
  producers has failed or is behind the failure itself (`Sound.positive_of_doomed`). The count of
  any other can: if that node is the only one to fail and nobody stops the run, the run comes to
  its end (`Undergoes.canEnd`), and there the nodes with a count above zero are those behind it
  (`Sound.doomed_of_positive`). So the nodes found behind a node are those that its failure holds
  back (`downstream_exact`).
-/

import Workflows.Proofs.Run.Serial

namespace Workflows

/-- The run takes a step, or is told that a node has ended as `answer` says. -/
def Happening.Plain (answer : String → Outcome) : Happening → Prop
  | .step _ => True
  | .finished node outcome => outcome = answer node
  | .cancel | .timeUp | .elsewhere => False

theorem Happening.Plain.isOwn {answer : String → Outcome} {x : Happening} (h : x.Plain answer) : x.isOwn = true := by
  cases x with
  | step | finished => rfl
  | cancel | timeUp | elsewhere => exact h.elim

namespace Coordinator

variable {c₀ c c' : Coordinator} {canceled : Bool} {past : List Happening} {x : Happening} {a y : String}
  {answer : String → Outcome}

/-! ## Counts above zero -/

/-- A node behind a failure lacks a producer. -/
theorem Sound.positive_of_doomed (h : c.Sound) (hd : c.execution.Doomed c.definition y) :
    ∃ n, Keyed.get? c.pending y = some (n + 1) := by
  have hlacking : c.plan.producers.lacking c.execution.succeeded y ≠ 0 := fun hzero =>
    h.not_fed_of_doomed hd ((Execution.lacking_eq_zero h.planned).mp hzero)
  obtain ⟨n, hn⟩ := Nat.exists_eq_succ_of_ne_zero hlacking
  obtain ⟨_, -, hl⟩ := hd
  exact ⟨n, (h.counted y (Plan.mem_order_of_leadsTo h.planned hl).2).trans (congrArg some hn)⟩

/-- At the end of a run that was not told to stop, only nodes behind failures lack one. -/
theorem Sound.doomed_of_positive (h : c.Sound) (hclosing : c.closing = true) (hgo : c.stopping = false)
    (hy : y ∈ c.plan.order) {n : Nat} (hcount : Keyed.get? c.pending y = some (n + 1)) :
    c.execution.Doomed c.definition y := by
  have hnot : ¬ c.execution.Fed c.definition y := by
    intro hfed
    rw [h.counted y hy, (Execution.lacking_eq_zero h.planned).mpr hfed] at hcount
    cases hcount
  exact h.skipped y (h.skipped_of_not_fed hclosing hgo hy hnot)

/-! ## All that can happen to a coordinator -/

/-- One thing happens to a coordinator, asked to cancel or not. -/
inductive Meets (c : Coordinator) (canceled : Bool) : Happening → Coordinator → Prop
  | step {c' : Coordinator} {effect : Option Effect} (now : Instant) (h : c.step? canceled now = some (c', effect)) :
      Meets c canceled (.step effect) c'
  | cancel : Meets c canceled .cancel c
  | timeUp (now : Instant) (hw : c.isWaiting canceled = true) (going : c.stopping = false)
      (limit : c.config.runTimeout.isSome) : Meets c canceled .timeUp (c.receive now .timedOut)
  | finished {node : String} {outcome : Outcome} (now : Instant) (hw : c.isWaiting canceled = true)
      (flying : node ∈ c.inFlight) :
      Meets c canceled (.finished node outcome) (c.receive now (.finished node outcome))

/-- All that has happened to the coordinator `c₀`, in order, and made it what it is, asked to
cancel or not. -/
inductive Undergoes (c₀ : Coordinator) : List Happening → Bool → Coordinator → Prop
  | start : Undergoes c₀ [] false c₀
  | next {past : List Happening} {canceled : Bool} {c c' : Coordinator} {x : Happening}
      (h : Undergoes c₀ past canceled c) (m : c.Meets canceled x c') :
      Undergoes c₀ (past ++ [x]) (canceled || x.asksToCancel) c'

theorem Meets.turn (m : c.Meets canceled x c') : c.Turn canceled x c' := by
  cases m with
  | step now h => exact turn_of_step? h
  | cancel => exact .canceled
  | timeUp now hw going limit => exact .timeUp now hw going limit
  | finished now hw flying => exact .finished now hw flying

theorem Undergoes.sound (hs : c₀.Sound) (h : c₀.Undergoes past canceled c) : c.Sound := by
  induction h with
  | start => exact hs
  | next _ m ih => exact ih.turn m.turn

theorem Undergoes.sameRun (h : c₀.Undergoes past canceled c) : SameRun c₀ c := by
  induction h with
  | start => exact .refl c₀
  | next _ m ih => exact ih.trans m.turn.sameRun

/-- What has happened tells the nodes that have succeeded and those that have failed. -/
structure Heard (past : List Happening) (c : Coordinator) : Prop where
  succeeded : ∀ y, c.execution.nodeStatus? y = some .success ↔ ∃ ports, .finished y (.ok ports) ∈ past
  failed : ∀ y, c.execution.nodeStatus? y = some .error ↔ ∃ e, .finished y (.error e) ∈ past

namespace Heard

/-- No node ends. -/
theorem quiet (h : Heard past c) (hx : ∀ y outcome, x ≠ .finished y outcome)
    (hsuccess : ∀ y, c'.execution.nodeStatus? y = some .success ↔ c.execution.nodeStatus? y = some .success)
    (herror : ∀ y, c'.execution.nodeStatus? y = some .error ↔ c.execution.nodeStatus? y = some .error) :
    Heard (past ++ [x]) c' := by
  have hmem : ∀ y outcome, .finished y outcome ∈ past ++ [x] ↔ .finished y outcome ∈ past := fun y outcome => by
    rw [List.mem_append, List.mem_singleton, or_iff_left (Ne.symm (hx y outcome))]
  refine ⟨fun y => ?_, fun y => ?_⟩
  · rw [hsuccess y, h.succeeded y]
    exact exists_congr fun ports => (hmem y _).symm
  · rw [herror y, h.failed y]
    exact exists_congr fun e => (hmem y _).symm

theorem succeeds {id : String} {ports : PortValues} (h : Heard past c)
    (hc : c.execution.Changes c'.execution id .running .success) : Heard (past ++ [.finished id (.ok ports)]) c' := by
  refine ⟨fun y => ?_, fun y => (hc.same (s := .error) nofun nofun y).trans ((h.failed y).trans (by simp))⟩
  by_cases hy : y = id
  · exact iff_of_true (hy ▸ hc.after) ⟨ports, List.mem_append_right _ (hy ▸ List.mem_singleton_self _)⟩
  · rw [hc.other y hy, h.succeeded y]
    simp [hy]

theorem fails {id : String} {err : NodeError} (h : Heard past c)
    (hc : c.execution.Changes c'.execution id .running .error) : Heard (past ++ [.finished id (.error err)]) c' := by
  refine ⟨fun y => (hc.same (s := .success) nofun nofun y).trans ((h.succeeded y).trans (by simp)), fun y => ?_⟩
  by_cases hy : y = id
  · exact iff_of_true (hy ▸ hc.after) ⟨err, List.mem_append_right _ (hy ▸ List.mem_singleton_self _)⟩
  · rw [hc.other y hy, h.failed y]
    simp [hy]

theorem advance (h : Heard past c) (ha : c.Advance canceled x c') : Heard (past ++ [x]) c' := by
  cases ha with
  | errand | passed | stopped | timedOut | canceled | elsewhere =>
    exact h.quiet nofun (fun _ => Iff.rfl) fun _ => Iff.rfl
  | @skipped id rest r now he hr hw =>
    have hc := Execution.changes_setNode (r := { r with status := .skipped, stoppedAt := some now })
      (Execution.nodeStatus?_eq_some.mpr ⟨r, hr, hw⟩)
    exact h.quiet nofun (hc.same nofun nofun) (hc.same nofun nofun)
  | @started id rest node r now idle going unasked slot first hn hr hw fed =>
    have hc := Execution.changes_setNode
      (r := { r with
        status := .running, input := .object (c.bag.inputs c.definition id c.execution.triggerData),
        startedAt := some now })
      (Execution.nodeStatus?_eq_some.mpr ⟨r, hr, hw⟩)
    exact h.quiet nofun (hc.same nofun nofun) (hc.same nofun nofun)
  | ended now idle landed hend =>
    have hsame : ∀ y, (c.finish now).execution.nodeStatus? y = c.execution.nodeStatus? y :=
      fun y => nodeStatus?_finalRecord
    exact h.quiet nofun (fun y => by rw [hsame y]) fun y => by rw [hsame y]
  | @succeeded id ports r pending ready now idle hr hrun =>
    have hc := Execution.changes_setNode
      (r := { r with status := .success, output := .object ports, stoppedAt := some now })
      (Execution.nodeStatus?_eq_some.mpr ⟨r, hr, hrun⟩)
    exact h.succeeds (hc.congr rfl)
  | @failed id err r now idle hr hrun =>
    exact h.fails (Execution.changes_setNode (Execution.nodeStatus?_eq_some.mpr ⟨r, hr, hrun⟩))

end Heard

/-- A coordinator that has just been made from a plan. -/
structure Fresh (c : Coordinator) : Prop where
  sound : c.Sound
  heard : Heard [] c
  going : c.stopping = false
  errands : c.errands = []

theorem Fresh.ofPlan {d : Definition} {p : Plan} {types : Registry} {config : Config} {e : Execution}
    (hp : Plan.ofDefinition d = .ok p) (hstatus : e.status = .running) (herror : e.error = none)
    (hnodes : ∀ y, e.nodeStatus? y = if y ∈ p.order then some .waiting else none) :
    Fresh (.ofPlan d p types config e) := by
  have hnone : ∀ y s, s ≠ .waiting → e.nodeStatus? y ≠ some s := fun _ _ hs hy =>
    hs (Execution.eq_waiting_of_waits hnodes hy)
  refine ⟨.ofPlan hp hstatus herror hnodes, ⟨fun y => ?_, fun y => ?_⟩, rfl, rfl⟩
  · exact iff_of_false (hnone y .success nofun) fun ⟨_, hmem⟩ => List.not_mem_nil hmem
  · exact iff_of_false (hnone y .error nofun) fun ⟨_, hmem⟩ => List.not_mem_nil hmem

theorem Undergoes.heard (h₀ : c₀.Fresh) (h : c₀.Undergoes past canceled c) : Heard past c := by
  induction h with
  | start => exact h₀.heard
  | next h m ih => exact ih.advance ((h.sound h₀.sound).advance m.turn)

/-! ## A run that nobody stops -/

/-- A coordinator that is not over can take a step, or be told that a node in flight has ended. -/
theorem exists_meets (hopen : c.closing = false) (answer : String → Outcome) :
    ∃ x c', c.Meets false x c' ∧ x.Plain answer := by
  rcases c.goesOn false .epoch (fun hclosing => absurd (hopen.symm.trans hclosing) nofun) with hstep | hw
  · obtain ⟨⟨c', effect⟩, hstep⟩ := Option.isSome_iff_exists.mp hstep
    exact ⟨_, c', .step .epoch hstep, trivial⟩
  · obtain ⟨node, hnode⟩ := List.exists_mem_of_ne_nil _ (isWaiting_iff.mp hw).2.1
    exact ⟨.finished node (answer node), _, .finished .epoch hw hnode, rfl⟩

/-- Whatever its nodes come to, a run that nobody stops comes to its end. -/
theorem Undergoes.canEnd (hs₀ : c₀.Sound) (answer : String → Outcome) (h : c₀.Undergoes past false c)
    (hgo : c.stopping = false) (hcalm : .cancel ∉ c.errands) (hplain : ∀ x ∈ past, x.Plain answer) :
    ∃ past' c', c₀.Undergoes past' false c' ∧ c'.closing = true ∧ c'.stopping = false ∧
      ∀ x ∈ past', x.Plain answer := by
  induction hn : c.effort using Nat.strong_induction_on generalizing past c with
  | _ n ih =>
    cases hclosing : c.closing with
    | true => exact ⟨past, c, h, hclosing, hgo, hplain⟩
    | false =>
      obtain ⟨x, c', m, hx⟩ := exists_meets hclosing answer
      have hs := h.sound hs₀
      have ha := hs.advance m.turn
      have hcancel : x ≠ .cancel := by rintro rfl; exact hx
      have htime : x ≠ .timeUp := by rintro rfl; exact hx
      obtain ⟨hgo', hcanceled, hcalm'⟩ := ha.undisturbed hcancel htime ⟨hgo, rfl, hcalm⟩
      have hless := effort_advance hs ha hx.isOwn
      exact ih c'.effort (by omega) (hcanceled ▸ h.next m) hgo' hcalm'
        (List.forall_mem_append.mpr ⟨hplain, List.forall_mem_singleton.mpr hx⟩) rfl

/-! ## Holding back -/

/-- However the run goes, once `a` has failed `y` waits for another node to succeed. -/
def HoldsBack (c₀ : Coordinator) (a y : String) : Prop :=
  ∀ past canceled c, c₀.Undergoes past canceled c → (∃ e, .finished a (.error e) ∈ past) →
    ∃ n, Keyed.get? c.pending y = some (n + 1)

theorem holdsBack_of_leadsTo (h₀ : c₀.Fresh) (hl : c₀.definition.LeadsTo a y) : c₀.HoldsBack a y := by
  intro past canceled c h hfailed
  have hl : c.definition.LeadsTo a y := h.sameRun.definition.symm ▸ hl
  exact (h.sound h₀.sound).positive_of_doomed ⟨a, ((h.heard h₀).failed a).mpr hfailed, hl⟩

/-- A node can be the only one to fail in a run that nobody stops and that comes to its end. -/
theorem Fresh.failsAlone (h₀ : c₀.Fresh) (ha : a ∈ c₀.plan.order) : ∃ past c, c₀.Undergoes past false c ∧
    c.closing = true ∧ c.stopping = false ∧ ∀ b, (∃ e, .finished b (.error e) ∈ past) ↔ b = a := by
  obtain ⟨past, c, hpast, hclosing, hgo, hplain⟩ := Undergoes.canEnd h₀.sound
    (fun node => if node = a then .error (.invalidInput "") else .ok []) .start h₀.going
    (by rw [h₀.errands]; exact List.not_mem_nil) nofun
  have hs := hpast.sound h₀.sound
  have hheard := hpast.heard h₀
  have honly : ∀ b e, .finished b (.error e) ∈ past → b = a := by
    intro b e hmem
    by_contra hne
    have houtcome := hplain _ hmem
    simp only [Happening.Plain, if_neg hne] at houtcome
    cases houtcome
  refine ⟨past, c, hpast, hclosing, hgo, fun b => ⟨fun ⟨e, hmem⟩ => honly b e hmem, ?_⟩⟩
  rintro rfl
  -- nothing leads to the node from itself, so it was not skipped and has been started
  obtain ⟨s, hstatus⟩ := Option.isSome_iff_exists.mp ((hs.known b).mpr (hpast.sameRun.plan.symm ▸ ha))
  cases s with
  | waiting => exact absurd hstatus (hs.not_waiting_of_closing hclosing hgo b)
  | running => exact absurd hstatus (hs.not_running_of_closing hclosing b)
  | error => exact (hheard.failed b).mp hstatus
  | skipped =>
    obtain ⟨f, hf, hl⟩ := hs.skipped b hstatus
    obtain ⟨e, hmem⟩ := (hheard.failed f).mp hf
    exact absurd (honly f e hmem ▸ hl) (Plan.not_leadsTo_self hs.planned b)
  | success =>
    obtain ⟨ports, hmem⟩ := (hheard.succeeded b).mp hstatus
    have houtcome := hplain _ hmem
    simp only [Happening.Plain, if_true] at houtcome
    cases houtcome

/-- Only what is behind a node is held back whenever that node fails. -/
theorem leadsTo_of_holdsBack (h₀ : c₀.Fresh) (ha : a ∈ c₀.plan.order) (hy : y ∈ c₀.plan.order)
    (h : c₀.HoldsBack a y) : c₀.definition.LeadsTo a y := by
  obtain ⟨past, c, hpast, hclosing, hgo, honly⟩ := h₀.failsAlone ha
  have hsame := hpast.sameRun
  obtain ⟨n, hcount⟩ := h past false c hpast ((honly a).mpr rfl)
  obtain ⟨f, hf, hl⟩ := (hpast.sound h₀.sound).doomed_of_positive hclosing hgo (hsame.plan.symm ▸ hy) hcount
  have hfa := (honly f).mp (((hpast.heard h₀).failed f).mp hf)
  exact hsame.definition ▸ hfa ▸ hl

end Coordinator

/-- In the record of a run that can start every node waits. -/
theorem StartCall.nodeStatus?_accepted {e : Execution} {p : Plan} {now : Instant} (y : String) :
    (StartCall.accepted e p now).nodeStatus? y = if y ∈ p.order then some .waiting else none := by
  rw [Execution.nodeStatus?, Execution.node?, StartCall.accepted, Execution.nodeResults_transition,
    Keyed.get?_ofList_map]
  split <;> rfl

/-! ## The nodes behind a node -/

/-- The nodes that the plan finds behind `a`. -/
structure Downstream (d : Definition) (p : Plan) (a : String) : Prop where
  /-- The search ends, whichever node on its list is looked at next. -/
  ends : Acc (fun s' s => Plan.Sweep.Next p.consumers s s') ⟨[], p.dependents a⟩
  /-- The plan searches to the end of the list. -/
  searched : Relation.ReflTransGen (Plan.Sweep.Next p.consumers) ⟨[], p.dependents a⟩ ⟨p.allDependents a, []⟩
  /-- Any search that goes no further has seen the same nodes. -/
  same : ∀ s, Relation.ReflTransGen (Plan.Sweep.Next p.consumers) ⟨[], p.dependents a⟩ s →
    (∀ s', ¬ Plan.Sweep.Next p.consumers s s') → s = ⟨p.allDependents a, []⟩
  ascending : (p.allDependents a).Pairwise (· < ·)
  /-- They are those that one or more connections lead to. -/
  reached : ∀ y, y ∈ p.allDependents a ↔ d.LeadsTo a y
  apart : a ∉ p.allDependents a
  strange : a ∉ p.order → p.allDependents a = []
  /-- They are those whose count the failure of `a` keeps above zero for ever, however a run of the plan goes. -/
  heldBack : ∀ types config (record : Execution), record.status = .running → record.error = none →
    (∀ y, record.nodeStatus? y = if y ∈ p.order then some .waiting else none) → ∀ y,
      (y ∈ p.allDependents a ↔
        a ∈ p.order ∧ y ∈ p.order ∧ (Coordinator.ofPlan d p types config record).HoldsBack a y)
  /-- They are held back in an engine, whatever else goes on there. -/
  inEngine : ∀ r id e₀ past e run, Engine.Enters r p id e₀ → Engine.Lives id e₀ past e → e.run? id = some run →
    a ∈ Engine.failures past → ∀ y ∈ p.allDependents a, ∃ n, Keyed.get? run.coordinator.pending y = some (n + 1)

/-- What a plan finds behind a node is what connections lead to from there, and what waits for ever
once the node has failed. -/
theorem downstream_exact {d : Definition} {p : Plan} (h : Plan.ofDefinition d = .ok p) (a : String) :
    Downstream d p a := by
  refine
    { ends := (Plan.Sweep.wellFounded_next (Plan.nodup_keys_consumers h)).apply _
      searched := Plan.sweeps_allDependents h a
      same := fun s hs hend => Plan.eq_of_sweeps h hs hend
      ascending := Plan.ascending_allDependents p a
      reached := fun y => Plan.mem_allDependents h
      apart := fun hmem => Plan.not_leadsTo_self h a ((Plan.mem_allDependents h).mp hmem)
      strange := fun hstrange => ?strange
      heldBack := fun types config record hstatus herror hnodes y => ?heldBack
      inEngine := fun r id e₀ past e run h₀ hlife hr hfailed y hy => ?inEngine }
  case strange =>
    refine List.eq_nil_iff_forall_not_mem.mpr fun y hy => hstrange ?_
    exact (Plan.mem_order_of_leadsTo h ((Plan.mem_allDependents h).mp hy)).1
  case heldBack =>
    have h₀ : (Coordinator.ofPlan d p types config record).Fresh := .ofPlan h hstatus herror hnodes
    rw [Plan.mem_allDependents h]
    constructor
    · intro hl
      obtain ⟨ha, hy⟩ := Plan.mem_order_of_leadsTo h hl
      exact ⟨ha, hy, Coordinator.holdsBack_of_leadsTo h₀ hl⟩
    · intro hheld
      obtain ⟨ha, hy, hheld⟩ := hheld
      exact Coordinator.leadsTo_of_holdsBack h₀ ha hy hheld
  case inEngine =>
    have hruns := hlife.runs h₀ hr
    have hplanned : Plan.ofDefinition run.coordinator.definition = .ok p := hruns.plan ▸ hruns.sound.planned
    have hstatus := (hlife.mem_failures_iff h₀ hr a).mp hfailed
    exact hruns.sound.positive_of_doomed ⟨a, hstatus, (Plan.mem_allDependents hplanned).mp hy⟩

/-- Two ways lead from the first node of the diamond to its last and none from a node that stands
alone, and neither way holds the other back. In the run where one of two ways is blocked, the node
on that way is left without what it waits for. -/
theorem downstream_exact_diamond :
    (∃ p record, Plan.ofDefinition Plan.diamond = .ok p ∧ Downstream Plan.diamond p "y" ∧
      p.allDependents "y" = ["a", "b", "c"] ∧ p.allDependents "z" = [] ∧
      (Coordinator.ofPlan Plan.diamond p Fork.types {} record).HoldsBack "y" "a" ∧
      ¬ (Coordinator.ofPlan Plan.diamond p Fork.types {} record).HoldsBack "b" "c") ∧
    Engine.failures Detour.failed.1 = ["a"] ∧
      ∃ run n, Detour.failed.2.run? "run" = some run ∧ Keyed.get? run.coordinator.pending "c" = some (n + 1) := by
  have hdiamond : Plan.ofDefinition Plan.diamond = .ok _ := rfl
  have hdetour : Plan.ofDefinition Detour.definition = .ok Detour.plan := rfl
  refine ⟨?diamond, rfl, ?detour⟩
  case diamond =>
    have hheld := fun a => (downstream_exact hdiamond a).heldBack Fork.types {}
      (StartCall.accepted (.fresh "run" "diamond" 1 .null none .epoch) _ .epoch) rfl rfl StartCall.nodeStatus?_accepted
    refine ⟨_, _, hdiamond, downstream_exact hdiamond "y", rfl, rfl, ((hheld "y" "a").mp (by decide)).2.2, fun h => ?_⟩
    exact absurd ((hheld "b" "c").mpr ⟨by decide, by decide, h⟩) (by decide)
  case detour =>
    have hlife : Engine.Lives "run" Detour.entered Detour.failed.1 Detour.failed.2 :=
      Engine.Lives.runNode (by decide +kernel)
    obtain ⟨run, hr⟩ : ∃ run, Detour.failed.2.run? "run" = some run := ⟨_, rfl⟩
    obtain ⟨n, hcount⟩ := (downstream_exact hdetour "a").inEngine _ "run" _ _ _ run Detour.enters hlife hr
      (by decide +kernel) "c" (by decide)
    exact ⟨run, n, hr, hcount⟩

end Workflows
