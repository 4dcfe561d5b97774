/-
  Workflows.Proofs.Run.Ending — every run ends, and leaves no node behind.

  A run is told to stop at most once, is told of the end of each node at most once, and takes a
  bounded number of steps (`Lives.spent`); as long as it is alive it can take a step or waits for
  a node in flight (`Lives.goesOn`), so it comes to its end (`Lives.canEnd`). When it ends no node is
  running and the skipped nodes are behind failures. Unless it was told to stop, no node waits
  either: a waiting node that is first in the order of connections would be ready, or behind a
  failure.
-/

import Workflows.Proofs.Run.Effort

namespace Workflows

namespace Coordinator

variable {c c' : Coordinator} {canceled : Bool} {x : Happening}

/-! ## Going on -/

/-- A coordinator that is not over has something to do or waits for a node in flight. -/
theorem goesOn (canceled : Bool) (now : Instant) (h : c.closing = true → c.errands ≠ []) :
    (c.step? canceled now).isSome ∨ c.isWaiting canceled = true := by
  cases he : c.errands with
  | cons e rest => left; simp [step?, he]
  | nil =>
    have hclosing : c.closing = false := by
      cases hc : c.closing with
      | true => exact absurd he (h hc)
      | false => rfl
    by_cases hflight : c.inFlight = []
    · left
      simp only [step?, he, decide?, hclosing, Bool.false_eq_true, if_false, Option.isSome_map]
      split
      · rfl
      · split
        · rfl
        · simp [hflight]
    · by_cases hw : c.isWaiting canceled = true
      · exact .inr hw
      · left
        rw [isWaiting_iff] at hw
        have hidle : c.Idle := ⟨he, hclosing⟩
        simp only [hidle, hflight, ne_eq, not_false_eq_true, true_and, not_or, not_and] at hw
        obtain ⟨hstop, hopen⟩ := hw
        have hgo : c.stopping = false := Bool.eq_false_iff.mpr hstop
        simp only [step?, he, decide?, hclosing, hgo, Bool.false_eq_true, if_false, Option.isSome_map]
        cases hc : canceled with
        | true => rfl
        | false =>
          have hopen := hopen hc
          cases hr : c.ready with
          | nil => exact absurd hr hopen.1
          | cons id rest =>
            have hslot : c.inFlight.length < c.slots := Nat.lt_of_not_le hopen.2
            simp [hslot]

/-- Leaving is the last errand of a run that ends, and of no other. -/
structure LeavesLast (c : Coordinator) : Prop where
  last : c.closing = true → ∃ before, c.errands = before ++ [.leave] ∧ .leave ∉ before
  never : c.closing = false → .leave ∉ c.errands

namespace LeavesLast

theorem tail (h : c.LeavesLast) {e : Errand} {rest : List Errand} (he : c.errands = e :: rest) (hne : e ≠ .leave) :
    LeavesLast { c with errands := rest } := by
  refine ⟨fun hclosing => ?_, fun hclosing hmem => h.never hclosing (he ▸ List.mem_cons_of_mem _ hmem)⟩
  obtain ⟨before, hb, hnot⟩ := h.last hclosing
  cases before with
  | nil => exact absurd (List.cons.inj (he.symm.trans hb)).1 hne
  | cons b before =>
    exact ⟨before, (List.cons.inj (he.symm.trans hb)).2, fun hmem => hnot (List.mem_cons_of_mem _ hmem)⟩

/-- A run that goes on has other errands. -/
theorem of_idle (idle : c.Idle) (hclosing : c'.closing = c.closing) (hnot : .leave ∉ c'.errands) : c'.LeavesLast :=
  ⟨fun hc => absurd (hclosing.symm.trans hc) (by rw [idle.closing]; nofun), fun _ => hnot⟩

theorem advance (h : c.LeavesLast) (ha : c.Advance canceled x c') (hstays : x ≠ .step (some .leave)) :
    c'.LeavesLast := by
  cases ha with
  | errand now he hskip => exact h.tail he (by intro heq; subst heq; exact hstays rfl)
  | passed he hs => exact h.tail he nofun
  | skipped now he hr hw =>
    have htail := h.tail he nofun
    refine ⟨fun hclosing => ?_, fun hclosing hmem => htail.never hclosing (by simpa using hmem)⟩
    obtain ⟨before, hb, hnot⟩ := htail.last hclosing
    exact ⟨_ ++ before, (congrArg _ hb).trans (List.append_assoc _ _ _).symm, by simpa using hnot⟩
  | stopped now idle going asked => exact of_idle idle rfl (by simp)
  | started now idle going unasked slot first hn hr hw fed => exact of_idle idle rfl (by simp)
  | ended now idle landed hend =>
    have hlast : ∀ l : List Errand, l ++ [.signalDone, .leave] = (l ++ [.signalDone]) ++ [.leave] := fun l => by simp
    refine ⟨fun _ => ⟨_, hlast _, ?_⟩, nofun⟩
    simp
  | timedOut now idle flying going unasked limit => exact of_idle idle rfl (by simp)
  | succeeded now idle hr hrun => exact of_idle idle rfl (by simp)
  | failed now idle hr hrun => exact of_idle idle rfl (by simp)
  | canceled | elsewhere => exact h

end LeavesLast

theorem eq_of_not_own (ha : c.Advance canceled x c') (hown : x.isOwn = false) : c' = c := by
  cases ha with
  | canceled | elsewhere => rfl
  | _ => cases hown

/-! ## The end -/

/-- How a run of the definition `d` with the plan `p` has ended. -/
structure Concluded (d : Definition) (p : Plan) (c : Coordinator) : Prop where
  terminal : c.execution.status = .success ∨ c.execution.status = .error ∨ c.execution.status = .canceled
  landed : ∀ x, c.execution.nodeStatus? x ≠ some .running
  skipped : ∀ x, c.execution.nodeStatus? x = some .skipped →
    ∃ y, c.execution.nodeStatus? y = some .error ∧ d.LeadsTo y x
  /-- A run that was not told to stop has dealt with every node. -/
  dealt : c.stopping = false → ∀ x, c.execution.nodeStatus? x ≠ some .waiting
  behind : c.stopping = false → ∀ x,
    (c.execution.nodeStatus? x = some .skipped ↔ ∃ y, c.execution.nodeStatus? y = some .error ∧ d.LeadsTo y x)
  success : c.stopping = false →
    (c.execution.status = .success ↔ ∀ x ∈ p.order, c.execution.nodeStatus? x = some .success)
  failure : c.stopping = false →
    (c.execution.status = .error ↔ ¬ ∀ x ∈ p.order, c.execution.nodeStatus? x = some .success)

namespace Sound

theorem not_skip_mem (h : c.Sound) (hclosing : c.closing = true) (x : String) : .skip x ∉ c.errands := fun hmem =>
  absurd (h.toSkip x hmem).2.2 (by rw [hclosing]; nofun)

theorem not_running_of_closing (h : c.Sound) (hclosing : c.closing = true) (x : String) :
    c.execution.nodeStatus? x ≠ some .running := by
  intro hx
  have := (h.flying x).mpr hx
  rw [(h.closed hclosing).1] at this
  cases this

theorem skipped_iff_of_closing (h : c.Sound) (hclosing : c.closing = true) (hgo : c.stopping = false) (x : String) :
    c.execution.nodeStatus? x = some .skipped ↔ c.execution.Doomed c.definition x :=
  ⟨h.skipped x, fun hd => (h.doomed hgo x hd).resolve_right (h.not_skip_mem hclosing x)⟩

/-- No node waits at the end of a run that was not told to stop: one fed by nodes that do not
wait would have been ready, or is behind a failure. -/
theorem not_waiting_of_closing (h : c.Sound) (hclosing : c.closing = true) (hgo : c.stopping = false) (x : String) :
    c.execution.nodeStatus? x ≠ some .waiting := by
  induction x using (Plan.wellFounded_feeds h.planned).induction with
  | _ x ih =>
    intro hx
    have hready : x ∉ c.ready := by
      rw [(h.closed hclosing).2.resolve_left (by rw [hgo]; nofun)]
      exact List.not_mem_nil
    have hnot : ¬ c.execution.Fed c.definition x := fun hfed => hready ((h.ready hgo x).mpr ⟨hx, hfed⟩)
    obtain ⟨a, ha, hne⟩ : ∃ a, c.definition.Feeds a x ∧ c.execution.nodeStatus? a ≠ some .success := by
      by_contra hall
      exact hnot fun a ha => by_contra fun hne => hall ⟨a, ha, hne⟩
    have hdoomed : c.execution.Doomed c.definition x := by
      obtain ⟨s, hs⟩ := Option.isSome_iff_exists.mp ((h.known a).mpr (Plan.mem_order_of_feeds h.planned ha).1)
      cases s with
      | waiting => exact absurd hs (ih a ha)
      | running => exact absurd hs (h.not_running_of_closing hclosing a)
      | success => exact absurd hs hne
      | error => exact ⟨a, hs, .single ha⟩
      | skipped =>
        obtain ⟨y, hy, hl⟩ := h.skipped a hs
        exact ⟨y, hy, .tail hl ha⟩
    exact absurd (hx.symm.trans ((h.skipped_iff_of_closing hclosing hgo x).mpr hdoomed)) nofun

/-- All nodes have succeeded unless one has failed. -/
theorem all_success_iff (h : c.Sound) (hclosing : c.closing = true) (hgo : c.stopping = false) :
    (∀ x ∈ c.plan.order, c.execution.nodeStatus? x = some .success) ↔ c.firstFailure.isSome = false := by
  rw [← Bool.not_eq_true, h.blamed]
  constructor
  · intro hall hfailed
    obtain ⟨x, hx⟩ := hfailed
    have hmem := (h.known x).mp (by rw [hx]; rfl)
    exact absurd (hx.symm.trans (hall x hmem)) nofun
  · intro hnone x hx
    obtain ⟨s, hs⟩ := Option.isSome_iff_exists.mp ((h.known x).mpr hx)
    cases s with
    | waiting => exact absurd hs (h.not_waiting_of_closing hclosing hgo x)
    | running => exact absurd hs (h.not_running_of_closing hclosing x)
    | success => exact hs
    | error => exact absurd ⟨x, hs⟩ hnone
    | skipped =>
      obtain ⟨y, hy, -⟩ := h.skipped x hs
      exact absurd ⟨y, hy⟩ hnone

theorem isTerminal_of_closing (h : c.Sound) (hclosing : c.closing = true) : c.execution.isTerminal = true := by
  cases hstop : c.stopping with
  | true => exact h.ended hstop
  | false =>
    rw [Execution.isTerminal, h.verdict hclosing hstop]
    split <;> rfl

theorem concluded (h : c.Sound) (hclosing : c.closing = true) : c.Concluded c.definition c.plan := by
  refine
    { terminal := ?terminal
      landed := h.not_running_of_closing hclosing
      skipped := h.skipped
      dealt := h.not_waiting_of_closing hclosing
      behind := h.skipped_iff_of_closing hclosing
      success := fun hgo => ?success
      failure := fun hgo => ?failure }
  case terminal =>
    have hterm := h.isTerminal_of_closing hclosing
    cases hs : c.execution.status with
    | success => exact .inl rfl
    | error => exact .inr (.inl rfl)
    | canceled => exact .inr (.inr rfl)
    | new | running => rw [Execution.isTerminal, hs] at hterm; cases hterm
  case success =>
    rw [h.all_success_iff hclosing hgo, h.verdict hclosing hgo]
    cases c.firstFailure.isSome <;> simp
  case failure =>
    rw [h.all_success_iff hclosing hgo, h.verdict hclosing hgo]
    cases c.firstFailure.isSome <;> simp

end Sound
end Coordinator

/-! ## Throughout a life -/

namespace Engine

variable {r : StartRequest} {p : Plan} {id : String} {e₀ e e' : Engine} {past : List Moment} {run : ActiveRun}
  {x : Happening}

def Moment.isOwn (m : Moment) : Bool := m.happening.isOwn

/-- The run is told that its time is up, or acts on the request to cancel. -/
def Moment.stops (id : String) (m : Moment) : Bool :=
  match m.happening with
  | .timeUp => true
  | .step _ => (m.engine.run? id).any fun run =>
      run.canceled && run.coordinator.errands.isEmpty && !run.coordinator.closing && !run.coordinator.stopping
  | _ => false

/-- What a run of `n` nodes can do at most. -/
def mostEffort (n : Nat) : Nat := n * (3 * n + 7) + 9

theorem effort_ofPlan {types : Registry} {config : Config} {record : Execution} (h : Accepted r p id record) :
    (Coordinator.ofPlan r.definition p types config record).effort = mostEffort p.order.length := by
  have hnodes : Coordinator.nodeCost p record = p.order.length * (3 * p.order.length + 7) := by
    have hcost : p.order.map (fun x => NodeStatus.cost p.order.length (record.nodeStatus? x)) =
        p.order.map fun _ => 3 * p.order.length + 7 := List.map_congr_left fun x hx => by
      rw [h.nodeStatus? x, if_pos hx]
      rfl
    rw [Coordinator.nodeCost, hcost, List.map_const', List.sum_replicate_nat]
  exact congrArg (0 + · + 3 + 6) hnodes |>.trans (by rw [mostEffort]; omega)

/-- What a run has done and has left to do is what it had to do from the beginning. -/
theorem Lives.spent (h₀ : Enters r p id e₀) (h : Lives id e₀ past e) (hr : e.run? id = some run) :
    past.countP Moment.isOwn + run.coordinator.effort ≤ mostEffort p.order.length := by
  refine h.induction
    (motive := fun past run => past.countP Moment.isOwn + run.coordinator.effort ≤ mostEffort p.order.length)
    h₀ hr (fun types config record hrecord => ?_) fun past e x run run' _ _ hspent hs ha _ _ => ?_
  · rw [List.countP_nil, Nat.zero_add]
    exact Nat.le_of_eq (effort_ofPlan hrecord)
  · rw [List.countP_append, List.countP_singleton]
    cases hown : x.isOwn with
    | true =>
      have hless := Coordinator.effort_advance hs ha hown
      have hown : Moment.isOwn ⟨e, x⟩ = true := hown
      rw [if_pos hown]
      omega
    | false =>
      rw [if_neg (by rw [Moment.isOwn, hown]; nofun), Coordinator.eq_of_not_own ha hown]
      exact hspent

/-- A happening stops the run exactly when the run is stopping after it and was not before. -/
theorem stops_iff (hr : e.run? id = some run) {c' : Coordinator} (ha : run.coordinator.Advance run.canceled x c') :
    Moment.stops id ⟨e, x⟩ = (!run.coordinator.stopping && c'.stopping) := by
  cases ha with
  | errand now he hskip => simp [Moment.stops, hr, he]
  | passed he hs => simp [Moment.stops, hr, he]
  | skipped now he _ hw => simp [Moment.stops, hr, he]
  | stopped now idle going asked => simp [Moment.stops, hr, idle.errands, idle.closing, going, asked]
  | started now idle going unasked => simp [Moment.stops, hr, unasked]
  | ended now idle landed hend =>
    have hsame : (run.coordinator.finish now).stopping = run.coordinator.stopping := rfl
    simp only [Moment.stops, hr, hsame, Bool.not_and_self, Option.any_some]
    rcases hend with hstop | ⟨hasked, -⟩
    · rw [hstop, Bool.not_true, Bool.and_false]
    · rw [hasked, Bool.false_and, Bool.false_and, Bool.false_and]
  | timedOut now idle flying going unasked limit => simp [Moment.stops, going]
  | succeeded | failed | canceled | elsewhere => simp [Moment.stops]

/-- A run is told to stop at most once. -/
theorem Lives.countP_stops (h₀ : Enters r p id e₀) (h : Lives id e₀ past e) (hr : e.run? id = some run) :
    past.countP (Moment.stops id) = if run.coordinator.stopping then 1 else 0 := by
  refine h.induction
    (motive := fun past run => past.countP (Moment.stops id) = if run.coordinator.stopping then 1 else 0)
    h₀ hr (fun _ _ _ _ => rfl) fun past e x run run' _ hrun hcount _ ha _ _ => ?_
  have hstays := ha.stopping_of_stopping
  rw [List.countP_append, List.countP_singleton, hcount, stops_iff hrun ha]
  cases hb : run.coordinator.stopping with
  | true => simp [hstays hb]
  | false => cases hc : run'.coordinator.stopping <;> rfl

theorem Lives.leavesLast (h₀ : Enters r p id e₀) (h : Lives id e₀ past e) (hr : e.run? id = some run) :
    run.coordinator.LeavesLast :=
  h.induction (motive := fun _ run => run.coordinator.LeavesLast) h₀ hr
    (fun _ _ _ _ => ⟨nofun, fun _ => List.not_mem_nil⟩)
    fun _ _ _ _ _ _ _ hleaves _ ha _ hstays => hleaves.advance ha hstays

/-- Only its last errand makes a run leave. -/
theorem Moves.gone (m : e.Moves id x e') (hr : e.run? id = some run) (hgone : e'.run? id = none) :
    x = .step (some .leave) ∧ ∃ rest, run.coordinator.errands = .leave :: rest := by
  cases m with
  | @step _ effect h =>
    obtain ⟨_, c, hrun, hstep, rfl⟩ := stepRun?_eq_some h
    cases hrun.symm.trans hr
    have hafter : (e.withCoordinator id c).run? id = some { run with coordinator := c } := by
      rw [run?_withCoordinator, hrun, Option.map_some]
    cases effect with
    | none => exact absurd (hafter.symm.trans hgone) (Option.some_ne_none _)
    | some f =>
      replace hgone : ((e.withCoordinator id c).apply id f).run? id = none := hgone
      rw [run?_apply, hafter] at hgone
      cases f with
      | leave => exact ⟨rfl, (Coordinator.turn_of_step? hstep).leave_eq⟩
      | save | saveNode | emit | launch | cancel | request | signalDone => cases hgone
  | cancel =>
    rw [cancelActive, run?_modifyRun, hr] at hgone
    cases hgone
  | timeUp hrun =>
    rw [run?_signal, hr] at hgone
    cases hgone
  | finished hrun =>
    rw [run?_signal, hr] at hgone
    cases hgone
  | elsewhere hsame hk => exact absurd (hr.symm.trans (hsame.symm.trans hgone)) (Option.some_ne_none _)

theorem Moves.not_own_of_gone (m : e.Moves id x e') (hgone : e.run? id = none) : x.isOwn = false := by
  cases m with
  | step h =>
    obtain ⟨_, _, hrun, -⟩ := stepRun?_eq_some h
    exact absurd (hrun.symm.trans hgone) (Option.some_ne_none _)
  | timeUp hrun => exact absurd (hrun.symm.trans hgone) (Option.some_ne_none _)
  | finished hrun => exact absurd (hrun.symm.trans hgone) (Option.some_ne_none _)
  | cancel | elsewhere => rfl

/-- A run leaves when it is closing and nothing else is left to do. -/
theorem Lives.last (h₀ : Enters r p id e₀) (h : Lives id e₀ past e) (m : e.Moves id x e') (hr : e.run? id = some run)
    (hgone : e'.run? id = none) :
    x = .step (some .leave) ∧ run.coordinator.errands = [.leave] ∧ run.coordinator.closing = true := by
  obtain ⟨hx, rest, herrands⟩ := m.gone hr hgone
  have hleaves := h.leavesLast h₀ hr
  have hclosing : run.coordinator.closing = true := by
    by_contra hc
    exact hleaves.never (Bool.eq_false_iff.mpr hc) (herrands ▸ List.mem_cons_self)
  obtain ⟨before, hb, hnot⟩ := hleaves.last hclosing
  refine ⟨hx, ?_, hclosing⟩
  cases before with
  | nil => exact hb
  | cons b before =>
    have hhead := (List.cons.inj (herrands.symm.trans hb)).1
    rw [← hhead] at hnot
    exact absurd List.mem_cons_self hnot

/-- A run that is gone has left at its end, and has done nothing since. -/
theorem Lives.left (h₀ : Enters r p id e₀) (h : Lives id e₀ past e) (hgone : e.run? id = none) :
    ∃ before e₁ run after, Lives id e₀ before e₁ ∧ e₁.run? id = some run ∧ run.coordinator.errands = [.leave] ∧
      run.coordinator.closing = true ∧ past = before ++ ⟨e₁, .step (some .leave)⟩ :: after ∧
      ∀ m ∈ after, m.isOwn = false := by
  induction h with
  | start =>
    obtain ⟨-, types, config, record, -, hrun, -⟩ := h₀.spec
    exact absurd (hrun.symm.trans hgone) (Option.some_ne_none _)
  | @next past e e' x hlife m ih =>
    cases hr : e.run? id with
    | some run =>
      obtain ⟨rfl, herrands, hclosing⟩ := hlife.last h₀ m hr hgone
      exact ⟨past, e, run, [], hlife, hr, herrands, hclosing, rfl, fun _ hm => absurd hm List.not_mem_nil⟩
    | none =>
      obtain ⟨before, e₁, run, after, h₁, h₂, h₃, h₄, rfl, hafter⟩ := ih hr
      refine ⟨before, e₁, run, after ++ [⟨e, x⟩], h₁, h₂, h₃, h₄, by simp, fun m' hm' => ?_⟩
      rcases List.mem_append.mp hm' with hm' | hm'
      · exact hafter m' hm'
      · rw [List.mem_singleton.mp hm']
        exact m.not_own_of_gone hr

/-! ## Bounds -/

theorem length_finishes_le (h₀ : Enters r p id e₀) (h : Lives id e₀ past e) (hr : e.run? id = some run) :
    (finishes past).length ≤ p.order.length := by
  have htally := h.tally h₀ hr
  have hruns := h.runs h₀ hr
  refine htally.finishedOnce.length_le_of_subset fun x hx => ?_
  rw [← hruns.plan, ← hruns.sound.known]
  rcases (htally.finished x).mp hx with hs | hs <;> rw [hs] <;> rfl

theorem stops_of_not_own {m : Moment} (h : m.isOwn = false) : m.stops id = false := by
  obtain ⟨e, x⟩ := m
  cases x with
  | cancel | elsewhere => rfl
  | step | timeUp | finished => cases h

theorem launched?_of_not_own {m : Moment} (h : m.isOwn = false) : m.launched? = none := by
  obtain ⟨e, x⟩ := m
  cases x with
  | cancel | elsewhere => rfl
  | step | timeUp | finished => cases h

theorem finished?_of_not_own {m : Moment} (h : m.isOwn = false) : m.finished? = none := by
  obtain ⟨e, x⟩ := m
  cases x with
  | cancel | elsewhere => rfl
  | step | timeUp | finished => cases h

/-- Whatever happens, a run is told to stop at most once, is told of no more ends than it has
nodes, and does no more than its plan allows for. -/
theorem Lives.bounded (h₀ : Enters r p id e₀) (h : Lives id e₀ past e) :
    past.countP (Moment.stops id) ≤ 1 ∧ (finishes past).length ≤ p.order.length ∧
      past.countP Moment.isOwn ≤ mostEffort p.order.length := by
  cases hr : e.run? id with
  | some run =>
    refine ⟨?_, length_finishes_le h₀ h hr, Nat.le_of_add_right_le (h.spent h₀ hr)⟩
    rw [h.countP_stops h₀ hr]
    split <;> decide
  | none =>
    obtain ⟨before, e₁, run, after, hbefore, hrun, herrands, -, rfl, hafter⟩ := h.left h₀ hr
    have hspent := hbefore.spent h₀ hrun
    have heffort : 0 < run.coordinator.effort := by
      simp only [Coordinator.effort, herrands, Coordinator.errandCost_cons, Errand.cost]
      omega
    have hstops : after.countP (Moment.stops id) = 0 :=
      List.countP_eq_zero.mpr fun m hm => by rw [stops_of_not_own (hafter m hm)]; decide
    have hown : after.countP Moment.isOwn = 0 := List.countP_eq_zero.mpr fun m hm => by rw [hafter m hm]; decide
    have hfinishes : after.filterMap Moment.finished? = [] :=
      List.filterMap_eq_nil_iff.mpr fun m hm => finished?_of_not_own (hafter m hm)
    refine ⟨?_, ?_, ?_⟩
    · rw [List.countP_append, List.countP_cons, hstops, hbefore.countP_stops h₀ hrun]
      have hleave : Moment.stops id ⟨e₁, .step (some .leave)⟩ = false := by
        simp [Moment.stops, hrun, herrands]
      rw [hleave]
      split <;> decide
    · have hsame : finishes (before ++ ⟨e₁, .step (some .leave)⟩ :: after) = finishes before := by
        rw [finishes, List.filterMap_append, List.filterMap_cons, hfinishes]
        exact List.append_nil _
      rw [hsame]
      exact length_finishes_le h₀ hbefore hrun
    · have hleave : Moment.isOwn ⟨e₁, .step (some .leave)⟩ = true := rfl
      rw [List.countP_append, List.countP_cons, hown, if_pos hleave]
      omega

/-! ## Coming to an end -/

/-- The run takes a step, or is told that a node in flight has ended as `answer` says. -/
def Moment.Plain (answer : Engine → String → Outcome) (m : Moment) : Prop :=
  (∃ effect, m.happening = .step effect) ∨ ∃ node, m.happening = .finished node (answer m.engine node)

theorem Moment.Plain.isOwn {answer : Engine → String → Outcome} {m : Moment} (h : m.Plain answer) :
    m.isOwn = true := by
  rcases h with ⟨effect, h⟩ | ⟨node, h⟩ <;> rw [Moment.isOwn, h] <;> rfl

/-- A run that is alive can take a step, or waits to be told of a node in flight. -/
theorem Lives.goesOn (h₀ : Enters r p id e₀) (h : Lives id e₀ past e) (hr : e.run? id = some run) :
    (e.stepRun? id).isSome ∨ run.coordinator.isWaiting run.canceled = true ∧ run.coordinator.inFlight ≠ [] := by
  have hbusy : run.coordinator.closing = true → run.coordinator.errands ≠ [] := by
    intro hclosing
    obtain ⟨before, hb, -⟩ := (h.leavesLast h₀ hr).last hclosing
    rw [hb]
    simp
  rcases run.coordinator.goesOn run.canceled e.clock hbusy with hstep | hw
  · left
    obtain ⟨⟨c, effect⟩, hstep⟩ := Option.isSome_iff_exists.mp hstep
    simp only [stepRun?, hr, bind, Option.bind_some, hstep]
    cases effect <;> rfl
  · exact .inr ⟨hw, (Coordinator.isWaiting_iff.mp hw).2.1⟩

/-- A run that is alive can take a step, or be told that a node in flight has ended. -/
theorem Lives.next_plain (h₀ : Enters r p id e₀) (h : Lives id e₀ past e) (hr : e.run? id = some run)
    (answer : Engine → String → Outcome) : ∃ x e', e.Moves id x e' ∧ Moment.Plain answer ⟨e, x⟩ := by
  rcases h.goesOn h₀ hr with hstep | ⟨hw, hflight⟩
  · obtain ⟨⟨e', effect⟩, hstep⟩ := Option.isSome_iff_exists.mp hstep
    exact ⟨_, e', .step hstep, .inl ⟨effect, rfl⟩⟩
  · obtain ⟨node, hnode⟩ := List.exists_mem_of_ne_nil _ hflight
    exact ⟨.finished node (answer e node), _, .finished hr hw hnode, .inr ⟨node, rfl⟩⟩

/-- However its nodes in flight end, a run comes to its end with nothing else going on. -/
theorem Lives.canEnd (h₀ : Enters r p id e₀) (answer : Engine → String → Outcome) (h : Lives id e₀ past e) :
    ∃ more e', Lives id e₀ (past ++ more) e' ∧ e'.run? id = none ∧ ∀ m ∈ more, m.Plain answer := by
  suffices hfuel : ∀ n past e, Lives id e₀ past e → (∀ run, e.run? id = some run → run.coordinator.effort < n) →
      ∃ more e', Lives id e₀ (past ++ more) e' ∧ e'.run? id = none ∧ ∀ m ∈ more, m.Plain answer by
    exact hfuel (mostEffort p.order.length + 1) past e h fun run hr =>
      Nat.lt_succ_of_le ((Nat.le_add_left _ _).trans (h.spent h₀ hr))
  -- on the effort left, which every happening of the run's own lowers
  intro n
  induction n with
  | zero =>
    intro past e h hn
    cases hr : e.run? id with
    | none => exact ⟨[], e, by rwa [List.append_nil], hr, fun _ hm => absurd hm List.not_mem_nil⟩
    | some run => exact absurd (hn run hr) (Nat.not_lt_zero _)
  | succ n ih =>
    intro past e h hn
    cases hr : e.run? id with
    | none => exact ⟨[], e, by rwa [List.append_nil], hr, fun _ hm => absurd hm List.not_mem_nil⟩
    | some run =>
      obtain ⟨x, e', m, hplain⟩ := h.next_plain h₀ hr answer
      have hless : ∀ run', e'.run? id = some run' → run'.coordinator.effort < n := by
        intro run' hr'
        obtain ⟨_, hbefore, hturn, -⟩ := m.turn hr'
        cases hbefore.symm.trans hr
        have hsound := (h.runs h₀ hr).sound
        have := Coordinator.effort_advance hsound (hsound.advance hturn) hplain.isOwn
        have := hn run hr
        omega
      obtain ⟨more, e'', hlife, hgone, hmore⟩ := ih _ e' (h.next m) hless
      refine ⟨⟨e, x⟩ :: more, e'', by rwa [List.append_assoc] at hlife, hgone, fun m' hm' => ?_⟩
      rcases List.mem_cons.mp hm' with rfl | hm'
      · exact hplain
      · exact hmore m' hm'

/-! ## Nothing is left behind -/

/-- What a life of the run `id` comes to. -/
structure RunEnds (r : StartRequest) (p : Plan) (id : String) (e₀ : Engine) (past : List Moment)
    (e : Engine) : Prop where
  /-- The run is told to stop at most once. -/
  stops : past.countP (Moment.stops id) ≤ 1
  /-- It is told of at most as many ends as there are nodes. -/
  finishes : (finishes past).length ≤ p.order.length
  /-- It does no more than its plan allows for. -/
  steps : past.countP Moment.isOwn ≤ mostEffort p.order.length
  /-- While it is alive it goes on, or waits for a node in flight. -/
  goesOn : ∀ run, e.run? id = some run →
    (e.stepRun? id).isSome ∨ run.coordinator.isWaiting run.canceled = true ∧ run.coordinator.inFlight ≠ []
  /-- However the nodes in flight end, it can come to its end. -/
  canEnd : ∀ answer : Engine → String → Outcome, ∃ more e', Lives id e₀ (past ++ more) e' ∧ e'.run? id = none ∧
    ∀ m ∈ more, m.Plain answer
  /-- From the step that ends it on, its record is concluded. -/
  concluded : ∀ run, e.run? id = some run → run.coordinator.closing = true → run.coordinator.Concluded r.definition p
  /-- It is only gone once it was concluded. -/
  left : e.run? id = none → ∃ m ∈ past, ∃ run, m.engine.run? id = some run ∧ m.happening = .step (some .leave) ∧
    run.coordinator.closing = true ∧ run.coordinator.Concluded r.definition p

/-- Every run ends, whatever its nodes come to and whenever it is told to stop, and leaves no
node behind. -/
theorem runEnds (h₀ : Enters r p id e₀) (h : Lives id e₀ past e) : RunEnds r p id e₀ past e := by
  have hconcluded : ∀ {past e run}, Lives id e₀ past e → e.run? id = some run → run.coordinator.closing = true →
      run.coordinator.Concluded r.definition p := by
    intro past e run h hr hclosing
    have hruns := h.runs h₀ hr
    rw [← hruns.definition, ← hruns.plan]
    exact hruns.sound.concluded hclosing
  obtain ⟨hstops, hfinishes, hsteps⟩ := h.bounded h₀
  refine
    { stops := hstops
      finishes := hfinishes
      steps := hsteps
      goesOn := fun run hr => h.goesOn h₀ hr
      canEnd := fun answer => h.canEnd h₀ answer
      concluded := fun run hr hclosing => hconcluded h hr hclosing
      left := fun hgone => ?_ }
  obtain ⟨before, e₁, run, after, hbefore, hrun, -, hclosing, rfl, -⟩ := h.left h₀ hgone
  exact ⟨⟨e₁, .step (some .leave)⟩, List.mem_append_right _ List.mem_cons_self, run, hrun, rfl, hclosing,
    hconcluded hbefore hrun hclosing⟩

/-- The first node of `Fork` fails, and the run is over. -/
theorem runEnds_fork : ∃ past e, Lives "run" (Fork.entered {}) past e ∧ e.run? "run" = none ∧
    RunEnds Fork.request Fork.plan "run" (Fork.entered {}) past e := by
  have hfailed : (Fork.opened {}).Moves "run" (.finished "a" (.error (.invalidInput "no"))) _ :=
    .finished rfl rfl (by decide)
  have hlife := ((Fork.lives_opened {}).next hfailed).takeSteps 20
  exact ⟨_, _, hlife, rfl, runEnds (Fork.enters {}) hlife⟩

end Engine
end Workflows
