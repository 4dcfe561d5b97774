/-
  Workflows.Proofs.Run.Durable — what a run shows is in the store before it is shown.

  Whatever others see of a run, its events, the launch of a node, the request for an error
  workflow, that it is done and that it is gone, comes after the change of the record it tells of
  has been written. The copy in the store lags behind the record by one change at most, and the
  first errands are those that write it: the result of one node when nothing else has changed, or
  else the whole record (`Settles`). Carrying out an errand and deciding anew both keep it so
  (`Mirrored.advance`), for records and for rows, so at every point of a life that others can see
  the store holds the record of the run (`durableBeforeVisible`).
-/

import Workflows.Proofs.Run.Ending
import Workflows.Proofs.Run.Recorded
import Workflows.Proofs.Run.Results
import Workflows.Proofs.Store.Rows

namespace Workflows

/-- Others see that the errand is carried out. -/
def Errand.isVisible : Errand → Bool
  | .save | .saveNode _ | .skip _ | .cancel => false
  | .emit _ | .launch _ | .request _ | .signalDone | .leave => true

def Effect.isVisible : Effect → Bool
  | .save _ | .saveNode _ _ | .cancel => false
  | .emit _ | .launch _ | .request _ | .signalDone | .leave => true

/-- It changes what is kept of the run. -/
def Happening.writes : Happening → Bool
  | .step (some (.save _)) | .step (some (.saveNode _ _)) => true
  | _ => false

theorem Happening.writes_of_not_own {x : Happening} (h : x.isOwn = false) : x.writes = false := by
  cases x with
  | cancel | elsewhere => rfl
  | step | timeUp | finished => cases h

theorem Kept.after_of_not_writes (k : Kept) {x : Happening} (h : x.writes = false) : k.after x = k := by
  cases x with
  | step effect =>
    cases effect with
    | none => rfl
    | some f =>
      cases f with
      | save | saveNode => cases h
      | emit | launch | cancel | request | signalDone | leave => rfl
  | cancel | timeUp | finished | elsewhere => rfl

/-- What the event says is so in the record of its run, which is closing or not. -/
def Event.IsTrueOf (e : Execution) (closing : Bool) : Event → Prop
  | .runStarted _ _ => False
  | .nodeStarted id node => id = e.id ∧ closing = false ∧ e.nodeStatus? node = some .running
  | .nodeFinished id node status error => id = e.id ∧ closing = false ∧
      ∃ r, e.node? node = some r ∧ r.status.isTerminal = true ∧ r.status.text = status ∧ r.error.map (·.message) = error
  | .runFinished id status error => closing = true ∧ Event.runFinished id status error = .ofEnded e

/-- Carrying out the errands makes the stored copy equal to the record, before anything is shown
and before another node is skipped. -/
inductive Settles (record : Execution) (closing : Bool) : Execution → List Errand → Prop
  | done : Settles record closing record []
  | visible {e : Errand} {rest : List Errand} (hv : e.isVisible = true)
      (htrue : ∀ event, e = .emit event → event.IsTrueOf record closing) (h : Settles record closing record rest) :
      Settles record closing record (e :: rest)
  | skip {id : String} {rest : List Errand} (hrest : ∀ e ∈ rest, ∃ x, e = .skip x) :
      Settles record closing record (.skip id :: rest)
  | cancel {stored : Execution} {rest : List Errand} (h : Settles record closing stored rest) :
      Settles record closing stored (.cancel :: rest)
  | saveNode {stored : Execution} {id : String} {r : NodeResult} {rest : List Errand}
      (hr : record.node? id = some r) (hset : record = stored.setNode id r)
      (h : Settles record closing record rest) : Settles record closing stored (.saveNode id :: rest)
  | save {stored : Execution} {rest : List Errand} (hkeeps : stored.Keeps record)
      (h : Settles record closing record rest) : Settles record closing stored (.save :: rest)

theorem Settles.of_skips {record : Execution} {closing : Bool} {errands : List Errand}
    (h : ∀ e ∈ errands, ∃ x, e = .skip x) : Settles record closing record errands := by
  cases errands with
  | nil => exact .done
  | cons e rest =>
    obtain ⟨x, rfl⟩ := h e List.mem_cons_self
    exact .skip fun e he => h e (List.mem_cons_of_mem _ he)

namespace Execution

variable {e e' : Execution} {id : String} {r : NodeResult}

theorem Keeps.of_results (horigin : e'.origin = e.origin) (hstarted : e'.startedAt = e.startedAt)
    (hsame : ∀ x, e'.nodeStatus? x = e.nodeStatus? x) : e.Keeps e' := by
  refine ⟨horigin, hstarted, fun x hx => ?_⟩
  have := congrArg Option.isSome (hsame x)
  rw [nodeStatus?, nodeStatus?, Option.isSome_map, Option.isSome_map] at this
  rw [this]
  exact hx

theorem Keeps.of_setNode (horigin : e'.origin = e.origin) (hstarted : e'.startedAt = e.startedAt)
    (hset : e'.nodeResults = (e.setNode id r).nodeResults) : e.Keeps e' := by
  refine ⟨horigin, hstarted, fun x hx => ?_⟩
  have hnode : e'.node? x = (e.setNode id r).node? x := by rw [node?, hset]; rfl
  rw [hnode, node?_setNode]
  split
  · rfl
  · exact hx

end Execution

namespace Coordinator

variable {c : Coordinator}

/-- No node is blamed before it has ended. -/
def Clean (c : Coordinator) : Prop := c.closing = false → ∀ id r, c.execution.node? id = some r →
  r.status = .waiting ∨ r.status = .running → r.error = none

theorem clean_of_accounted {d : Definition} {trigger : Json} {past : List Engine.Moment} {results : Keyed NodeResult}
    (hshows : c.Shows results) (h : Accounted d trigger past results c.bag) : c.Clean := by
  intro hclosing id r hr hst
  obtain ⟨rfl, -⟩ := hshows.eq_of_open hclosing
  rcases hst with hst | hst
  · rw [h.waiting id r hr hst]
    rfl
  · obtain ⟨t, rfl⟩ := h.running id r hr hst
    rfl

theorem startedAt_finalRecord (c : Coordinator) (now : Instant) :
    (c.finalRecord now).startedAt = c.execution.startedAt := by
  have hsettled : (c.settled now).startedAt = c.execution.startedAt := by
    unfold settled
    split
    · rfl
    · split <;>
      · unfold Execution.transition
        split <;> rfl
  unfold finalRecord
  dsimp only
  split <;> exact hsettled

end Coordinator

/-! ## What is kept of a run, beside its record -/

/-- What is kept is all of an earlier record, which the errands make equal to the record. -/
def Mirrored (k : Kept) (c : Coordinator) : Prop :=
  ∃ stored : Execution, k.Of stored ∧ stored.Tidy ∧ Settles c.execution c.closing stored c.errands

namespace Mirrored

variable {k : Kept} {c c' : Coordinator} {canceled : Bool} {x : Happening}

theorem of_idle (h : Mirrored k c) (he : c.errands = []) : k.Of c.execution ∧ c.execution.Tidy := by
  obtain ⟨stored, hof, htidy, hsettles⟩ := h
  rw [he] at hsettles
  cases hsettles
  exact ⟨hof, htidy⟩

theorem of_visible (h : Mirrored k c) {e : Errand} {rest : List Errand} (he : c.errands = e :: rest)
    (hv : e.isVisible = true) :
    k.Of c.execution ∧ c.execution.Tidy ∧ ∀ event, e = .emit event → event.IsTrueOf c.execution c.closing := by
  obtain ⟨stored, hof, htidy, hsettles⟩ := h
  rw [he] at hsettles
  cases hsettles with
  | visible _ htrue => exact ⟨hof, htidy, htrue⟩
  | skip | cancel | saveNode | save => cases hv

theorem of_over (h : Mirrored k c) (hover : ∀ e ∈ c.errands, e.isVisible = true) : k.Of c.execution := by
  cases he : c.errands with
  | nil => exact (h.of_idle he).1
  | cons e rest => exact (h.of_visible he (hover e (he ▸ List.mem_cons_self))).1

/-- After a write what is kept is all of the record. -/
theorem of_write {e : Errand} {rest : List Errand} {now : Instant} (h : Mirrored k c) (htidy : c.execution.Tidy)
    (he : c.errands = e :: rest) (hw : (Happening.step ({ c with errands := rest }.perform now e).2).writes = true) :
    (k.after (.step ({ c with errands := rest }.perform now e).2)).Of c.execution ∧
      Settles c.execution c.closing c.execution rest := by
  obtain ⟨stored, hof, hstored, hsettles⟩ := h
  rw [he] at hsettles
  cases hsettles with
  | visible hv =>
    cases e with
    | emit | launch | request | signalDone | leave => cases hw
    | save | saveNode | skip | cancel => cases hv
  | skip | cancel => cases hw
  | @saveNode _ id r _ hr hset hrest =>
    have hafter : k.after (.step ({ c with errands := rest }.perform now (.saveNode id)).2) = k.putNode r := by
      simp only [Coordinator.perform, hr]
      rfl
    have hid : r.nodeId = id := htidy.named id r hr
    have hwritten : stored.setNode r.nodeId r = c.execution := by rw [hid, hset]
    rw [hafter]
    exact ⟨hwritten ▸ hof.putNode hstored, hrest⟩
  | save hkeeps hrest => exact ⟨hof.update hstored htidy hkeeps, hrest⟩

theorem errand {e : Errand} {rest : List Errand} (h : Mirrored k c) (now : Instant) (htidy : c.execution.Tidy)
    (he : c.errands = e :: rest) (hskip : ∀ id, e ≠ .skip id) :
    Mirrored (k.after (.step ({ c with errands := rest }.perform now e).2)) { c with errands := rest } := by
  by_cases hw : (Happening.step ({ c with errands := rest }.perform now e).2).writes = true
  · obtain ⟨hof, hrest⟩ := h.of_write htidy he hw
    exact ⟨c.execution, hof, htidy, hrest⟩
  · rw [k.after_of_not_writes (Bool.eq_false_iff.mpr hw)]
    obtain ⟨stored, hof, hstored, hsettles⟩ := h
    rw [he] at hsettles
    cases hsettles with
    | visible hv htrue hrest => exact ⟨c.execution, hof, hstored, hrest⟩
    | skip => exact absurd rfl (hskip _)
    | cancel hrest => exact ⟨stored, hof, hstored, hrest⟩
    | saveNode hr =>
      refine absurd ?_ hw
      simp only [Coordinator.perform, hr]
      rfl
    | save => exact absurd rfl hw

theorem advance (h : Mirrored k c) (hs : c.Sound) (htidy : c.execution.Tidy) (hclean : c.Clean)
    (ha : c.Advance canceled x c') : Mirrored (k.after x) c' := by
  cases ha with
  | errand now he hskip => exact h.errand now htidy he hskip
  | passed he hskipped =>
    obtain ⟨stored, hof, hstored, hsettles⟩ := h
    rw [he] at hsettles
    cases hsettles with
    | visible hv => cases hv
    | skip hrest => exact ⟨c.execution, hof, hstored, .of_skips hrest⟩
  | @skipped id rest r now he hr hw =>
    obtain ⟨stored, hof, hstored, hsettles⟩ := h
    rw [he] at hsettles
    cases hsettles with
    | visible hv => cases hv
    | skip hrest =>
      have hclosing : c.closing = false := (hs.toSkip id (he ▸ List.mem_cons_self)).2.2
      have hnow : (c.execution.setNode id { r with status := .skipped, stoppedAt := some now }).node? id =
          some { r with status := .skipped, stoppedAt := some now } := Execution.node?_setNode.trans (if_pos rfl)
      refine ⟨c.execution, hof, hstored, .saveNode hnow rfl (.visible rfl (fun event heq => ?_) (.of_skips hrest))⟩
      cases heq
      exact ⟨rfl, hclosing, _, hnow, rfl, rfl, by rw [hclean hclosing id r hr (.inl hw)]; rfl⟩
  | stopped now idle going asked =>
    obtain ⟨hof, -⟩ := h.of_idle idle.errands
    exact ⟨c.execution, hof, htidy, .save (.of_results rfl rfl fun _ => rfl) .done⟩
  | @started id rest node r now idle going unasked slot first hn hr hw fed =>
    obtain ⟨hof, -⟩ := h.of_idle idle.errands
    refine ⟨c.execution, hof, htidy, .saveNode (Execution.node?_setNode.trans (if_pos rfl)) rfl
      (.visible rfl (fun event heq => ?_) (.visible rfl (fun event heq => ?_) .done))⟩
    · cases heq
      exact ⟨rfl, idle.closing, Execution.nodeStatus?_setNode.trans (if_pos rfl)⟩
    · cases heq
  | ended now idle landed hend =>
    obtain ⟨hof, -⟩ := h.of_idle idle.errands
    have hkeeps : c.execution.Keeps (c.finish now).execution :=
      .of_results (Coordinator.sameRun_finish c now).origin (Coordinator.startedAt_finalRecord c now)
        fun _ => Coordinator.nodeStatus?_finalRecord
    have hlast : Settles (c.finish now).execution true (c.finish now).execution [.signalDone, .leave] :=
      .visible rfl nofun (.visible rfl nofun .done)
    refine ⟨c.execution, hof, htidy, .save hkeeps (.visible rfl (fun event heq => ?_) ?_)⟩
    · cases heq
      exact ⟨rfl, rfl⟩
    · cases hrequest : Coordinator.errorRequest? { c with execution := c.finalRecord now, closing := true } with
      | none => exact hlast
      | some request => exact .visible rfl nofun hlast
  | timedOut now idle flying going unasked limit =>
    obtain ⟨hof, -⟩ := h.of_idle idle.errands
    exact ⟨c.execution, hof, htidy, .cancel (.save (.of_results rfl rfl fun _ => rfl) .done)⟩
  | @succeeded id ports r pending ready now idle hr hrun =>
    obtain ⟨hof, -⟩ := h.of_idle idle.errands
    refine ⟨c.execution, hof, htidy, .save (.of_setNode rfl rfl rfl) (.visible rfl (fun event heq => ?_) .done)⟩
    cases heq
    exact ⟨rfl, idle.closing, _, Execution.node?_setNode.trans (if_pos rfl), rfl, rfl,
      by rw [hclean idle.closing id r hr (.inr hrun)]; rfl⟩
  | @failed id err r now idle hr hrun =>
    obtain ⟨hof, -⟩ := h.of_idle idle.errands
    have hnow : (c.execution.setNode id { r with status := .error, error := some err, stoppedAt := some now }).node?
        id = some { r with status := .error, error := some err, stoppedAt := some now } :=
      Execution.node?_setNode.trans (if_pos rfl)
    refine ⟨c.execution, hof, htidy, .saveNode hnow rfl (.visible rfl (fun event heq => ?_) (.of_skips fun e he => ?_))⟩
    · cases heq
      exact ⟨rfl, idle.closing, _, hnow, rfl, rfl, rfl⟩
    · obtain ⟨y, -, rfl⟩ := List.mem_map.mp he
      exact ⟨y, rfl⟩
  | canceled | elsewhere => exact h

end Mirrored

/-! ## The end -/

namespace Coordinator

variable {c c' : Coordinator} {canceled : Bool} {x : Happening} {y : String} {result : NodeResult}

/-- All that a run that is closing still does is carry out its errands. -/
theorem Advance.of_closed (ha : c.Advance canceled x c') (hs : c.Sound) (h : c.closing = true) :
    (∃ e rest now, c.errands = e :: rest ∧ x = .step ({ c with errands := rest }.perform now e).2 ∧
      c' = { c with errands := rest }) ∨ (x = .cancel ∨ x = .elsewhere) ∧ c' = c := by
  have hopen : c.closing ≠ false := by rw [h]; nofun
  cases ha with
  | errand now he hskip => exact .inl ⟨_, _, now, he, rfl, rfl⟩
  | passed he hskipped => exact absurd (he ▸ List.mem_cons_self) (hs.not_skip_mem h _)
  | skipped now he hr hw => exact absurd (he ▸ List.mem_cons_self) (hs.not_skip_mem h _)
  | stopped now idle => exact absurd idle.closing hopen
  | started now idle => exact absurd idle.closing hopen
  | ended now idle => exact absurd idle.closing hopen
  | timedOut now idle => exact absurd idle.closing hopen
  | succeeded now idle => exact absurd idle.closing hopen
  | failed now idle => exact absurd idle.closing hopen
  | canceled => exact .inr ⟨.inl rfl, rfl⟩
  | elsewhere => exact .inr ⟨.inr rfl, rfl⟩

/-- A run that is closing has nothing but its first errand that others do not see. -/
def SavesFirst (c : Coordinator) : Prop := c.closing = true → ∀ e ∈ c.errands.tail, e.isVisible = true

theorem savesFirst_finish (c : Coordinator) (now : Instant) : (c.finish now).SavesFirst := by
  intro _ e hmem
  rcases List.mem_append.mp hmem with hmem | hmem
  · rcases List.mem_cons.mp hmem with rfl | hmem
    · rfl
    · obtain ⟨request, -, rfl⟩ := List.mem_map.mp (Option.toList_map .. ▸ hmem)
      rfl
  · rcases List.mem_cons.mp hmem with rfl | hmem
    · rfl
    · rw [List.mem_singleton.mp hmem]
      rfl

theorem SavesFirst.advance (h : c.SavesFirst) (hs : c.Sound) (ha : c.Advance canceled x c') : c'.SavesFirst := by
  cases hclosing : c.closing with
  | true =>
    rcases ha.of_closed hs hclosing with ⟨e, rest, now, he, -, rfl⟩ | ⟨-, rfl⟩
    · exact fun _ e hmem => h hclosing e (by rw [he]; exact List.mem_of_mem_tail hmem)
    · exact h
  | false =>
    have hopen : c.closing ≠ true := by rw [hclosing]; nofun
    cases ha with
    | ended now idle landed hend => exact savesFirst_finish c now
    | _ => exact fun hended => absurd hended hopen

/-- The run is closing, and its record is written. -/
structure Over (c : Coordinator) : Prop where
  closing : c.closing = true
  visible : ∀ e ∈ c.errands, e.isVisible = true

/-- Nothing more is written of a run that is over. -/
theorem Over.advance (h : c.Over) (hs : c.Sound) (ha : c.Advance canceled x c') :
    c'.Over ∧ c'.execution = c.execution ∧ x.writes = false := by
  rcases ha.of_closed hs h.closing with ⟨e, rest, now, he, rfl, rfl⟩ | ⟨hx, rfl⟩
  · refine ⟨⟨h.closing, fun e' hmem => h.visible e' (he ▸ List.mem_cons_of_mem _ hmem)⟩, rfl, ?_⟩
    have hv := h.visible e (he ▸ List.mem_cons_self)
    cases e with
    | emit | launch | request | signalDone | leave => rfl
    | save | saveNode | skip | cancel => cases hv
  · refine ⟨h, rfl, ?_⟩
    rcases hx with rfl | rfl <;> rfl

/-- The record has this result of a node, which a run that is closing may have cleared of its
payloads. -/
def Retains (c : Coordinator) (y : String) (result : NodeResult) : Prop :=
  ∃ shown, c.execution.node? y = some shown ∧ shown.clearPayload = result.clearPayload ∧
    (c.closing = false → shown = result)

/-- What is recorded of a node that has ended or been skipped is never changed. -/
theorem Retains.advance (h : c.Retains y result) (hterm : result.status.isTerminal = true)
    (ha : c.Advance canceled x c') : c'.Retains y result := by
  obtain ⟨shown, hshown, hclear, hsame⟩ := h
  have hstatus : shown.clearPayload.status = result.clearPayload.status := by rw [hclear]
  replace hstatus : shown.status = result.status := hstatus
  have hset : ∀ {id : String} {old new : NodeResult}, c.execution.node? id = some old →
      old.status.isTerminal = false → (c.execution.setNode id new).node? y = some shown := by
    intro id old new hold hopen
    rw [Execution.node?_setNode, if_neg, hshown]
    intro hy
    subst hy
    rw [← hstatus, Option.some.inj (hshown.symm.trans hold), hopen] at hterm
    cases hterm
  cases ha with
  | errand | passed | stopped | timedOut | canceled | elsewhere => exact ⟨shown, hshown, hclear, hsame⟩
  | skipped now he hr hw => exact ⟨shown, hset hr (by rw [hw]; rfl), hclear, hsame⟩
  | started now idle going unasked slot first hn hr hw => exact ⟨shown, hset hr (by rw [hw]; rfl), hclear, hsame⟩
  | succeeded now idle hr hrun => exact ⟨shown, hset hr (by rw [hrun]; rfl), hclear, hsame⟩
  | failed now idle hr hrun => exact ⟨shown, hset hr (by rw [hrun]; rfl), hclear, hsame⟩
  | ended now idle landed hend =>
    have hresults : (c.finish now).execution.nodeResults = _ := nodeResults_finalRecord c now
    by_cases hpolicy : c.policy (c.finalRecord now).status = .none
    · rw [if_pos hpolicy] at hresults
      refine ⟨shown.clearPayload, ?_, hclear, nofun⟩
      rw [Execution.node?, hresults]
      exact Execution.node?_clearPayloads.trans (congrArg _ hshown)
    · rw [if_neg hpolicy] at hresults
      refine ⟨shown, ?_, hclear, nofun⟩
      rw [Execution.node?, hresults]
      exact hshown

end Coordinator

/-! ## A run kept in rows -/

namespace Fork

/-- An engine whose store is a table. -/
def rowEngine (config : Config) : Engine := { engine config with store := .table {} }

def rowRecorded (config : Config) : Engine :=
  after (.create (prepared config)) (after (.prepare request types) (rowEngine config))

def rowAnnounced (config : Config) : Engine := after (.announce (prepared config)) (rowRecorded config)

/-- The engine that has entered the run and keeps it in rows. -/
def rowEntered (config : Config) : Engine := after (.enter (prepared config) plan) (rowAnnounced config)

theorem enters_rows (config : Config) : Engine.Enters request plan "run" (rowEntered config) := by
  have hprepare : (StartCall.prepare request types).step? (rowEngine config) =
      some (.create (prepared config), after (.prepare request types) (rowEngine config)) := rfl
  have hcreate : (StartCall.create (prepared config)).step? (after (.prepare request types) (rowEngine config)) =
      some (.announce (prepared config), rowRecorded config) := rfl
  have hannounce : (StartCall.announce (prepared config)).step? (rowRecorded config) =
      some (.enter (prepared config) plan, rowAnnounced config) := rfl
  have henter : (StartCall.enter (prepared config) plan).step? (rowAnnounced config) =
      some (.answered (.ok "run"), rowEntered config) := rfl
  exact .intro hprepare hcreate hannounce henter rfl rfl

end Fork

/-! ## Throughout a life -/

namespace Engine

variable {r : StartRequest} {p : Plan} {id : String} {e₀ e e' e₁ : Engine} {past more : List Moment}
  {run run₁ : ActiveRun} {x : Happening} {effect : Effect}

theorem Moves.kept?_of_not_writes (m : e.Moves id x e') (h : x.writes = false) :
    e'.store.kept? id = e.store.kept? id := by
  cases m with
  | @step _ effect hstep =>
    obtain ⟨run, c, -, -, rfl⟩ := stepRun?_eq_some hstep
    cases effect with
    | none => rfl
    | some f =>
      cases f with
      | save | saveNode => cases h
      | emit | launch | cancel | request | signalDone | leave => rfl
  | cancel | timeUp | finished => rfl
  | elsewhere hsame hk => exact hk

/-- Nothing happens to a run that is not there. -/
theorem Moves.of_gone (m : e.Moves id x e') (hgone : e.run? id = none) :
    e'.run? id = none ∧ e'.store.kept? id = e.store.kept? id := by
  refine ⟨?_, m.kept?_of_not_writes (Happening.writes_of_not_own (m.not_own_of_gone hgone))⟩
  cases hr' : e'.run? id with
  | none => rfl
  | some run' =>
    obtain ⟨_, hrun, -⟩ := m.turn hr'
    exact absurd (hrun.symm.trans hgone) (Option.some_ne_none _)

theorem Lives.of_gone (h : Lives id e more e') (hgone : e.run? id = none) :
    e'.run? id = none ∧ e'.store.kept? id = e.store.kept? id := by
  induction h with
  | start => exact ⟨hgone, rfl⟩
  | next _ m ih =>
    obtain ⟨hr, hk⟩ := m.of_gone ih.1
    exact ⟨hr, hk.trans ih.2⟩

theorem Lives.kept?_of_not_writes (h : Lives id e more e') (hquiet : ∀ m ∈ more, m.happening.writes = false) :
    e'.store.kept? id = e.store.kept? id := by
  induction h with
  | start => rfl
  | next _ m ih =>
    have hlast := hquiet _ (List.mem_append_right _ List.mem_cons_self)
    exact (m.kept?_of_not_writes hlast).trans (ih fun m hm => hquiet m (List.mem_append_left _ hm))

theorem Lives.mirrored (h₀ : Enters r p id e₀) (h : Lives id e₀ past e) (hr : e.run? id = some run) :
    ∃ k, e.store.kept? id = some k ∧ Mirrored k run.coordinator := by
  induction h generalizing run with
  | start =>
    obtain ⟨-, types, config, record, hrecord, hrun, k, hk, hof⟩ := h₀.spec
    cases hrun.symm.trans hr
    exact ⟨k, hk, record, hof, hrecord.tidy, .done⟩
  | next hlife m ih =>
    obtain ⟨before, hbefore, hturn, -⟩ := m.turn hr
    obtain ⟨k, hk, hmirrored⟩ := ih hbefore
    obtain ⟨_, -, hrecorded⟩ := hlife.recorded h₀ hbefore
    obtain ⟨results, hshows, haccounted⟩ := hlife.accounted h₀ hbefore
    have hruns := hlife.runs h₀ hbefore
    have hclean := Coordinator.clean_of_accounted hshows haccounted
    exact ⟨_, m.kept? hbefore hruns.id_eq hk, hmirrored.advance hruns.sound hrecorded.tidy hclean
      (hruns.sound.advance hturn)⟩

/-- What others see of a step was its errand. -/
theorem Moves.errand_of_visible (m : e.Moves id (.step (some effect)) e') (hr : e.run? id = some run)
    (hv : effect.isVisible = true) : ∃ errand rest, run.coordinator.errands = errand :: rest ∧
      errand.isVisible = true ∧ (∀ event, effect = .emit event → errand = .emit event) ∧
      ∀ l, effect = .launch l → errand = .launch l := by
  generalize hx : Happening.step (some effect) = x at m
  cases m with
  | step hstep =>
    obtain ⟨_, c, hrun, hstep, -⟩ := stepRun?_eq_some hstep
    cases hrun.symm.trans hr
    have hturn := Coordinator.turn_of_step? hstep
    rw [← hx] at hturn
    clear hstep hx
    generalize hx : Happening.step (some effect) = x at hturn
    cases hturn with
    | @errand errand rest now he hskip =>
      refine ⟨errand, rest, he, ?_⟩
      cases errand with
      | saveNode node =>
        obtain ⟨result, -, hresult⟩ := Option.map_eq_some_iff.mp (Happening.step.inj hx).symm
        subst hresult
        cases hv
      | skip node => exact absurd rfl (hskip node)
      | save | cancel => cases hx; cases hv
      | emit | launch | request | signalDone | leave => cases hx; exact ⟨rfl, by simp, by simp⟩
    | _ => cases hx
  | _ => cases hx

/-- When others see something of the run, the store holds its record, and what an event says of
it is so. -/
theorem Lives.holds_of_visible (h₀ : Enters r p id e₀) (h : Lives id e₀ past e)
    (m : e.Moves id (.step (some effect)) e') (hv : effect.isVisible = true) :
    ∃ run, e.run? id = some run ∧ e.store.Holds id run.coordinator.execution ∧
      ∀ event, effect = .emit event → event.IsTrueOf run.coordinator.execution run.coordinator.closing := by
  obtain ⟨run, hr⟩ := Option.ne_none_iff_exists'.mp fun hgone => absurd (m.not_own_of_gone hgone) nofun
  obtain ⟨errand, rest, he, hvisible, hemit, -⟩ := m.errand_of_visible hr hv
  obtain ⟨k, hk, hmirrored⟩ := h.mirrored h₀ hr
  obtain ⟨hof, htidy, htrue⟩ := hmirrored.of_visible he hvisible
  exact ⟨run, hr, Store.holds_of_kept hk hof htidy, fun event heq => htrue event (hemit event heq)⟩

theorem Lives.holds_of_idle (h₀ : Enters r p id e₀) (h : Lives id e₀ past e) (hr : e.run? id = some run)
    (he : run.coordinator.errands = []) : e.store.Holds id run.coordinator.execution := by
  obtain ⟨k, hk, hmirrored⟩ := h.mirrored h₀ hr
  obtain ⟨hof, htidy⟩ := hmirrored.of_idle he
  exact Store.holds_of_kept hk hof htidy

/-- A node is launched when all that feeds it has succeeded. -/
theorem Lives.fed_of_launch {l : Launch} (h₀ : Enters r p id e₀) (h : Lives id e₀ past e) (hr : e.run? id = some run)
    (m : e.Moves id (.step (some (.launch l))) e') : run.coordinator.execution.Fed r.definition l.nodeId := by
  have hruns := h.runs h₀ hr
  obtain ⟨errand, rest, he, -, -, hlaunch⟩ := m.errand_of_visible hr rfl
  have hstarted : run.coordinator.execution.HasStarted l.nodeId := by
    refine ((h.tally h₀ hr).launched l.nodeId).mp (List.mem_append_right _ ?_)
    rw [he, hlaunch l rfl]
    exact List.mem_cons_self
  exact hruns.definition ▸ hruns.sound.fed l.nodeId hstarted

/-- Once a run is over nothing is written of it, and its record stands. -/
theorem Lives.stands (h₀ : Enters r p id e₀) (h : Lives id e₀ past e) (hr : e.run? id = some run)
    (hover : run.coordinator.Over) (hmore : Lives id e more e₁) : (∀ m ∈ more, m.happening.writes = false) ∧
      ∀ run₁, e₁.run? id = some run₁ → run₁.coordinator.execution = run.coordinator.execution := by
  have hstays : ∀ {more e₁ run₁}, Lives id e more e₁ → e₁.run? id = some run₁ →
      run₁.coordinator.Over ∧ run₁.coordinator.execution = run.coordinator.execution := fun hmore hr₁ =>
    h.forward (P := fun c => c.Over ∧ c.execution = run.coordinator.execution) h₀ hr ⟨hover, rfl⟩
      (fun _ _ _ _ hs ⟨hover, hsame⟩ ha => ⟨(hover.advance hs ha).1, (hover.advance hs ha).2.1.trans hsame⟩) hmore hr₁
  refine ⟨fun m hm => ?_, fun run₁ hr₁ => (hstays hmore hr₁).2⟩
  obtain ⟨before, after, e₂, -, hbefore, hmoves⟩ := hmore.of_mem hm
  cases hr₂ : m.engine.run? id with
  | none => exact Happening.writes_of_not_own (hmoves.not_own_of_gone hr₂)
  | some run₂ =>
    cases hr₃ : e₂.run? id with
    | none => rw [(hmoves.gone hr₂ hr₃).1]; rfl
    | some run₃ =>
      obtain ⟨_, hrun, hturn, -⟩ := hmoves.turn hr₃
      cases hrun.symm.trans hr₂
      have hs := ((h.append hbefore).runs h₀ hr₂).sound
      exact ((hstays hbefore hr₂).1.advance hs (hs.advance hturn)).2.2

theorem Lives.savesFirst (h₀ : Enters r p id e₀) (h : Lives id e₀ past e) (hr : e.run? id = some run) :
    run.coordinator.SavesFirst :=
  h.induction (motive := fun _ run => run.coordinator.SavesFirst) h₀ hr (fun _ _ _ _ => nofun)
    fun _ _ _ _ _ _ _ hsaves hs ha _ _ => hsaves.advance hs ha

/-- A run that is over, or gone, was over at a point since which nothing has been written of it. -/
theorem Lives.over (h₀ : Enters r p id e₀) (h : Lives id e₀ past e)
    (hover : ∀ run, e.run? id = some run → run.coordinator.Over) :
    ∃ before after e₁ run, past = before ++ after ∧ Lives id e₀ before e₁ ∧ e₁.run? id = some run ∧
      run.coordinator.Over ∧ e.store.kept? id = e₁.store.kept? id := by
  cases hr : e.run? id with
  | some run => exact ⟨past, [], e, run, (List.append_nil past).symm, h, hr, hover run hr, rfl⟩
  | none =>
    obtain ⟨before, e₁, run, after, hlife, hr₁, herrands, hclosing, rfl, -⟩ := h.left h₀ hr
    have hover₁ : run.coordinator.Over := by
      refine ⟨hclosing, fun errand hmem => ?_⟩
      rw [herrands] at hmem
      rw [List.mem_singleton.mp hmem]
      rfl
    obtain ⟨e₂, -, hmoves, hafter⟩ := h.split
    have hlater : Lives id e₁ _ e := (Lives.start.next hmoves).append hafter
    refine ⟨before, _, e₁, run, rfl, hlife, hr₁, hover₁, ?_⟩
    exact hlater.kept?_of_not_writes (hlife.stands h₀ hr₁ hover₁ hlater).1

/-- What is kept of a run that is over is all of its final record. -/
theorem Lives.kept_of_over (h₀ : Enters r p id e₀) (h : Lives id e₀ past e) (hr : e.run? id = some run)
    (hover : run.coordinator.Over) : run.coordinator.execution.Tidy ∧ run.coordinator.execution.isTerminal = true ∧
      ∃ k, e.store.kept? id = some k ∧ k.Of run.coordinator.execution := by
  obtain ⟨k, hk, hmirrored⟩ := h.mirrored h₀ hr
  obtain ⟨_, -, hrecorded⟩ := h.recorded h₀ hr
  exact ⟨hrecorded.tidy, (h.runs h₀ hr).sound.isTerminal_of_closing hover.closing, k, hk,
    hmirrored.of_over hover.visible⟩

/-! ## Durable before visible -/

/-- How the run recorded the end of a node: it was skipped, or the run had been told. -/
def EndsAs (inputs : PortValues) (past : List Moment) (x : String) (result : NodeResult) : Prop :=
  (∃ t, result = .skippedAt x t) ∨
    ∃ e outcome t t', ⟨e, .finished x outcome⟩ ∈ past ∧ result = .endedWith x inputs outcome t t'

/-- What others see of the run `id` of a request is in the store when they see it. -/
structure DurableBeforeVisible (r : StartRequest) (id : String) (past : List Moment) (e : Engine) : Prop where
  shown : ∀ e₁ effect, ⟨e₁, .step (some effect)⟩ ∈ past → effect.isVisible = true →
    ∃ run, e₁.run? id = some run ∧ e₁.store.Holds id run.coordinator.execution
  waiting : ∀ run, e.run? id = some run → run.coordinator.isWaiting run.canceled = true →
    e.store.Holds id run.coordinator.execution
  /-- A node announced as started is stored as running on its inputs, and what feeds it as successes. -/
  nodeStarted : ∀ e₁ execution x, ⟨e₁, .step (some (.emit (.nodeStarted execution x)))⟩ ∈ past →
    ∃ run t, execution = id ∧ e₁.run? id = some run ∧ e₁.store.Holds id run.coordinator.execution ∧
      run.coordinator.execution.node? x =
        some (.runningOn x (run.coordinator.bag.inputs r.definition x r.trigger) t) ∧
      run.coordinator.execution.Fed r.definition x
  launched : ∀ e₁ l, ⟨e₁, .step (some (.launch l))⟩ ∈ past →
    ∃ record, e₁.store.Holds id record ∧ record.Fed r.definition l.nodeId
  /-- A node announced as finished is stored as it has ended, and this is final. -/
  nodeFinished : ∀ e₁ execution x status error,
    ⟨e₁, .step (some (.emit (.nodeFinished execution x status error)))⟩ ∈ past →
    ∃ run result, execution = id ∧ e₁.run? id = some run ∧ e₁.store.Holds id run.coordinator.execution ∧
      run.coordinator.execution.node? x = some result ∧ result.status.text = status ∧
      result.error.map (·.message) = error ∧
      EndsAs (run.coordinator.bag.inputs r.definition x r.trigger) past x result ∧
      ∀ run', e.run? id = some run' → run'.coordinator.Retains x result
  /-- When the end of the run is announced its final record is stored, and stays there. -/
  runFinished : ∀ before after e₁ execution status error,
    past = before ++ ⟨e₁, .step (some (.emit (.runFinished execution status error)))⟩ :: after →
    ∃ record, execution = id ∧ Event.runFinished execution status error = .ofEnded record ∧
      record.isTerminal = true ∧ e₁.store.Holds id record ∧ (∀ m ∈ after, m.happening.writes = false) ∧
      e.store.Holds id record ∧ ∀ run, e.run? id = some run → run.coordinator.execution = record

theorem nodeStarted_of_emit {execution y : String} (h₀ : Enters r p id e₀) (h : Lives id e₀ past e)
    (m : e.Moves id (.step (some (.emit (.nodeStarted execution y)))) e') :
    ∃ run t, execution = id ∧ e.run? id = some run ∧ e.store.Holds id run.coordinator.execution ∧
      run.coordinator.execution.node? y =
        some (.runningOn y (run.coordinator.bag.inputs r.definition y r.trigger) t) ∧
      run.coordinator.execution.Fed r.definition y := by
  obtain ⟨run, hr, hholds, htrue⟩ := h.holds_of_visible h₀ m rfl
  obtain ⟨hid, hclosing, hrunning⟩ := htrue _ rfl
  have hruns := h.runs h₀ hr
  obtain ⟨results, hshows, haccounted⟩ := h.accounted h₀ hr
  obtain ⟨rfl, -⟩ := hshows.eq_of_open hclosing
  obtain ⟨result, hresult, hst⟩ := Execution.nodeStatus?_eq_some.mp hrunning
  obtain ⟨t, rfl⟩ := haccounted.running y result hresult hst
  exact ⟨run, t, hid.trans hruns.id_eq, hr, hholds, hresult, hruns.definition ▸ hruns.sound.fed y (.inl hrunning)⟩

/-- The result of a node that has ended is accounted for. -/
theorem endsAs_of_terminal {y : String} {result : NodeResult} (h₀ : Enters r p id e₀) (h : Lives id e₀ past e)
    (hr : e.run? id = some run) (hclosing : run.coordinator.closing = false)
    (hresult : run.coordinator.execution.node? y = some result) (hterm : result.status.isTerminal = true) :
    EndsAs (run.coordinator.bag.inputs r.definition y r.trigger) past y result := by
  obtain ⟨results, hshows, haccounted⟩ := h.accounted h₀ hr
  obtain ⟨rfl, -⟩ := hshows.eq_of_open hclosing
  have htold : run.coordinator.execution.HasEnded y →
      EndsAs (run.coordinator.bag.inputs r.definition y r.trigger) past y result := by
    intro hended
    obtain ⟨e₂, outcome, hmem⟩ := mem_finishes.mp (((h.tally h₀ hr).finished y).mpr hended)
    obtain ⟨⟨t, t', hrecorded⟩, -⟩ := haccounted.finished e₂ y outcome hmem
    exact .inr ⟨e₂, outcome, t, t', hmem, Option.some.inj (hresult.symm.trans hrecorded)⟩
  have hstatus := Execution.nodeStatus?_eq_some.mpr ⟨result, hresult, rfl⟩
  cases hst : result.status with
  | waiting | running => rw [hst] at hterm; cases hterm
  | success => exact htold (.inl (hst ▸ hstatus))
  | error => exact htold (.inr (hst ▸ hstatus))
  | skipped => exact .inl (haccounted.skipped y result hresult hst)

theorem EndsAs.mono {inputs : PortValues} {y : String} {result : NodeResult} (h : EndsAs inputs past y result)
    (hsub : past ⊆ more) : EndsAs inputs more y result := by
  refine h.imp_right fun htold => ?_
  obtain ⟨e, outcome, t, t', hmem, hended⟩ := htold
  exact ⟨e, outcome, t, t', hsub hmem, hended⟩

theorem nodeFinished_of_emit {execution y status : String} {error : Option String} (h₀ : Enters r p id e₀)
    (h : Lives id e₀ past e) (m : e.Moves id (.step (some (.emit (.nodeFinished execution y status error)))) e') :
    ∃ run result, execution = id ∧ e.run? id = some run ∧ e.store.Holds id run.coordinator.execution ∧
      run.coordinator.execution.node? y = some result ∧ result.status.isTerminal = true ∧
      result.status.text = status ∧ result.error.map (·.message) = error ∧
      EndsAs (run.coordinator.bag.inputs r.definition y r.trigger) past y result := by
  obtain ⟨run, hr, hholds, htrue⟩ := h.holds_of_visible h₀ m rfl
  obtain ⟨hid, hclosing, result, hresult, hterm, htext, herror⟩ := htrue _ rfl
  exact ⟨run, result, hid.trans (h.runs h₀ hr).id_eq, hr, hholds, hresult, hterm, htext, herror,
    endsAs_of_terminal h₀ h hr hclosing hresult hterm⟩

/-- A run is over when its end is announced. -/
theorem over_of_emit {execution status : String} {error : Option String} (h₀ : Enters r p id e₀)
    (h : Lives id e₀ past e) (m : e.Moves id (.step (some (.emit (.runFinished execution status error)))) e') :
    ∃ run, e.run? id = some run ∧ e.store.Holds id run.coordinator.execution ∧ run.coordinator.Over ∧
      Event.runFinished execution status error = .ofEnded run.coordinator.execution := by
  obtain ⟨run, hr, hholds, htrue⟩ := h.holds_of_visible h₀ m rfl
  obtain ⟨hclosing, hevent⟩ := htrue _ rfl
  obtain ⟨errand, rest, he, hvisible, -, -⟩ := m.errand_of_visible hr rfl
  refine ⟨run, hr, hholds, ⟨hclosing, fun e' hmem => ?_⟩, hevent⟩
  rw [he] at hmem
  rcases List.mem_cons.mp hmem with rfl | hmem
  · exact hvisible
  · exact h.savesFirst h₀ hr hclosing e' (by rw [he]; exact hmem)

/-- Whatever others see of a run is in the store before they see it. -/
theorem durableBeforeVisible (h₀ : Enters r p id e₀) (h : Lives id e₀ past e) :
    DurableBeforeVisible r id past e := by
  refine
    { shown := fun e₁ effect hmem hv => ?shown
      waiting := fun run hr hw => h.holds_of_idle h₀ hr (Coordinator.isWaiting_iff.mp hw).1.errands
      nodeStarted := fun e₁ execution y hmem => ?nodeStarted
      launched := fun e₁ l hmem => ?launched
      nodeFinished := fun e₁ execution y status error hmem => ?nodeFinished
      runFinished := fun before after e₁ execution status error hpast => ?runFinished }
  case shown =>
    obtain ⟨_, _, _, -, hbefore, m⟩ := h.of_mem hmem
    obtain ⟨run, hr, hholds, -⟩ := hbefore.holds_of_visible h₀ m hv
    exact ⟨run, hr, hholds⟩
  case nodeStarted =>
    obtain ⟨_, _, _, -, hbefore, m⟩ := h.of_mem hmem
    exact nodeStarted_of_emit h₀ hbefore m
  case launched =>
    obtain ⟨_, _, _, -, hbefore, m⟩ := h.of_mem hmem
    obtain ⟨run, hr, hholds, -⟩ := hbefore.holds_of_visible h₀ m rfl
    exact ⟨_, hholds, hbefore.fed_of_launch h₀ hr m⟩
  case nodeFinished =>
    obtain ⟨before, after, rfl⟩ := List.append_of_mem hmem
    obtain ⟨e₂, hbefore, m, hafter⟩ := h.split
    obtain ⟨run, result, hid, hr, hholds, hresult, hterm, htext, herror, hends⟩ := nodeFinished_of_emit h₀ hbefore m
    have hlater : Lives id e₁ _ e := (Lives.start.next m).append hafter
    exact ⟨run, result, hid, hr, hholds, hresult, htext, herror, hends.mono (List.subset_append_left _ _),
      fun run' hr' => hbefore.forward (P := fun c => c.Retains y result) h₀ hr ⟨result, hresult, rfl, fun _ => rfl⟩
        (fun _ _ _ _ _ hretains ha => hretains.advance hterm ha) hlater hr'⟩
  case runFinished =>
    subst hpast
    obtain ⟨e₂, hbefore, m, hafter⟩ := h.split
    obtain ⟨run, hr, hholds, hover, hevent⟩ := over_of_emit h₀ hbefore m
    have hruns := hbefore.runs h₀ hr
    have hterm := hruns.sound.isTerminal_of_closing hover.closing
    have hlater : Lives id e₁ _ e := (Lives.start.next m).append hafter
    obtain ⟨hquiet, hsame⟩ := hbefore.stands h₀ hr hover hlater
    obtain ⟨k, hk, hof⟩ := hholds.kept
    obtain ⟨_, -, hrecorded⟩ := hbefore.recorded h₀ hr
    refine ⟨run.coordinator.execution, ?_, hevent, hterm, hholds,
      fun m' hm' => hquiet m' (List.mem_append_right _ hm'),
      Store.holds_of_kept ((hlater.kept?_of_not_writes hquiet).trans hk) hof hrecorded.tidy, hsame⟩
    have hid := congrArg Event.executionId hevent
    exact hid.trans hruns.id_eq

/-- The run of `Fork` is kept in rows; one of its nodes has ended and another is in flight. -/
theorem durableBeforeVisible_fork : ∃ past e run, Lives "run" (Fork.rowEntered { maxConcurrency := 1 }) past e ∧
    e.run? "run" = some run ∧ run.coordinator.isWaiting run.canceled = true ∧ run.coordinator.execution.Legible ∧
    DurableBeforeVisible Fork.request "run" past e := by
  have hstart : Lives "run" (Fork.rowEntered { maxConcurrency := 1 }) [] _ := .start
  have hfinished : (takeSteps "run" 4 (Fork.rowEntered { maxConcurrency := 1 })).2.Moves "run"
      (.finished "a" (.ok [("main", .null)])) _ := .finished rfl rfl (by decide)
  have hlife := ((hstart.takeSteps 4).next hfinished).takeSteps 7
  refine ⟨_, _, _, hlife, rfl, rfl, ?_, durableBeforeVisible (Fork.enters_rows _) hlife⟩
  decide +kernel

end Engine
end Workflows
