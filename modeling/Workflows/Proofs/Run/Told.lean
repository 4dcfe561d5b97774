/-
  Workflows.Proofs.Run.Told — what a run announces, from its first node to its end.

  Events are announced when errands are carried out, so what a run has decided to tell is what
  it has emitted and what its errands still hold (`heard`). That list only grows, by one event
  for each change of a result and by one when the run ends, and it always tells the record
  (`Told`): for each node what its result says and no more, the success of whatever feeds a
  node before its start, the failure that the run is blamed on before any other, and the end
  of the run last.
-/

import Workflows.Proofs.Run.Blame
import Workflows.Proofs.Run.Durable

namespace Workflows

namespace Event

/-- The node that the event is about. -/
def node? : Event → Option String
  | .nodeStarted _ node | .nodeFinished _ node _ _ => some node
  | .runStarted _ _ | .runFinished _ _ _ => none

/-- A node has failed. -/
def isFailure : Event → Bool
  | .nodeFinished _ _ status _ => status == NodeStatus.error.text
  | _ => false

end Event

/-- What is announced of a node that has come to this result. -/
def NodeResult.story (execution node : String) (r : NodeResult) : List Event :=
  match r.status with
  | .waiting => []
  | .running => [.nodeStarted execution node]
  | .skipped => [.nodeFinished execution node NodeStatus.skipped.text none]
  | .success => [.nodeStarted execution node, .nodeFinished execution node NodeStatus.success.text none]
  | .error =>
    [.nodeStarted execution node, .nodeFinished execution node NodeStatus.error.text (r.error.map (·.message))]

/-- The event that carrying out this errand announces. -/
def Errand.event? : Errand → Option Event
  | .emit event => some event
  | _ => none

theorem events_of_skips {errands : List Errand} (h : ∀ e ∈ errands, ∃ x, e = .skip x) :
    errands.filterMap Errand.event? = [] :=
  List.filterMap_eq_nil_iff.mpr fun e he => by obtain ⟨x, rfl⟩ := h e he; rfl

namespace Engine

def Moment.event? (m : Moment) : Option Event :=
  match m.happening with
  | .step (some (.emit event)) => some event
  | _ => none

/-- The events a run has announced, in order. -/
def emitted (past : List Moment) : List Event := past.filterMap Moment.event?

/-- What a run has announced and what it has decided to announce. -/
def heard (past : List Moment) (c : Coordinator) : List Event := emitted past ++ c.errands.filterMap Errand.event?

variable {past : List Moment} {m : Moment} {c c' : Coordinator}

theorem event?_eq_some {e : Engine} {x : Happening} {event : Event} (h : Moment.event? ⟨e, x⟩ = some event) :
    x = .step (some (.emit event)) := by
  unfold Moment.event? at h
  split at h
  next heq => cases h; exact heq
  next => cases h

theorem emitted_append : emitted (past ++ [m]) = emitted past ++ m.event?.toList := by
  simp only [emitted, List.filterMap_append]
  cases h : m.event? <;> simp [h]

/-- Carrying out an errand announces the event it holds, if any. -/
theorem event?_perform (c : Coordinator) (e : Engine) (now : Instant) (errand : Errand) :
    Moment.event? ⟨e, .step (c.perform now errand).2⟩ = errand.event? := by
  cases errand with
  | saveNode id =>
    simp only [Coordinator.perform, Moment.event?]
    cases c.execution.node? id <;> rfl
  | save | emit | launch | skip | cancel | request | signalDone | leave => rfl

theorem heard_of_quiet (news : List Event) (hm : m.event? = none)
    (h : c'.errands.filterMap Errand.event? = c.errands.filterMap Errand.event? ++ news) :
    heard (past ++ [m]) c' = heard past c ++ news := by
  rw [heard, heard, emitted_append, hm, h, Option.toList_none, List.append_nil, List.append_assoc]

theorem heard_errand {e : Engine} {errand : Errand} {rest : List Errand} {now : Instant}
    (he : c.errands = errand :: rest) :
    heard (past ++ [⟨e, .step ({ c with errands := rest }.perform now errand).2⟩]) { c with errands := rest } =
      heard past c := by
  rw [heard, heard, emitted_append, event?_perform, he, List.filterMap_cons, List.append_assoc]
  cases errand.event? <;> rfl

end Engine

open Engine (heard emitted)

/-- The events tell the record of a coordinator, no less and no more. -/
structure Told (told : List Event) (c : Coordinator) : Prop where
  own : ∀ event ∈ told, event.executionId = c.execution.id
  nodes : ∀ x, told.filter (·.node? = some x) = (c.execution.node? x).elim [] (·.story c.execution.id x)
  /-- Whatever feeds a node has succeeded before it starts. -/
  fed : ∀ before after x, told = before ++ .nodeStarted c.execution.id x :: after →
    ∀ a, c.definition.Feeds a x → .nodeFinished c.execution.id a NodeStatus.success.text none ∈ before
  going : c.closing = false → ∀ event ∈ told, event.node?.isSome
  ended : c.closing = true → ∃ body, told = body ++ [.ofEnded c.execution] ∧ ∀ event ∈ body, event.node?.isSome
  first : told.find? Event.isFailure = c.firstFailure.map fun (x, e) =>
    .nodeFinished c.execution.id x NodeStatus.error.text (some e.message)

namespace Told

variable {told : List Event} {c c' : Coordinator} {canceled : Bool} {x : Happening} {id : String} {event : Event}
  {old new : NodeResult}

/-- A node that is fed has had its success told. -/
theorem mem_of_succeeded (h : Told told c) (hs : c.execution.nodeStatus? id = some .success) :
    .nodeFinished c.execution.id id NodeStatus.success.text none ∈ told := by
  obtain ⟨r, hr, hst⟩ := Execution.nodeStatus?_eq_some.mp hs
  have hstory : .nodeFinished c.execution.id id NodeStatus.success.text none ∈ r.story c.execution.id id := by
    rw [NodeResult.story, hst]
    exact List.mem_cons_of_mem _ List.mem_cons_self
  have hnodes := h.nodes id
  rw [hr, Option.elim_some] at hnodes
  exact (List.mem_filter.mp (hnodes ▸ hstory)).1

/-- Nothing is told, and what has been told of stands. -/
theorem quiet (h : Told told c) (hdefinition : c'.definition = c.definition) (hid : c'.execution.id = c.execution.id)
    (hnodes : ∀ x, c'.execution.node? x = c.execution.node? x) (hclosing : c'.closing = c.closing)
    (hfirst : c'.firstFailure = c.firstFailure) (hended : c.closing = true → c'.execution = c.execution) :
    Told told c' where
  own := hid ▸ h.own
  nodes := fun x => by rw [hnodes x, hid]; exact h.nodes x
  fed := by rw [hid, hdefinition]; exact h.fed
  going := hclosing ▸ h.going
  ended := fun hc => hended (hclosing ▸ hc) ▸ h.ended (hclosing ▸ hc)
  first := by rw [hfirst, hid]; exact h.first

/-- The result of a node changes and its story grows by one event. -/
theorem node (h : Told told c) (hdefinition : c'.definition = c.definition) (hid : c'.execution.id = c.execution.id)
    (hopen : c.closing = false) (hclosing : c'.closing = false) (hold : c.execution.node? id = some old)
    (hnodes : ∀ x, c'.execution.node? x = if x = id then some new else c.execution.node? x)
    (hstory : new.story c.execution.id id = old.story c.execution.id id ++ [event])
    (hevent : event.node? = some id) (hown : event.executionId = c.execution.id)
    (hfed : event = .nodeStarted c.execution.id id → c.execution.Fed c.definition id)
    (hfirst : c'.firstFailure.map (fun (x, e) => .nodeFinished c.execution.id x NodeStatus.error.text (some e.message)) =
      (told.find? Event.isFailure).or ([event].find? Event.isFailure)) : Told (told ++ [event]) c' where
  own := fun ev hev => by
    rw [hid]
    rcases List.mem_append.mp hev with hev | hev
    · exact h.own ev hev
    · rw [List.mem_singleton.mp hev]
      exact hown
  nodes := fun x => by
    rw [List.filter_append, h.nodes x, hnodes x, hid]
    by_cases hx : x = id
    · subst hx
      simp [hold, hstory, hevent]
    · have hother : ¬ event.node? = some x := by rw [hevent]; exact fun heq => hx (Option.some.inj heq).symm
      simp [hx, hother]
  fed := fun before after y heq a ha => by
    rw [hid] at heq ⊢
    rw [hdefinition] at ha
    rcases List.eq_nil_or_concat after with rfl | ⟨after, last, rfl⟩
    · obtain ⟨rfl, hlast⟩ := List.append_inj' heq rfl
      have hlast := List.singleton_inj.mp hlast
      have hy : y = id := by rw [hlast] at hevent; exact Option.some.inj hevent
      subst hy
      exact h.mem_of_succeeded (hfed hlast a ha)
    · rw [List.concat_eq_append, ← List.cons_append, ← List.append_assoc] at heq
      exact h.fed before after y (List.append_inj' heq rfl).1 a ha
  going := fun _ ev hev => by
    rcases List.mem_append.mp hev with hev | hev
    · exact h.going hopen ev hev
    · rw [List.mem_singleton.mp hev, hevent]
      rfl
  ended := fun hc => absurd (hclosing.symm.trans hc) nofun
  first := by rw [List.find?_append, hid, hfirst]

/-- The run ends. -/
theorem finish (h : Told told c) (hopen : c.closing = false) (now : Instant) :
    Told (told ++ [.ofEnded (c.finish now).execution]) (c.finish now) := by
  have hid : (c.finish now).execution.id = c.execution.id :=
    congrArg Execution.Origin.id (Coordinator.sameRun_finish c now).origin
  refine
    { own := fun event hevent => ?own
      nodes := fun x => ?nodes
      fed := fun before after x heq => ?fed
      going := nofun
      ended := fun _ => ⟨told, rfl, h.going hopen⟩
      first := ?first }
  case own =>
    rcases List.mem_append.mp hevent with hevent | hevent
    · exact (h.own event hevent).trans hid.symm
    · rw [List.mem_singleton.mp hevent]
      rfl
  case nodes =>
    have hlast : [Event.ofEnded (c.finish now).execution].filter (·.node? = some x) = [] := rfl
    rw [List.filter_append, hlast, List.append_nil, h.nodes x, hid]
    -- clearing the payloads of a result leaves its story
    have hfinal : (c.finish now).execution.node? x = (c.execution.node? x).map NodeResult.clearPayload ∨
        (c.finish now).execution.node? x = c.execution.node? x := by
      have hresults : (c.finish now).execution.nodeResults = _ := Coordinator.nodeResults_finalRecord c now
      rw [Execution.node?, hresults]
      split
      · exact .inl Execution.node?_clearPayloads
      · exact .inr rfl
    rcases hfinal with hfinal | hfinal <;> rw [hfinal]
    cases c.execution.node? x <;> rfl
  case fed =>
    rw [hid] at heq ⊢
    rcases List.eq_nil_or_concat after with rfl | ⟨after, last, rfl⟩
    · cases List.singleton_inj.mp (List.append_inj' heq rfl).2
    · rw [List.concat_eq_append, ← List.cons_append, ← List.append_assoc] at heq
      exact h.fed before after x (List.append_inj' heq rfl).1
  case first =>
    have hlast : [Event.ofEnded (c.finish now).execution].find? Event.isFailure = none := rfl
    rw [List.find?_append, hlast, Option.or_none, h.first, hid]
    rfl

/-- Every turn tells what it does and no more. -/
theorem advance {past : List Engine.Moment} {e : Engine} (h : Told (heard past c) c) (hs : c.Sound)
    (hskips : ∀ id rest, c.errands = .skip id :: rest → ∀ errand ∈ rest, ∃ y, errand = .skip y)
    (ha : c.Advance canceled x c') : Told (heard (past ++ [⟨e, x⟩]) c') c' := by
  -- only of a node that starts it is asked that it has been fed
  have hends : ∀ {id : String} {status : NodeStatus} {error : Option String},
      c.finishedEvent id status error = .nodeStarted c.execution.id id → c.execution.Fed c.definition id :=
    fun heq => by cases heq
  cases ha with
  | errand now he hskip =>
    rw [Engine.heard_errand he]
    exact h.quiet rfl rfl (fun _ => rfl) rfl rfl fun _ => rfl
  | @passed id rest he hskipped =>
    rw [Engine.heard_of_quiet (c := c) [] rfl (by rw [he, List.append_nil]; rfl), List.append_nil]
    exact h.quiet rfl rfl (fun _ => rfl) rfl rfl fun _ => rfl
  | @skipped id rest r now he hr hw =>
    have hopen : c.closing = false := (hs.toSkip id (he ▸ List.mem_cons_self)).2.2
    have hrest : rest.filterMap Errand.event? = [] := events_of_skips (hskips id rest he)
    rw [Engine.heard_of_quiet (c := c) [c.finishedEvent id .skipped none] rfl ?_]
    · refine h.node rfl rfl hopen hopen hr (fun y => Execution.node?_setNode) ?_ rfl rfl hends ?_
      · simp only [NodeResult.story, hw]
        rfl
      · rw [h.first]
        exact (Option.or_none).symm
    · simp only [List.filterMap_append, hrest, he, List.filterMap_cons]
      rfl
  | stopped now idle going asked =>
    rw [Engine.heard_of_quiet (c := c) [] rfl (by rw [idle.errands]; rfl), List.append_nil]
    exact h.quiet rfl rfl (fun _ => rfl) rfl rfl fun hc => absurd (idle.closing.symm.trans hc) Bool.false_ne_true
  | @started id rest node r now idle going unasked slot first hn hr hw fed =>
    rw [Engine.heard_of_quiet (c := c) [.nodeStarted c.execution.id id] rfl (by rw [idle.errands]; rfl)]
    refine h.node rfl rfl idle.closing idle.closing hr (fun y => Execution.node?_setNode) ?_ rfl rfl (fun _ => fed) ?_
    · simp only [NodeResult.story, hw]
      rfl
    · rw [h.first]
      exact (Option.or_none).symm
  | ended now idle landed hend =>
    rw [Engine.heard_of_quiet (c := c) [.ofEnded (c.finish now).execution] rfl ?_]
    · exact h.finish idle.closing now
    · rw [idle.errands]
      simp only [Coordinator.finish, List.filterMap_append]
      cases Coordinator.errorRequest? _ <;> rfl
  | timedOut now idle flying going unasked limit =>
    rw [Engine.heard_of_quiet (c := c) [] rfl (by rw [idle.errands]; rfl), List.append_nil]
    exact h.quiet rfl rfl (fun _ => rfl) rfl rfl fun hc => absurd (idle.closing.symm.trans hc) Bool.false_ne_true
  | @succeeded id ports r pending ready now idle hr hrun =>
    rw [Engine.heard_of_quiet (c := c) [c.finishedEvent id .success none] rfl (by rw [idle.errands]; rfl)]
    refine h.node rfl rfl idle.closing idle.closing hr (fun y => Execution.node?_setNode) ?_ rfl rfl hends ?_
    · simp only [NodeResult.story, hrun]
      rfl
    · rw [h.first]
      exact (Option.or_none).symm
  | @failed id err r now idle hr hrun =>
    rw [Engine.heard_of_quiet (c := c) [c.finishedEvent id .error (some err.message)] rfl ?_]
    · refine h.node rfl rfl idle.closing idle.closing hr (fun y => Execution.node?_setNode) ?_ rfl rfl hends ?_
      · simp only [NodeResult.story, hrun]
        rfl
      · rw [h.first]
        cases c.firstFailure <;> rfl
    · have hlater : ((if c.execution.isTerminal then [] else c.plan.allDependents id).map Errand.skip).filterMap
          Errand.event? = [] :=
        events_of_skips fun errand hmem => (List.mem_map.mp hmem).imp fun y hy => hy.2.symm
      rw [idle.errands, List.filterMap_append, hlater]
      rfl
  | canceled | elsewhere =>
    rw [Engine.heard_of_quiet (c := c) [] rfl (List.append_nil _).symm, List.append_nil]
    exact h

end Told

namespace Engine

variable {r : StartRequest} {p : Plan} {id : String} {e₀ e : Engine} {past : List Moment} {run : ActiveRun}

theorem Accepted.told {types : Registry} {config : Config} {record : Execution} (h : Accepted r p id record) :
    Told [] (.ofPlan r.definition p types config record) where
  own := nofun
  nodes := fun x => by
    have hx : (Coordinator.ofPlan r.definition p types config record).execution.node? x = _ := h.nodes x
    rw [hx]
    split <;> rfl
  fed := fun before after x heq => absurd heq (by simp)
  going := nofun
  ended := nofun
  first := rfl

/-- At every point of a life what the run has told and is about to tell tells its record. -/
theorem Lives.told (h₀ : Enters r p id e₀) (h : Lives id e₀ past e) (hr : e.run? id = some run) :
    Told (heard past run.coordinator) run.coordinator := by
  refine h.induction (motive := fun past run => Told (heard past run.coordinator) run.coordinator) h₀ hr
    (fun _ _ _ hrecord => hrecord.told) fun past e x run run' hlife hr htold hs ha _ _ => ?_
  refine htold.advance hs (fun y rest he => ?_) ha
  obtain ⟨k, -, stored, -, -, hsettles⟩ := hlife.mirrored h₀ hr
  rw [he] at hsettles
  cases hsettles with
  | visible hv => cases hv
  | skip hrest => exact hrest

/-- A run announces its own events. -/
theorem Lives.executionId_of_emit {e' : Engine} {x : Happening} {event : Event} (h₀ : Enters r p id e₀)
    (h : Lives id e₀ past e) (m : e.Moves id x e') (hx : Moment.event? ⟨e, x⟩ = some event) : event.executionId = id := by
  obtain rfl := event?_eq_some hx
  obtain ⟨run, hr, -, htrue⟩ := h.holds_of_visible h₀ m rfl
  rw [← (h.runs h₀ hr).id_eq]
  cases event with
  | runStarted => exact (htrue _ rfl).elim
  | nodeStarted | nodeFinished => exact (htrue _ rfl).1
  | runFinished => exact congrArg Event.executionId (htrue _ rfl).2

/-- A run that has been told to stop was canceled, or its time was up. -/
theorem Lives.stopped_by (h₀ : Enters r p id e₀) (h : Lives id e₀ past e) (hr : e.run? id = some run)
    (hstop : run.coordinator.stopping = true) :
    run.coordinator.execution.status = .canceled ∨ ∃ m ∈ past, m.happening = .timeUp := by
  revert hstop
  refine h.induction (motive := fun past run => run.coordinator.stopping = true →
    run.coordinator.execution.status = .canceled ∨ ∃ m ∈ past, m.happening = .timeUp) h₀ hr
    (fun _ _ _ _ => nofun) fun past e x run run' hlife hr hby hs ha _ _ hstop => ?_
  -- a run that had been told before was so for the same reason
  have hbefore : run.coordinator.stopping = true →
      run.coordinator.execution.status = .canceled ∨ ∃ m ∈ past ++ [⟨e, x⟩], m.happening = .timeUp := fun hstop =>
    (hby hstop).imp_right fun hup => hup.imp fun m hm => ⟨List.mem_append_left _ hm.1, hm.2⟩
  generalize run'.coordinator = c' at ha hstop ⊢
  cases ha with
  | stopped => exact .inl rfl
  | timedOut => exact .inr ⟨_, List.mem_append_right _ (List.mem_singleton.mpr rfl), rfl⟩
  | ended now =>
    have hfinal := run.coordinator.finalRecord_of_terminal now (hs.ended hstop)
    exact (hbefore hstop).imp_left hfinal.1.trans
  | errand | passed | skipped | started | succeeded | failed | canceled | elsewhere => exact hbefore hstop

/-- A run that ends in error before its time is up is blamed on the node whose failure was told first. -/
theorem Lives.blamed_on_first (h₀ : Enters r p id e₀) (h : Lives id e₀ past e) (hr : e.run? id = some run)
    (hclosing : run.coordinator.closing = true) (herror : run.coordinator.execution.status = .error)
    (hintime : ∀ m ∈ past, m.happening ≠ .timeUp) :
    ∃ x err, (heard past run.coordinator).find? Event.isFailure =
        some (.nodeFinished id x NodeStatus.error.text (some err.message)) ∧
      run.coordinator.execution.error = some (Coordinator.failureText x err) := by
  have hruns := h.runs h₀ hr
  have hgo : run.coordinator.stopping = false := Bool.eq_false_iff.mpr fun hstop => by
    rcases h.stopped_by h₀ hr hstop with hcanceled | ⟨m, hm, hup⟩
    · rw [herror] at hcanceled
      cases hcanceled
    · exact hintime m hm hup
  have hnamed := (h.blames h₀ hr).named hclosing hgo
  have hverdict := hruns.sound.verdict hclosing hgo
  have hfirst := (h.told h₀ hr).first
  cases hfailure : run.coordinator.firstFailure with
  | none =>
    rw [hfailure, herror] at hverdict
    cases hverdict
  | some failure =>
    rw [hfailure, hruns.id_eq] at hfirst
    rw [hfailure] at hnamed
    exact ⟨failure.1, failure.2, hfirst, hnamed⟩

end Engine
end Workflows
