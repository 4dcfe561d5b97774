/-
  Workflows.Proofs.Engine.Concluded — how a run has ended is said once and for all.

  A run has come to its end (`Desk.Concludes`) as soon as its stored record is terminal, be it that
  it is told to stop while nodes are still in flight, or as soon as the end is announced. From then
  on the record that is kept, the record of its coordinator and the event of its end give one
  status and one error. Nothing that happens changes this (`Concludes.goes`), and it is so at every
  point of a history at which one of the three can be seen (`Chronicle.concludes`).
-/

import Workflows.Proofs.Engine.Onward
import Workflows.Proofs.Engine.Protocol
import Workflows.Proofs.Engine.Records

namespace Workflows

/-- The event that announces it. -/
def Conclusion.event (id : String) (x : Conclusion) : Event := .runFinished id x.status.text x.error

theorem Event.ofEnded_eq (e : Execution) : Event.ofEnded e = e.conclusion.event e.id := rfl

/-! ## One run -/

section

variable {c c' : Coordinator} {canceled : Bool} {x : Happening}

/-- The status and the error of a record that has ended stand. -/
theorem Coordinator.Advance.conclusion (ha : c.Advance canceled x c') (hs : c.Sound)
    (hterm : c.execution.conclusion.status.isTerminal = true) : c'.execution.conclusion = c.execution.conclusion := by
  have hended : c.stopping = false → c.closing = false → False := fun hstop hclosing => by
    have hrunning : c.execution.conclusion.status = .running := (hs.going hstop hclosing).1
    rw [hrunning] at hterm
    cases hterm
  cases ha with
  | stopped now idle going => exact (hended going idle.closing).elim
  | timedOut now idle flying going => exact (hended going idle.closing).elim
  | ended now =>
    obtain ⟨hstatus, herror⟩ := c.finalRecord_of_terminal now hterm
    exact congrArg₂ Conclusion.mk hstatus herror
  | _ => rfl

end

namespace Engine

variable {r : StartRequest} {p : Plan} {id : String} {e₀ e e' : Engine} {past : List Moment} {run : ActiveRun} {k : Kept}
  {x : Happening} {event : Event}

/-- What is written of a run concludes as its record does. -/
theorem Moves.conclusion_after (m : e.Moves id x e') (hr : e.run? id = some run) (k : Kept) :
    (k.after x).conclusion = k.conclusion ∨ (k.after x).conclusion = run.coordinator.execution.conclusion := by
  cases m with
  | @step _ effect h =>
    obtain ⟨_, c, hrun, hstep, -⟩ := stepRun?_eq_some h
    cases hrun.symm.trans hr
    have hturn := Coordinator.turn_of_step? hstep
    cases effect with
    | none => exact .inl rfl
    | some f =>
      cases f with
      | save record =>
        cases hturn.save_eq
        exact .inr (k.conclusion_update _)
      | saveNode execution result => exact .inl (k.conclusion_putNode result)
      | emit | launch | cancel | request | signalDone | leave => exact .inl rfl
  | cancel | timeUp | finished | elsewhere => exact .inl rfl

/-- If the record that is kept has ended, the record of the run has ended as it did. -/
theorem Lives.conclusion_of_kept (h₀ : Enters r p id e₀) (h : Lives id e₀ past e) (hr : e.run? id = some run)
    (hk : e.store.kept? id = some k) (hterm : k.conclusion.status.isTerminal = true) :
    run.coordinator.execution.conclusion = k.conclusion := by
  induction h generalizing run k with
  | start =>
    obtain ⟨-, types, config, record, hrecord, -, k', hk', hof⟩ := h₀.spec
    cases hk.symm.trans hk'
    have hrunning : record.conclusion.status = .running := hrecord.status
    rw [hof.conclusion, hrunning] at hterm
    cases hterm
  | next hlife m ih =>
    obtain ⟨before, hbefore, hturn, -⟩ := m.turn hr
    have hruns := hlife.runs h₀ hbefore
    have ha := hruns.sound.advance hturn
    obtain ⟨k₀, hk₀⟩ := Option.isSome_iff_exists.mp (hlife.isSome_kept h₀)
    obtain rfl := Option.some.inj (hk.symm.trans (m.kept? hbefore hruns.id_eq hk₀))
    rcases m.conclusion_after hbefore k₀ with hsame | hwritten
    · rw [hsame] at hterm ⊢
      have hbegan := ih hbefore hk₀ hterm
      exact (ha.conclusion hruns.sound (hbegan ▸ hterm)).trans hbegan
    · rw [hwritten] at hterm ⊢
      exact ha.conclusion hruns.sound hterm

/-- When the end of a run has been announced, what is kept is all of the record it tells of. -/
theorem Lives.kept_of_final (h₀ : Enters r p id e₀) (h : Lives id e₀ past e) (hmem : event ∈ emitted past)
    (hfinal : event.isFinal = true) : ∃ k record, e.store.kept? id = some k ∧ k.Of record ∧
      record.isTerminal = true ∧ record.id = id ∧ event = .ofEnded record := by
  obtain ⟨⟨e₁, x⟩, hmoment, hevent⟩ := List.mem_filterMap.mp hmem
  obtain rfl := event?_eq_some hevent
  cases event with
  | runStarted | nodeStarted | nodeFinished => cases hfinal
  | runFinished execution status error =>
    obtain ⟨before, after, rfl⟩ := List.append_of_mem hmoment
    obtain ⟨e₂, hbefore, m, hafter⟩ := h.split
    obtain ⟨run, hr, hholds, hover, heq⟩ := over_of_emit h₀ hbefore m
    have hruns := hbefore.runs h₀ hr
    have hlater : Lives id e₁ _ e := (Lives.start.next m).append hafter
    obtain ⟨k, hk, hof⟩ := hholds.kept
    exact ⟨k, _, (hlater.kept?_of_not_writes (hbefore.stands h₀ hr hover hlater).1).trans hk, hof,
      hruns.sound.isTerminal_of_closing hover.closing, hruns.id_eq, heq⟩

/-- A run that is gone has announced its end. -/
theorem Lives.final_of_gone (h₀ : Enters r p id e₀) (h : Lives id e₀ past e) (hgone : e.run? id = none) :
    ∃ event ∈ emitted past, event.isFinal = true := by
  obtain ⟨life, e₁, run, hlife, hr, hclosing, -, hheard, -⟩ := h.left_behind h₀ hgone
  obtain ⟨body, htold, -⟩ := (hlife.told h₀ hr).ended hclosing
  refine ⟨.ofEnded run.coordinator.execution, ?_, rfl⟩
  rw [← hheard, htold]
  exact List.mem_append_right _ (List.mem_singleton.mpr rfl)

end Engine

/-! ## Every run -/

/-- The run has ended so, as far as anything tells of its end. -/
structure Desk.Concludes (s : Desk) (id : String) (x : Conclusion) : Prop where
  terminal : x.status.isTerminal = true
  kept : ∀ k, s.engine.store.kept? id = some k → k.conclusion = x
  alive : ∀ run, s.engine.run? id = some run → run.coordinator.execution.conclusion = x
  told : ∀ event ∈ s.engine.eventsOf id, event.isFinal = true → event = x.event id
  /-- Only the refusal of the run may be yet to be announced. -/
  called : ∀ c ∈ s.callers, c.Bears id → ∃ p, c.call = .announce p ∧ p.execution.id = id ∧ p.execution.conclusion = x
  named : ∀ n, s.engine.runsNamed ≤ n → s.engine.ids.run n ≠ id

section

variable {e₀ : Engine} {past more : List Entry} {s s' : Desk} {p : Prepared} {id : String} {x : Conclusion}

theorem Engine.isFinal_of_mem_eventsOf {e e' : Engine} {event : Event} (hevents : e'.events = e.events ++ [event])
    (hold : ∀ ev ∈ e.eventsOf id, ev.isFinal = true → ev = x.event id)
    (hnew : event.executionId = id → event.isFinal = true → event = x.event id) :
    ∀ ev ∈ e'.eventsOf id, ev.isFinal = true → ev = x.event id := by
  intro ev hev hfinal
  rw [Engine.eventsOf_append hevents] at hev
  rcases List.mem_append.mp hev with hev | hev
  · exact hold ev hev hfinal
  · obtain ⟨hmem, hid⟩ := List.mem_filter.mp hev
    cases List.mem_singleton.mp hmem
    exact hnew (of_decide_eq_true hid) hfinal

namespace Desk.Concludes

/-- A turn of the run leaves how it has ended. -/
theorem turn {y : Happening} {run : ActiveRun} {e : Engine} (h : s.Concludes id x) (hchronicle : Chronicle e₀ past s)
    (m : s.engine.Moves id y e) (happens : y ≠ .elsewhere) (hr : s.engine.run? id = some run) :
    Desk.Concludes { s with engine := e } id x := by
  obtain ⟨p, hp, rfl⟩ := hchronicle.of_alive hr
  obtain ⟨r, plan, e₁, life, store, -, -, entered, lives⟩ := (hchronicle.stages p hp).of_alive hr
  have hruns := lives.runs entered hr
  have hrun := h.alive run hr
  refine
    { terminal := h.terminal
      kept := fun k' hk' => ?kept
      alive := fun run' hr' => ?alive
      told := ?told
      called := h.called
      named := (m.ids_eq happens).1.symm ▸ (m.ids_eq happens).2.symm ▸ h.named }
  case kept =>
    cases hk : s.engine.store.kept? p.execution.id with
    | none => exact absurd (hk'.symm.trans (m.unkept happens hk)) nofun
    | some k =>
      obtain rfl := Option.some.inj (hk'.symm.trans (m.kept? hr hruns.id_eq hk))
      exact (m.conclusion_after hr k).elim (fun hsame => hsame.trans (h.kept k hk)) fun hwritten => hwritten.trans hrun
  case alive =>
    obtain ⟨_, hrun', hturn, -⟩ := m.turn hr'
    cases hrun'.symm.trans hr
    exact ((hruns.sound.advance hturn).conclusion hruns.sound (hrun ▸ h.terminal)).trans hrun
  case told =>
    have hevents := m.announces happens
    cases hevent : Engine.Moment.event? ⟨s.engine, y⟩ with
    | none =>
      rw [hevent, Option.toList_none, List.append_nil] at hevents
      simpa only [Engine.eventsOf, hevents] using h.told
    | some event =>
      rw [hevent] at hevents
      refine Engine.isFinal_of_mem_eventsOf hevents h.told fun hid hfinal => ?_
      -- the end that is announced is that of the record of the run
      obtain ⟨store', m'⟩ := m.on_store happens store
      obtain rfl := Engine.event?_eq_some hevent
      cases event with
      | runStarted | nodeStarted | nodeFinished => cases hfinal
      | runFinished execution status error =>
        obtain ⟨_, hr', -, -, heq⟩ := Engine.over_of_emit entered lives m'
        cases hr'.symm.trans hr
        rw [heq, Event.ofEnded_eq, hrun, hruns.id_eq]

/-- Only the refusal of the run is yet to be announced, if anything. -/
theorem stride {i : Nat} {c : Caller} {p : Prepared} {next : StartCall} {e : Engine} (h : s.Concludes id x)
    (hchronicle : Chronicle e₀ past s) (hc : s.callers[i]? = some c) (hcarried : c.call.carried? = some p)
    (hid : p.execution.id = id) (hstep : c.call.step? s.engine = some (next, e)) :
    Desk.Concludes ⟨e, s.callers.set i { c with call := next }⟩ id x := by
  have hmem := List.mem_of_getElem? hc
  obtain ⟨q, hcall, -, hconclusion⟩ := h.called c hmem ⟨p, hcarried, hid⟩
  rw [hcall] at hcarried hstep
  cases hcarried
  have hs := StartCall.strides_of_step? hstep
  obtain ⟨hids, hnamed | ⟨-, r, types, hprepare, -⟩⟩ := hs.ids_eq
  case inr => cases hprepare
  obtain ⟨hstore, hactive⟩ := hs.of_announce
  have hrun : e.run? id = s.engine.run? id := Engine.run?_congr hactive
  cases hplan : p.plan with
  | ok plan =>
    obtain ⟨r, -, haccepted⟩ := (hchronicle.made p (hchronicle.carried c hmem p (by rw [hcall]; rfl))).accepted hplan
    have hrunning : p.execution.conclusion.status = .running := haccepted.status
    have hterm := h.terminal
    rw [← hconclusion, hrunning] at hterm
    cases hterm
  | error f =>
    cases hs with
    | announced hok => rw [hplan] at hok; cases hok
    | refused =>
      refine
        { terminal := h.terminal
          kept := hstore ▸ h.kept
          alive := fun run hr => h.alive run (hrun ▸ hr)
          told := ?_
          called := fun b hb hbears => ?_
          named := hids.symm ▸ hnamed.1.symm ▸ h.named }
      · have hevents : ((StartCall.unlock s.engine p.execution.idempotencyKey).announce (.ofEnded p.execution)).events =
            s.engine.events ++ [.ofEnded p.execution] := by rw [StartCall.unlock_eq]; rfl
        exact Engine.isFinal_of_mem_eventsOf hevents h.told fun _ _ => by rw [Event.ofEnded_eq, hconclusion, hid]
      · rcases List.mem_or_eq_of_mem_set hb with hb | rfl
        · exact h.called b hb hbears
        · obtain ⟨q, hq, -⟩ := hbears
          cases hq

/-- What spares a run leaves how it has ended. -/
theorem spared (h : s.Concludes id x) (hs : s.Spares id s')
    (hnamed : s'.engine.ids = s.engine.ids ∧ s.engine.runsNamed ≤ s'.engine.runsNamed) : s'.Concludes id x where
  terminal := h.terminal
  kept := fun k hk => hs.engine.kept.elim (fun hsame => h.kept k (hsame ▸ hk)) fun ⟨hnone, _⟩ =>
    absurd (hnone.symm.trans hk) nofun
  alive := hs.engine.run ▸ h.alive
  told := hs.engine.events ▸ h.told
  called := fun c hc hbears => by
    obtain ⟨j, hj⟩ := List.mem_iff_getElem?.mp hc
    exact h.called c (List.mem_of_getElem? ((hs.callers j c hbears).mp hj)) hbears
  named := fun n hn => hnamed.1 ▸ h.named n (hnamed.2.trans hn)

/-- Nothing that happens changes how a run has ended. -/
theorem goes (h : s.Concludes id x) (hchronicle : Chronicle e₀ past s) (g : s.Goes more s') : s'.Concludes id x := by
  have hnamed := g.named
  cases hchronicle.concerns id g with
  | spared hs => exact h.spared hs hnamed
  | turn m happens hr => exact h.turn hchronicle m happens hr
  | carried hc hcarried hid hstep => exact h.stride hchronicle hc hcarried hid hstep
  | made _ _ _ hnew => exact absurd hnew (h.named _ (Nat.le_refl _))

end Desk.Concludes

/-- Something tells that the run has come to its end: the record that is kept, or an event. -/
def Desk.ShowsEnd (s : Desk) (id : String) : Prop :=
  (∃ k, s.engine.store.kept? id = some k ∧ k.status.isTerminal = true) ∨
    ∃ event ∈ s.engine.eventsOf id, event.isFinal = true

/-- A run that lives, or has lived, and of which something tells that it has ended. -/
theorem Stage.concludes_of_lives {r : StartRequest} {plan : Plan} {e₁ : Engine} {life : List Engine.Moment} {store : Store}
    (entered : Engine.Enters r plan p.execution.id e₁)
    (lives : Engine.Lives p.execution.id e₁ life (s.engine.onStore store))
    (kept : s.engine.store.kept? p.execution.id = none ∨
      s.engine.store.kept? p.execution.id = store.kept? p.execution.id)
    (free : ¬ s.Bears p.execution.id)
    (told : s.engine.eventsOf p.execution.id =
      .runStarted p.execution.id p.execution.workflowId :: Engine.emitted life)
    (hnamed : ∀ n, s.engine.runsNamed ≤ n → s.engine.ids.run n ≠ p.execution.id) (hshows : s.ShowsEnd p.execution.id) :
    ∃ x, s.Concludes p.execution.id x := by
  have hlater : ∀ event ∈ s.engine.eventsOf p.execution.id, event.isFinal = true → event ∈ Engine.emitted life := by
    intro event hevent hfinal
    rw [told] at hevent
    rcases List.mem_cons.mp hevent with rfl | hevent
    · cases hfinal
    · exact hevent
  obtain ⟨k, hk, hterm⟩ : ∃ k, store.kept? p.execution.id = some k ∧ k.conclusion.status.isTerminal = true := by
    rcases hshows with ⟨k, hk, hterm⟩ | ⟨event, hevent, hfinal⟩
    · have hsame := kept.resolve_left (hk ▸ Option.some_ne_none k)
      exact ⟨k, hsame.symm.trans hk, by rwa [Kept.status_conclusion]⟩
    · obtain ⟨k, record, hk, hof, hterm, -, -⟩ := lives.kept_of_final entered (hlater event hevent hfinal) hfinal
      exact ⟨k, hk, hof.conclusion ▸ hterm⟩
  refine ⟨k.conclusion, hterm, fun k' hk' => ?_, fun run hr => lives.conclusion_of_kept entered hr hk hterm,
    fun event hevent hfinal => ?_, fun c hc hbears => absurd ⟨c, hc, hbears⟩ free, hnamed⟩
  · have hsame := kept.resolve_left (hk' ▸ Option.some_ne_none k')
    cases hk'.symm.trans (hsame.trans hk)
    rfl
  · obtain ⟨k', record, hk', hof, -, hid, rfl⟩ := lives.kept_of_final entered (hlater event hevent hfinal) hfinal
    cases hk'.symm.trans hk
    rw [Event.ofEnded_eq, hof.conclusion, hid]

/-- A run that shows its end has ended in one way. -/
theorem Stage.concludes (h : Stage past s p) (hmade : p.IsMade)
    (hnamed : ∀ n, s.engine.runsNamed ≤ n → s.engine.ids.run n ≠ p.execution.id) (hshows : s.ShowsEnd p.execution.id) :
    ∃ x, s.Concludes p.execution.id x := by
  have hsilent : s.engine.eventsOf p.execution.id = [] →
      ∃ k, s.engine.store.kept? p.execution.id = some k ∧ k.status.isTerminal = true := fun hnone =>
    hshows.resolve_right fun ⟨event, hevent, _⟩ => by rw [hnone] at hevent; cases hevent
  have hunkept : s.engine.store.kept? p.execution.id = none → s.engine.eventsOf p.execution.id = [] → False :=
    fun hnone hquiet => by
      obtain ⟨k, hk, -⟩ := hsilent hquiet
      exact absurd (hnone.symm.trans hk) nofun
  have hgone : ∀ {y : Conclusion}, s.engine.run? p.execution.id = none →
      ∀ run, s.engine.run? p.execution.id = some run → run.coordinator.execution.conclusion = y :=
    fun hnone run hr => absurd (hnone.symm.trans hr) nofun
  cases h with
  | made _ _ _ _ unkept silent => exact (hunkept unkept silent).elim
  | dropped _ _ unkept silent => exact (hunkept unkept silent).elim
  | @recorded place c _ _ hc call only gone create kept silent =>
    obtain ⟨k, hk, hterm⟩ := hsilent silent
    have hof := kept.of create
    refine ⟨p.execution.conclusion, ?_, fun k' hk' => (hof k' hk').conclusion, hgone gone, ?_, fun b hb hbears => ?_, hnamed⟩
    · rw [← (hof k hk).conclusion, Kept.status_conclusion]
      exact hterm
    · rw [silent]
      nofun
    · obtain ⟨j, hj⟩ := List.mem_iff_getElem?.mp hb
      obtain rfl := only j b hj hbears
      cases hj.symm.trans hc
      exact ⟨p, call, rfl, rfl⟩
  | @announced _ _ plan _ _ _ _ _ _ _ gone create announce kept told =>
    -- its record is running, and nothing but its start is told
    obtain ⟨r, -, haccepted⟩ := hmade.accepted (plan_of_announce announce)
    rcases hshows with ⟨k, hk, hterm⟩ | ⟨event, hevent, hfinal⟩
    · rw [(kept.of create k hk).status, haccepted.status] at hterm
      cases hterm
    · rw [told] at hevent
      cases List.mem_singleton.mp hevent
      cases hfinal
  | refused planned free gone create kept told =>
    refine ⟨p.execution.conclusion, ?_, fun k hk => (kept.of create k hk).conclusion, hgone gone, ?_,
      fun c hc hbears => absurd ⟨c, hc, hbears⟩ free, hnamed⟩
    · have hstatus : p.execution.conclusion.status = .error := (hmade.refused planned).1
      rw [hstatus]
      rfl
    · rw [told]
      exact fun event hevent _ => List.mem_singleton.mp hevent
  | living _ _ _ entered lives kept free told => exact concludes_of_lives entered lives kept free told hnamed hshows

/-- Whatever tells of the end of an execution tells the same. -/
theorem Chronicle.concludes (h : Chronicle e₀ past s) (hdistinct : Function.Injective e₀.ids.run)
    (hshows : s.ShowsEnd id) : ∃ x, s.Concludes id x := by
  by_cases hmade : ∃ p : Prepared, p.MadeIn past ∧ p.execution.id = id
  · obtain ⟨p, hp, rfl⟩ := hmade
    refine (h.stages p hp).concludes (h.made p hp) (fun n hn => ?_) hshows
    rw [h.ids]
    exact (h.id_ne_of_unnamed hdistinct hn p hp).symm
  · have hother : ∀ p : Prepared, p.MadeIn past → p.execution.id ≠ id := fun p hp hid => hmade ⟨p, hp, hid⟩
    obtain ⟨hgone, hsilent⟩ := h.others id hother
    rcases hshows with ⟨k, hk, hterm⟩ | ⟨event, hevent, -⟩
    · refine ⟨k.conclusion, by rwa [Kept.status_conclusion], fun k' hk' => ?_, fun run hr => absurd (hgone.symm.trans hr) nofun,
        by rw [hsilent]; nofun, fun c hc hbears => ?_, fun n hn heq => ?_⟩
      · cases hk'.symm.trans hk
        rfl
      · obtain ⟨p, hp, hid⟩ := hbears
        exact absurd hid (hother p (h.carried c hc p hp))
      · rw [h.ids] at heq
        have hnone := h.unused n hn
        rw [heq] at hnone
        exact absurd (hnone.symm.trans hk) nofun
    · rw [hsilent] at hevent
      cases hevent

end
end Workflows
