/-
  Workflows.Proofs.Engine.Requests — what the runs of a history ask for when they fail.

  A run that ends in error asks for the workflow that is to handle its failure as it ends, before
  those who wait for it are told. The request tells of the record the run ends with, and of what
  triggered the run (`ErrorRequest.Reports`); both are there even if the record forgets its
  payloads. How far a run has come with it is kept by every step (`Asks.goes`), so that a run has
  asked for what its record calls for once it is gone, and for nothing before it ends
  (`Hosts.asks`).
-/

import Workflows.Proofs.Engine.Chains
import Workflows.Proofs.Engine.Onward
import Workflows.Proofs.Engine.Records

namespace Workflows

/-! ## What a request tells -/

namespace ErrorRequest

/-- The execution whose failure is to be handled. -/
def executionId (q : ErrorRequest) : String := ((q.trigger.member "error").member "executionId").textOf

end ErrorRequest

namespace Coordinator

variable {c : Coordinator} {q : ErrorRequest}

end Coordinator

/-! ## What a history tells of requests -/

/-- The request that is raised, and the run that raises it. -/
def Entry.request? : Entry → Option (String × ErrorRequest)
  | .turn id (.step (some (.request q))) => some (id, q)
  | _ => none

/-- The requests that have been raised, in order. -/
def requestsIn (past : List Entry) : List (String × ErrorRequest) := past.filterMap Entry.request?

/-- The requests that a run has raised. -/
def raisedBy (id : String) (past : List Entry) : List ErrorRequest := ((requestsIn past).filter (·.1 = id)).map (·.2)

section

variable {past more : List Entry} {id other : String} {q : ErrorRequest} {x : Happening}

theorem mem_raisedBy : q ∈ raisedBy id past ↔ (id, q) ∈ requestsIn past := by
  simp only [raisedBy, List.mem_map, List.mem_filter, decide_eq_true_eq]
  exact ⟨fun ⟨_, ⟨hmem, hid⟩, hq⟩ => hid ▸ hq ▸ hmem, fun h => ⟨_, ⟨h, rfl⟩, rfl⟩⟩

theorem requestsIn_append : requestsIn (past ++ more) = requestsIn past ++ requestsIn more := List.filterMap_append

theorem raisedBy_append : raisedBy id (past ++ more) = raisedBy id past ++ raisedBy id more := by
  rw [raisedBy, requestsIn_append, List.filter_append, List.map_append, raisedBy, raisedBy]

theorem requestsIn_turn (e : Engine) : requestsIn [.turn id x] = (Engine.Moment.request? ⟨e, x⟩).toList.map (id, ·) := by
  simp only [requestsIn, List.filterMap_cons, List.filterMap_nil, Engine.Moment.request?]
  cases x with
  | step effect =>
    cases effect with
    | none => rfl
    | some effect => cases effect <;> rfl
  | _ => rfl

theorem raisedBy_turn (e : Engine) : raisedBy id [.turn id x] = (Engine.Moment.request? ⟨e, x⟩).toList := by
  rw [raisedBy, requestsIn_turn e]
  cases Engine.Moment.request? ⟨e, x⟩ <;> simp

/-- A run that is at most asked to cancel raises nothing. -/
theorem raisedBy_of_quiet (h : ∀ x, .turn id x ∈ more → x = .cancel) : raisedBy id more = [] := by
  refine List.eq_nil_iff_forall_not_mem.mpr fun q hq => ?_
  obtain ⟨entry, hentry, hraises⟩ := List.mem_filterMap.mp (mem_raisedBy.mp hq)
  unfold Entry.request? at hraises
  split at hraises
  · cases hraises
    exact absurd (h _ hentry) nofun
  · cases hraises

end

/-! ## The queue -/

section

variable {e e' : Engine} {id : String} {x : Happening} {s s' : Desk} {more : List Entry}

theorem Engine.requests_write (f : Store → Except Failure Store) : (e.write f).requests = e.requests := by
  unfold write
  split <;> rfl

/-- A turn puts the request that the run raises at the end of the queue. -/
theorem Engine.Moves.requests_eq (m : e.Moves id x e') (happens : x ≠ .elsewhere) :
    e'.requests = e.requests ++ (Moment.request? ⟨e, x⟩).toList := by
  cases m with
  | @step _ effect h =>
    obtain ⟨run, c, -, -, rfl⟩ := stepRun?_eq_some h
    cases effect with
    | none => exact (List.append_nil _).symm
    | some f =>
      cases f with
      | request q => rfl
      | save record =>
        exact (requests_write (e := e.withCoordinator id c) (·.update record)).trans (List.append_nil _).symm
      | saveNode execution r =>
        exact (requests_write (e := e.withCoordinator id c) (·.putNode execution r)).trans (List.append_nil _).symm
      | emit | launch | cancel | signalDone | leave => exact (List.append_nil _).symm
  | cancel | timeUp | finished => exact (List.append_nil _).symm
  | elsewhere => exact absurd rfl happens

theorem StartCall.Strides.requests_eq {call next : StartCall} (h : Strides call e next e') : e'.requests = e.requests := by
  cases h with
  | uncreated | announced | refused => rw [unlock_eq]; try rfl
  | _ => rfl

/-- The queue grows by what is raised, or its first request is taken up. -/
theorem Desk.Goes.requests_eq (g : s.Goes more s') :
    s'.engine.requests = s.engine.requests ++ (requestsIn more).map (·.2) ∨ ∃ q, s.engine.requests = q :: s'.engine.requests := by
  cases g with
  | asked | given | pruned => exact .inl (List.append_nil _).symm
  | stride hc hstep => exact .inl ((StartCall.strides_of_step? hstep).requests_eq.trans (List.append_nil _).symm)
  | @turn id x e m happens =>
    left
    rw [m.requests_eq happens, requestsIn_turn s.engine, List.map_map]
    exact congrArg _ (List.map_id _).symm
  | aside m =>
    obtain ⟨_, _, _, _, _, rfl, hrequests, -⟩ := m.eq
    exact hrequests.imp_left fun hsame => hsame.trans (List.append_nil _).symm

end

/-! ## The run that asks -/

/-- This coordinator leads the run. -/
structure Prepared.LedBy (p : Prepared) (c : Coordinator) : Prop where
  accepted : p.plan.isOk = true
  definition : c.definition = p.definition
  origin : c.execution.origin = p.execution.origin
  workflow : c.execution.workflowId = p.definition.key
  settled : c.execution.Settled
  ended : c.closing = true → c.execution.isTerminal = true

/-- The run has ended and is gone; this coordinator led it. -/
structure Desk.LeftBehind (s : Desk) (p : Prepared) (c : Coordinator) : Prop where
  led : p.LedBy c
  closing : c.closing = true
  gone : s.engine.run? p.execution.id = none
  free : ¬ s.Bears p.execution.id
  told : .ofEnded c.execution ∈ s.engine.events
  kept : ∀ k, s.engine.store.kept? p.execution.id = some k → k.Of c.execution

/-- How far a run has come with asking for a handler of its failure. -/
inductive Asks (past : List Entry) (s : Desk) (id : String) : Prop
  /-- It is yet to be entered, or never is. -/
  | before (gone : s.engine.run? id = none) (unstarted : s.Bears id ∨ ∀ workflow, .runStarted id workflow ∉ s.engine.events)
      (unasked : raisedBy id past = [])
  | alive {run : ActiveRun} (hr : s.engine.run? id = some run)
      (asked : raisedBy id past ++ run.coordinator.toAsk =
        if run.coordinator.closing then run.coordinator.errorRequest?.toList else [])
  | ended {p : Prepared} {c : Coordinator} (made : p.MadeIn past) (hid : p.execution.id = id) (behind : s.LeftBehind p c)
      (asked : raisedBy id past = c.errorRequest?.toList)

section

variable {e₀ : Engine} {past more : List Entry} {s s' : Desk} {p : Prepared} {id : String} {c : Coordinator} {q : ErrorRequest}

namespace Prepared.LedBy

theorem id_eq (h : p.LedBy c) : c.execution.id = p.execution.id := congrArg Execution.Origin.id h.origin

end Prepared.LedBy

/-- Whoever leads a run that is alive. -/
theorem Stage.ledBy {run : ActiveRun} (h : Stage past s p) (hr : s.engine.run? p.execution.id = some run) :
    p.LedBy run.coordinator := by
  cases h with
  | living request origin planned entered lives kept free told timed ports =>
    have hruns := lives.runs entered hr
    exact
      { accepted := by rw [planned]; rfl
        definition := hruns.definition.trans request
        origin := hruns.origin.trans origin.symm
        workflow := (congrArg Execution.Origin.workflowId hruns.origin).trans (request ▸ rfl)
        settled := (lives.isSound entered hr ports).settled
        ended := hruns.sound.isTerminal_of_closing }
  | made _ _ _ gone | dropped _ gone | recorded _ _ _ gone | announced _ _ _ gone | refused _ _ gone =>
    exact absurd (gone.symm.trans hr) nofun

/-- What a run leaves behind whose last turn this is. -/
theorem Stage.leftBehind {run : ActiveRun} {x : Happening} {e : Engine} (h : Stage past s p)
    (m : s.engine.Moves p.execution.id x e) (happens : x ≠ .elsewhere) (hr : s.engine.run? p.execution.id = some run)
    (hgone : e.run? p.execution.id = none) :
    x = .step (some .leave) ∧ run.coordinator.errands = [.leave] ∧ Desk.LeftBehind { s with engine := e } p run.coordinator := by
  have hled := h.ledBy hr
  cases h with
  | living request origin planned entered lives kept free told timed ports =>
    obtain ⟨store', m'⟩ := m.on_store happens _
    obtain ⟨rfl, herrands, hclosing⟩ := lives.last entered m' hr hgone
    refine ⟨rfl, herrands, hled, hclosing, hgone, free, ?_, fun k hk => ?_⟩
    · obtain ⟨body, hheard, -⟩ := (lives.told entered hr).ended hclosing
      rw [Engine.heard, herrands] at hheard
      have hmem : .ofEnded run.coordinator.execution ∈ s.engine.eventsOf p.execution.id := by
        rw [told, show Engine.emitted _ = body ++ _ from (List.append_nil _).symm.trans hheard]
        exact List.mem_cons_of_mem _ (List.mem_append_right _ (List.mem_singleton.mpr rfl))
      exact m.announces happens ▸ List.mem_append_left _ (List.mem_filter.mp hmem).1
    · obtain ⟨k', hk', hmirrored⟩ := lives.mirrored entered hr
      have hsame : e.store.kept? p.execution.id = s.engine.store.kept? p.execution.id := m.kept?_of_not_writes rfl
      have hk := hsame.symm.trans hk
      cases hk.symm.trans ((kept.resolve_left (hk ▸ Option.some_ne_none k)).trans hk')
      exact hmirrored.of_over (by rw [herrands]; simp [Errand.isVisible])
  | made _ _ _ gone | dropped _ gone | recorded _ _ _ gone | announced _ _ _ gone | refused _ _ gone =>
    exact absurd (hr.symm.trans gone) (Option.some_ne_none run)

/-- What is left behind stays, unless it is pruned. -/
theorem Desk.LeftBehind.spared (h : s.LeftBehind p c) (hs : s.Spares p.execution.id s')
    (hgrow : s.engine.events <+: s'.engine.events) : s'.LeftBehind p c where
  led := h.led
  closing := h.closing
  gone := hs.engine.run.trans h.gone
  free := mt hs.bears_iff.mp h.free
  told := hgrow.subset h.told
  kept := fun k hk => hs.engine.kept.elim (fun hsame => h.kept k (hsame.symm.trans hk)) fun hpruned =>
    absurd (hpruned.1.symm.trans hk) nofun

theorem Stage.Carried.gone {place : Nat} {call : StartCall} (h : Stage.Carried s p place call) :
    s.engine.run? p.execution.id = none := by
  cases h <;> assumption

/-! ## One step further -/

namespace Asks

/-- A run of which nothing has been announced has not started. -/
theorem unstarted_of_silent {e : Engine} (h : e.eventsOf id = []) (workflow : String) :
    .runStarted id workflow ∉ e.events := fun hmem => by
  have hevent : .runStarted id workflow ∈ e.eventsOf id := List.mem_filter.mpr ⟨hmem, decide_eq_true rfl⟩
  rw [h] at hevent
  cases hevent

theorem spared (h : Asks past s id) (hs : s.Spares id s') (hgrow : s.engine.events <+: s'.engine.events)
    (quiet : ∀ x, .turn id x ∈ more → x = .cancel) : Asks (past ++ more) s' id := by
  have hraised : raisedBy id (past ++ more) = raisedBy id past := by
    rw [raisedBy_append, raisedBy_of_quiet quiet, List.append_nil]
  cases h with
  | before gone unstarted unasked =>
    refine .before (hs.engine.run.trans gone) (unstarted.imp hs.bears_iff.mpr fun hnone workflow hmem => ?_)
      (hraised.trans unasked)
    have hevent : .runStarted id workflow ∈ s'.engine.eventsOf id := List.mem_filter.mpr ⟨hmem, decide_eq_true rfl⟩
    rw [hs.engine.events] at hevent
    exact hnone workflow (List.mem_filter.mp hevent).1
  | alive hr asked => exact .alive (hs.engine.run.trans hr) (hraised.symm ▸ asked)
  | ended made hid behind asked =>
    subst hid
    exact .ended made.append rfl (behind.spared hs hgrow) (hraised.trans asked)

theorem turn {x : Happening} {run : ActiveRun} {e : Engine} (h : Asks past s id) (hchronicle : Chronicle e₀ past s)
    (m : s.engine.Moves id x e) (happens : x ≠ .elsewhere) (hr : s.engine.run? id = some run) :
    Asks (past ++ [.turn id x]) { s with engine := e } id := by
  cases h with
  | before gone => exact absurd (gone.symm.trans hr) nofun
  | ended made hid behind => exact absurd ((hid ▸ behind.gone).symm.trans hr) nofun
  | alive hr' asked =>
    cases hr'.symm.trans hr
    obtain ⟨p, hp, rfl⟩ := hchronicle.of_alive hr
    have hstage := hchronicle.stages p hp
    cases hafter : e.run? p.execution.id with
    | none =>
      obtain ⟨rfl, herrands, behind⟩ := hstage.leftBehind m happens hr hafter
      refine .ended hp.append rfl behind ?_
      rw [Coordinator.toAsk, herrands, behind.closing] at asked
      rw [raisedBy_append, raisedBy_turn s.engine]
      exact asked
    | some run' =>
      obtain ⟨_, hrun, hturn, -⟩ := m.turn hafter
      cases hrun.symm.trans hr
      obtain ⟨r, plan, e₁, life, store, -, -, entered, lives⟩ := hstage.of_alive hr
      have hsound := (lives.runs entered hr).sound
      refine .alive hafter ?_
      rw [raisedBy_append, raisedBy_turn s.engine]
      exact Engine.asks_advance s.engine (hsound.advance hturn) hsound asked

/-- The call that carries a run takes a step: the run has asked for nothing yet. -/
theorem carried {i : Nat} {b : Caller} {next : StartCall} {e : Engine} (h : Asks past s id)
    (hchronicle : Chronicle e₀ past s) (hb : s.callers[i]? = some b) (hcarried : b.call.carried? = some p)
    (hid : p.execution.id = id) (hstep : b.call.step? s.engine = some (next, e)) :
    Asks (past ++ [.stride ⟨i, b, next, s.engine, e⟩]) ⟨e, s.callers.set i { b with call := next }⟩ id := by
  subst hid
  have hmem := List.mem_of_getElem? hb
  have hp := hchronicle.carried b hmem p hcarried
  have hraised : raisedBy p.execution.id (past ++ [.stride ⟨i, b, next, s.engine, e⟩]) = raisedBy p.execution.id past :=
    raisedBy_append.trans (List.append_nil _)
  -- a call carries the run still after the step
  have hbears : next.carried? = some p → Desk.Bears ⟨e, s.callers.set i { b with call := next }⟩ p.execution.id := fun hnext =>
    ⟨_, List.mem_of_getElem? (Office.getElem?_set_self hb), p, hnext, rfl⟩
  have hstage := (hchronicle.stages p hp).carried hb hcarried
  have hgone := hstage.gone
  cases h with
  | alive hr => exact absurd (hgone.symm.trans hr) nofun
  | ended made hid behind => exact absurd ⟨b, hmem, p, hcarried, rfl⟩ (hid ▸ behind.free)
  | before _ _ unasked =>
    have hs := StartCall.strides_of_step? hstep
    generalize b.call = call at hstage hs
    cases hstage with
    | create only gone unkept silent =>
      cases hs with
      | created => exact .before hgone (.inl (hbears rfl)) (hraised.trans unasked)
      | uncreated =>
        refine .before ?_ (.inr (unstarted_of_silent ?_)) (hraised.trans unasked) <;> rw [StartCall.unlock_eq]
        exacts [gone, silent]
    | announce only gone create kept silent =>
      have hrun := (Engine.run?_congr hs.of_announce.2).trans gone
      cases hs with
      | announced => exact .before hrun (.inl (hbears rfl)) (hraised.trans unasked)
      | refused =>
        refine .before hrun (.inr fun workflow hmem => ?_) (hraised.trans unasked)
        rw [StartCall.unlock_eq] at hmem
        rcases List.mem_append.mp hmem with hmem | hmem
        · exact unstarted_of_silent silent workflow hmem
        · cases List.mem_singleton.mp hmem
    | enter only gone create announce kept told =>
      cases hs with
      | entered =>
        refine .alive (Engine.run?_entered gone _) ?_
        rw [hraised, unasked]
        rfl

theorem goes (h : Asks past s id) (hchronicle : Chronicle e₀ past s) (hdistinct : Function.Injective e₀.ids.run)
    (g : s.Goes more s') : Asks (past ++ more) s' id := by
  have hgrow := g.events_grow
  cases hchronicle.concerns id g with
  | spared hs quiet => exact h.spared hs hgrow quiet
  | turn m happens hr => exact h.turn hchronicle m happens hr
  | carried hb hcarried hid hstep => exact h.carried hchronicle hb hcarried hid hstep
  | @made i b p e hb hspares hid hnew =>
    -- the run has just been given its id
    have hunnamed : ∀ q : Prepared, q.MadeIn past → q.execution.id ≠ id := fun q hq heq =>
      hchronicle.id_ne_of_unnamed hdistinct (Nat.le_refl _) q hq (heq.trans (hchronicle.ids ▸ hnew.symm))
    cases h with
    | before gone _ unasked =>
      refine .before (hspares.run.trans gone) (.inl ⟨_, List.mem_of_getElem? (Office.getElem?_set_self hb), p, rfl, hid⟩) ?_
      exact raisedBy_append.trans ((List.append_nil _).trans unasked)
    | alive hr =>
      obtain ⟨q, hq, hid⟩ := hchronicle.of_alive hr
      exact absurd hid (hunnamed q hq)
    | ended made hid => exact absurd hid (hunnamed _ made)

end Asks

/-- At every point of a history every run has asked for what its record calls for, or is about to. -/
theorem Engine.Hosts.asks (h₀ : e₀.IsReady) (h : Hosts e₀ past s) (id : String) : Asks past s id := by
  refine h.induction (motive := fun past s => Asks past s id) ?_ fun past more s s' h g ih => ih.goes (h.chronicle h₀) h₀.distinct g
  refine .before ?_ (.inr fun workflow => ?_) rfl
  · rw [run?, h₀.new.idle]
    rfl
  · rw [h₀.new.silent]
    exact List.not_mem_nil

/-- Whatever has been asked for was asked for by a run that was accepted. -/
theorem Asks.ledBy (h : Asks past s id) (hchronicle : Chronicle e₀ past s) (hq : q ∈ raisedBy id past) :
    ∃ p c, Prepared.MadeIn p past ∧ p.execution.id = id ∧ p.LedBy c ∧ q ∈ c.errorRequest?.toList := by
  cases h with
  | before _ _ unasked => rw [unasked] at hq; cases hq
  | @alive run hr asked =>
    obtain ⟨p, hp, rfl⟩ := hchronicle.of_alive hr
    have hmem := asked ▸ List.mem_append_left run.coordinator.toAsk hq
    split at hmem
    · exact ⟨p, _, hp, rfl, (hchronicle.stages p hp).ledBy hr, hmem⟩
    · cases hmem
  | ended made hid behind asked => exact ⟨_, _, made, hid, behind.led, asked ▸ hq⟩

end
end Workflows
