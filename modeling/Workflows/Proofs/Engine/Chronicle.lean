/-
  Workflows.Proofs.Engine.Chronicle — how far every run has come, at every point of a history.

  Once its record is made a run is carried by one call that puts the record into the store,
  announces it and enters the run, if it is accepted; after that it lives (`Stage`). At each stage
  it is settled what is kept of the run, unless it has been pruned, and what has been announced
  of it. Every step keeps all runs at their stages or takes one of them to the next
  (`Hosts.chronicle`).
-/

import Workflows.Proofs.Engine.Phases
import Workflows.Proofs.Engine.Pruned

namespace Workflows

/-- Some call has made the record of the run. -/
def Prepared.MadeIn (p : Prepared) (past : List Entry) : Prop := ∃ t, .stride t ∈ past ∧ t.next = .create p

/-- What was kept of the run when it was recorded is kept still; that of a refused one may have been
pruned. -/
def Prepared.KeptSince (p : Prepared) (recorded e : Engine) : Prop :=
  e.store.kept? p.execution.id = recorded.store.kept? p.execution.id ∨
    p.plan.isOk = false ∧ e.store.kept? p.execution.id = none

/-- Some call is about to record the run, to announce it or to enter it. -/
def Desk.Bears (s : Desk) (id : String) : Prop := ∃ c ∈ s.callers, c.Bears id

/-- How far a run has come whose record has been made. -/
inductive Stage (past : List Entry) (s : Desk) (p : Prepared) : Prop
  | made {place : Nat} {c : Caller} (hc : s.callers[place]? = some c) (call : c.call = .create p)
      (only : ∀ j b, s.callers[j]? = some b → b.Bears p.execution.id → j = place)
      (gone : s.engine.run? p.execution.id = none) (unkept : s.engine.store.kept? p.execution.id = none)
      (silent : s.engine.eventsOf p.execution.id = [])
  /-- The store has not taken the record. -/
  | dropped (free : ¬ s.Bears p.execution.id) (gone : s.engine.run? p.execution.id = none)
      (unkept : s.engine.store.kept? p.execution.id = none) (silent : s.engine.eventsOf p.execution.id = [])
  | recorded {place : Nat} {c : Caller} {e₂ e₃ : Engine} (hc : s.callers[place]? = some c) (call : c.call = .announce p)
      (only : ∀ j b, s.callers[j]? = some b → b.Bears p.execution.id → j = place)
      (gone : s.engine.run? p.execution.id = none)
      (create : (StartCall.create p).step? e₂ = some (.announce p, e₃)) (kept : p.KeptSince e₃ s.engine)
      (silent : s.engine.eventsOf p.execution.id = [])
  | announced {place : Nat} {c : Caller} {plan : Plan} {e₂ e₃ e₄ e₅ : Engine} (hc : s.callers[place]? = some c)
      (call : c.call = .enter p plan)
      (only : ∀ j b, s.callers[j]? = some b → b.Bears p.execution.id → j = place)
      (gone : s.engine.run? p.execution.id = none)
      (create : (StartCall.create p).step? e₂ = some (.announce p, e₃))
      (announce : (StartCall.announce p).step? e₄ = some (.enter p plan, e₅)) (kept : p.KeptSince e₃ s.engine)
      (told : s.engine.eventsOf p.execution.id = [.runStarted p.execution.id p.execution.workflowId])
  | refused {f : Failure} {e₂ e₃ : Engine} (planned : p.plan = .error f) (free : ¬ s.Bears p.execution.id)
      (gone : s.engine.run? p.execution.id = none)
      (create : (StartCall.create p).step? e₂ = some (.announce p, e₃)) (kept : p.KeptSince e₃ s.engine)
      (told : s.engine.eventsOf p.execution.id = [.ofEnded p.execution])
  /-- Its life is told as if nothing had been pruned: `store` keeps what the store has kept, or would. -/
  | living {r : StartRequest} {plan : Plan} {e₁ : Engine} {life : List Engine.Moment} {store : Store}
      (request : r.definition = p.definition) (origin : p.execution.origin = r.origin p.execution.id)
      (planned : p.plan = .ok plan)
      (entered : Engine.Enters r plan p.execution.id e₁)
      (lives : Engine.Lives p.execution.id e₁ life (s.engine.onStore store))
      (kept : s.engine.store.kept? p.execution.id = none ∨
        s.engine.store.kept? p.execution.id = store.kept? p.execution.id)
      (free : ¬ s.Bears p.execution.id)
      (told : s.engine.eventsOf p.execution.id =
        .runStarted p.execution.id p.execution.workflowId :: Engine.emitted life)
      (timed : ∀ m ∈ life, m.happening = .timeUp → .turn p.execution.id .timeUp ∈ past)
      (ports : ∀ m ∈ life, ∀ node ports, m.happening = .finished node (.ok ports) → Keyed.Sorted ports)

section

variable {past past' : List Entry} {s s' : Desk} {p q : Prepared} {id : String} {e e' : Engine}

theorem Desk.Spares.bears_iff (h : s.Spares id s') : s'.Bears id ↔ s.Bears id := by
  constructor
  · intro hbears
    obtain ⟨c, hc, hid⟩ := hbears
    obtain ⟨j, hj⟩ := List.mem_iff_getElem?.mp hc
    exact ⟨c, List.mem_of_getElem? ((h.callers j c hid).mp hj), hid⟩
  · intro hbears
    obtain ⟨c, hc, hid⟩ := hbears
    obtain ⟨j, hj⟩ := List.mem_iff_getElem?.mp hc
    exact ⟨c, List.mem_of_getElem? ((h.callers j c hid).mpr hj), hid⟩

/-- What is kept of a run that has been recorded. -/
theorem kept_of_create (hcreate : (StartCall.create p).step? e = some (.announce p, e')) :
    ∃ k, e'.store.kept? p.execution.id = some k ∧ k.Of p.execution := by
  cases StartCall.strides_of_step? hcreate with
  | created hstore => exact Store.kept?_of_create hstore

namespace Prepared

/-- The record of the run has been made for a request. -/
def IsMade (p : Prepared) : Prop := ∃ r types e, p = (StartCall.makeRecord r types e).1

/-- The record of the run is of the start it was made for. -/
theorem IsMade.step? (h : p.IsMade) : ∃ r types e e', r.definition = p.definition ∧
    p.execution.origin = r.origin p.execution.id ∧ (StartCall.prepare r types).step? e = some (.create p, e') := by
  obtain ⟨r, types, e, rfl⟩ := h
  exact ⟨r, types, e, _, rfl, StartCall.id_makeRecord r types e ▸ StartCall.origin_makeRecord r types e, rfl⟩

theorem IsMade.accepted {plan : Plan} (h : p.IsMade) (planned : p.plan = .ok plan) :
    ∃ r, r.definition = p.definition ∧ Engine.Accepted r plan p.execution.id p.execution := by
  obtain ⟨r, types, e, rfl⟩ := h
  exact ⟨r, rfl, (Engine.accepted_makeRecord planned).2⟩

theorem IsMade.stoppedAt {plan : Plan} (h : p.IsMade) (planned : p.plan = .ok plan) : p.execution.stoppedAt = none := by
  obtain ⟨r, types, e, rfl⟩ := h
  have hprepare : Engine.prepare r.definition types = .ok plan := planned
  simp only [StartCall.makeRecord, hprepare, StartCall.accepted]
  rfl

/-- The record of a run that is refused says so, and holds nothing of any node. -/
theorem IsMade.refused {f : Failure} (h : p.IsMade) (planned : p.plan = .error f) :
    p.execution.status = .error ∧ p.execution.error = some f.message ∧ p.execution.stoppedAt.isSome ∧
      p.execution.nodeResults = [] := by
  obtain ⟨r, types, e, rfl⟩ := h
  have hprepare : Engine.prepare r.definition types = .error f := planned
  simp only [StartCall.makeRecord, hprepare, StartCall.refused]
  exact ⟨rfl, trivial, rfl, rfl⟩

/-- What spares a run that has just been recorded leaves what is kept of it, if it is accepted. -/
theorem KeptSince.spared {e₂ e₃ : Engine} (h : p.KeptSince e₃ e) (hmade : p.IsMade)
    (hcreate : (StartCall.create p).step? e₂ = some (.announce p, e₃)) (hs : e.Spares p.execution.id e') :
    p.KeptSince e₃ e' := by
  rcases hs.kept with hsame | ⟨hnone, hended⟩
  · unfold KeptSince
    rw [hsame]
    exact h
  · cases hplan : p.plan with
    | error f => exact .inr ⟨by rw [hplan]; rfl, hnone⟩
    | ok plan =>
      -- it is running, and only what has ended is pruned
      obtain ⟨r, -, haccepted⟩ := hmade.accepted hplan
      obtain ⟨k, hk, hof⟩ := kept_of_create hcreate
      have hsince := h.resolve_right fun hrefused => by rw [hplan] at hrefused; cases hrefused.1
      have hterm := hended k (hsince.trans hk)
      rw [hof.status, haccepted.status] at hterm
      cases hterm

end Prepared

namespace Stage

/-- What spares a run leaves it at its stage. -/
theorem spared (h : Stage past s p) (hmade : p.IsMade) (hs : s.Spares p.execution.id s') (hpast : past ⊆ past') :
    Stage past' s' p := by
  have hplace : ∀ {j : Nat} {c : Caller}, s.callers[j]? = some c → c.call.carried? = some p →
      s'.callers[j]? = some c := fun hc hcall => (hs.callers _ _ ⟨p, hcall, rfl⟩).mpr hc
  have honly : ∀ {place : Nat}, (∀ j b, s.callers[j]? = some b → b.Bears p.execution.id → j = place) →
      ∀ j b, s'.callers[j]? = some b → b.Bears p.execution.id → j = place :=
    fun only j b hb hbears => only j b ((hs.callers j b hbears).mp hb) hbears
  have hfree : ¬ s.Bears p.execution.id → ¬ s'.Bears p.execution.id := mt hs.bears_iff.mp
  have hr := hs.engine.run
  have hev := hs.engine.events
  have hunkept : s.engine.store.kept? p.execution.id = none → s'.engine.store.kept? p.execution.id = none :=
    fun hnone => hs.engine.kept.elim (fun hsame => hsame.trans hnone) And.left
  cases h with
  | made hc call only gone unkept silent =>
    exact .made (hplace hc (by rw [call]; rfl)) call (honly only) (hr.trans gone) (hunkept unkept) (hev.trans silent)
  | dropped free gone unkept silent =>
    exact .dropped (hfree free) (hr.trans gone) (hunkept unkept) (hev.trans silent)
  | recorded hc call only gone create kept silent =>
    exact .recorded (hplace hc (by rw [call]; rfl)) call (honly only) (hr.trans gone) create (kept.spared hmade create hs.engine)
      (hev.trans silent)
  | announced hc call only gone create announce kept told =>
    exact .announced (hplace hc (by rw [call]; rfl)) call (honly only) (hr.trans gone) create announce
      (kept.spared hmade create hs.engine) (hev.trans told)
  | refused planned free gone create kept told =>
    exact .refused planned (hfree free) (hr.trans gone) create (kept.spared hmade create hs.engine) (hev.trans told)
  | @living r plan e₁ life store request origin planned entered lives kept free told timed ports =>
    have hlater : (s.engine.onStore store).Moves p.execution.id .elsewhere (s'.engine.onStore store) := .elsewhere hr rfl
    have hnext := lives.next hlater
    have hlife : ∀ m ∈ life ++ [⟨s.engine.onStore store, .elsewhere⟩], m ∈ life ∨ m.happening = .elsewhere :=
      fun m hm => (List.mem_append.mp hm).imp_right fun hlast => by rw [List.mem_singleton.mp hlast]
    have hkept := hs.engine.kept.elim (fun hsame => hsame.symm ▸ kept) fun hpruned => .inl hpruned.1
    refine .living request origin planned entered hnext hkept (hfree free) ?_ (fun m hm hup => ?_)
      fun m hm node out hout => ?_
    · rw [hev, told, Engine.emitted_append]
      exact congrArg _ (List.append_nil _).symm
    · rcases hlife m hm with hm | hm
      · exact hpast (timed m hm hup)
      · rw [hm] at hup
        cases hup
    · rcases hlife m hm with hm | hm
      · exact ports m hm node out hout
      · rw [hm] at hout
        cases hout

/-! ## The steps of the call that carries a run -/

section

variable {i : Nat} {c : Caller} {next : StartCall}

theorem only_set (hc : s.callers[i]? = some c)
    (only : ∀ j b, s.callers[j]? = some b → b.Bears id → j = i) :
    ∀ j b, (s.callers.set i { c with call := next })[j]? = some b → b.Bears id → j = i := by
  intro j b hb hbears
  rw [Office.getElem?_set_eq hc] at hb
  split at hb
  · assumption
  · exact only j b hb hbears

/-- When the one call that carried a run is over, none does. -/
theorem free_set (hc : s.callers[i]? = some c) (only : ∀ j b, s.callers[j]? = some b → b.Bears id → j = i)
    (hover : next.carried? = none) : ¬ Desk.Bears ⟨e, s.callers.set i { c with call := next }⟩ id := by
  rintro ⟨b, hb, hbears⟩
  obtain ⟨j, hj⟩ := List.mem_iff_getElem?.mp hb
  obtain rfl := only_set hc only j b hj hbears
  obtain ⟨p, hp, -⟩ := hbears
  rw [Office.getElem?_set_self hc] at hj
  cases hj
  rw [hover] at hp
  cases hp

/-- What the stage of a run is while a call carries it at a place. -/
inductive Carried (s : Desk) (p : Prepared) (place : Nat) : StartCall → Prop
  | create (only : ∀ j b, s.callers[j]? = some b → b.Bears p.execution.id → j = place)
      (gone : s.engine.run? p.execution.id = none) (unkept : s.engine.store.kept? p.execution.id = none)
      (silent : s.engine.eventsOf p.execution.id = []) : Carried s p place (.create p)
  | announce {e₂ e₃ : Engine} (only : ∀ j b, s.callers[j]? = some b → b.Bears p.execution.id → j = place)
      (gone : s.engine.run? p.execution.id = none)
      (create : (StartCall.create p).step? e₂ = some (.announce p, e₃)) (kept : p.KeptSince e₃ s.engine)
      (silent : s.engine.eventsOf p.execution.id = []) : Carried s p place (.announce p)
  | enter {plan : Plan} {e₂ e₃ e₄ e₅ : Engine}
      (only : ∀ j b, s.callers[j]? = some b → b.Bears p.execution.id → j = place)
      (gone : s.engine.run? p.execution.id = none)
      (create : (StartCall.create p).step? e₂ = some (.announce p, e₃))
      (announce : (StartCall.announce p).step? e₄ = some (.enter p plan, e₅)) (kept : p.KeptSince e₃ s.engine)
      (told : s.engine.eventsOf p.execution.id = [.runStarted p.execution.id p.execution.workflowId]) :
      Carried s p place (.enter p plan)

/-- The call that carries a run tells its stage. -/
theorem carried (h : Stage past s p) (hc : s.callers[i]? = some c) (hcall : c.call.carried? = some p) :
    Carried s p i c.call := by
  have hplace : ∀ {place : Nat} {b : Caller}, s.callers[place]? = some b →
      (∀ j b, s.callers[j]? = some b → b.Bears p.execution.id → j = place) → i = place ∧ c = b := by
    intro place b hb only
    obtain rfl := only i c hc ⟨p, hcall, rfl⟩
    exact ⟨rfl, Option.some.inj (hc.symm.trans hb)⟩
  cases h with
  | made hb call only gone unkept silent =>
    obtain ⟨rfl, rfl⟩ := hplace hb only
    exact call ▸ .create only gone unkept silent
  | recorded hb call only gone create kept silent =>
    obtain ⟨rfl, rfl⟩ := hplace hb only
    exact call ▸ .announce only gone create kept silent
  | announced hb call only gone create announce kept told =>
    obtain ⟨rfl, rfl⟩ := hplace hb only
    exact call ▸ .enter only gone create announce kept told
  | dropped free | refused _ free | living _ _ _ _ _ _ free =>
    exact absurd ⟨c, List.mem_of_getElem? hc, p, hcall, rfl⟩ free

/-- The record is put into the store, or the store does not take it. -/
theorem create (h : Stage past s p) (hc : s.callers[i]? = some c) (hcall : c.call = .create p)
    (hstep : (StartCall.create p).step? s.engine = some (next, e)) :
    Stage past' ⟨e, s.callers.set i { c with call := next }⟩ p := by
  have hcarried := h.carried hc (by rw [hcall]; rfl)
  rw [hcall] at hcarried
  cases hcarried with
  | create only gone unkept silent =>
    cases StartCall.strides_of_step? hstep with
    | created =>
      exact .recorded (Office.getElem?_set_self hc) rfl (only_set hc only) gone hstep (.inl rfl) silent
    | uncreated =>
      refine .dropped (free_set hc only rfl) ?_ ?_ ?_ <;> rw [StartCall.unlock_eq]
      exacts [gone, unkept, silent]

/-- The run is announced, or its refusal is. -/
theorem announce (h : Stage past s p) (hc : s.callers[i]? = some c) (hcall : c.call = .announce p)
    (hstep : (StartCall.announce p).step? s.engine = some (next, e)) :
    Stage past' ⟨e, s.callers.set i { c with call := next }⟩ p := by
  have hcarried := h.carried hc (by rw [hcall]; rfl)
  rw [hcall] at hcarried
  cases hcarried with
  | announce only gone create kept silent =>
    have htold : ∀ event : Event, event.executionId = p.execution.id →
        ((StartCall.unlock s.engine p.execution.idempotencyKey).announce event).eventsOf p.execution.id = [event] := by
      intro event hid
      have hevents : ((StartCall.unlock s.engine p.execution.idempotencyKey).announce event).events =
          s.engine.events ++ [event] := by rw [StartCall.unlock_eq]; rfl
      rw [Engine.eventsOf_append hevents, silent]
      simp [hid]
    have hsame : ∀ event, ((StartCall.unlock s.engine p.execution.idempotencyKey).announce event).store =
        s.engine.store ∧ ((StartCall.unlock s.engine p.execution.idempotencyKey).announce event).active =
          s.engine.active := fun event => by rw [StartCall.unlock_eq]; exact ⟨rfl, rfl⟩
    cases StartCall.strides_of_step? hstep with
    | announced planned =>
      obtain ⟨hstore, hactive⟩ := hsame (.runStarted p.execution.id p.execution.workflowId)
      refine .announced (Office.getElem?_set_self hc) rfl (only_set hc only) ((Engine.run?_congr hactive).trans gone)
        create hstep ?_ (htold _ rfl)
      rwa [Prepared.KeptSince, hstore]
    | refused planned =>
      obtain ⟨hstore, hactive⟩ := hsame (.ofEnded p.execution)
      refine .refused planned (free_set hc only rfl) ((Engine.run?_congr hactive).trans gone) create ?_ (htold _ rfl)
      rwa [Prepared.KeptSince, hstore]

/-- The run begins its life. -/
theorem enter {plan : Plan} (h : Stage past s p) (hmade : p.IsMade) (hc : s.callers[i]? = some c)
    (hcall : c.call = .enter p plan) (hstep : (StartCall.enter p plan).step? s.engine = some (next, e)) :
    Stage past' ⟨e, s.callers.set i { c with call := next }⟩ p := by
  have hcarried := h.carried hc (by rw [hcall]; rfl)
  rw [hcall] at hcarried
  cases hcarried with
  | enter only gone create announce kept told =>
    have planned := plan_of_announce announce
    obtain ⟨r, types, e₀, e₁, hr, horigin, hprepare⟩ := hmade.step?
    have hkept := kept.resolve_right fun hrefused => by rw [planned] at hrefused; cases hrefused.1
    cases StartCall.strides_of_step? hstep with
    | entered =>
      have hentered := Engine.Enters.intro hprepare create announce hstep gone hkept
      exact @Stage.living _ _ _ r plan _ [] s.engine.store hr horigin planned hentered .start (.inr rfl)
        (free_set hc only rfl) told (List.forall_mem_nil _) (List.forall_mem_nil _)

end

/-! ## The turns of a run that lives -/

/-- A run that is alive lives. -/
theorem of_alive {run : ActiveRun} (h : Stage past s p) (hr : s.engine.run? p.execution.id = some run) :
    ∃ r plan e₁ life store, r.definition = p.definition ∧ p.plan = .ok plan ∧
      Engine.Enters r plan p.execution.id e₁ ∧ Engine.Lives p.execution.id e₁ life (s.engine.onStore store) := by
  cases h with
  | living request _ planned entered lives => exact ⟨_, _, _, _, _, request, planned, entered, lives⟩
  | made _ _ _ gone | dropped _ gone | recorded _ _ _ gone | announced _ _ _ gone | refused _ _ gone =>
    exact absurd (gone.symm.trans hr) nofun

theorem turn {run : ActiveRun} {x : Happening} (h : Stage past s p) (m : s.engine.Moves p.execution.id x e)
    (happens : x ≠ .elsewhere) (sorted : ∀ node ports, x = .finished node (.ok ports) → Keyed.Sorted ports)
    (hr : s.engine.run? p.execution.id = some run) :
    Stage (past ++ [.turn p.execution.id x]) { s with engine := e } p := by
  cases h with
  | @living r plan e₁ life store request origin planned entered lives kept free told timed ports =>
    obtain ⟨store', m'⟩ := m.on_store happens store
    have hid := (lives.runs entered hr).id_eq
    have hkept : e.store.kept? p.execution.id = none ∨ e.store.kept? p.execution.id = store'.kept? p.execution.id := by
      refine kept.imp (m.unkept happens) fun hsame => ?_
      obtain ⟨k, hk⟩ := Option.isSome_iff_exists.mp (lives.isSome_kept entered)
      exact (m.kept? hr hid (hsame.trans hk)).trans (m'.kept? hr hid hk).symm
    have hlast : ∀ {y}, y ∈ life ++ [⟨s.engine.onStore store, x⟩] → y ∈ life ∨ y.happening = x := fun hy =>
      (List.mem_append.mp hy).imp_right fun hy => by rw [List.mem_singleton.mp hy]
    refine .living request origin planned entered (lives.next m') hkept free ?_ (fun y hy hup => ?_) fun y hy node out hout => ?_
    · have hown : (Engine.Moment.event? ⟨s.engine, x⟩).toList.filter (·.executionId = p.execution.id) =
          (Engine.Moment.event? ⟨s.engine, x⟩).toList := by
        refine List.filter_eq_self.mpr fun event hevent => decide_eq_true ?_
        exact lives.executionId_of_emit entered m' (Option.mem_toList.mp hevent)
      rw [Engine.eventsOf_append (m.announces happens), hown, told, Engine.emitted_append]
      rfl
    · rcases hlast hy with hy | hy
      · exact List.mem_append_left _ (timed y hy hup)
      · exact List.mem_append_right _ (List.mem_singleton.mpr (by rw [← hup, hy]))
    · rcases hlast hy with hy | hy
      · exact ports y hy node out hout
      · exact sorted node out (hy ▸ hout)
  | made _ _ _ gone | dropped _ gone | recorded _ _ _ gone | announced _ _ _ gone | refused _ _ gone =>
    exact absurd (gone.symm.trans hr) nofun

end Stage

/-! ## All runs -/

namespace Prepared

theorem MadeIn.append {more : List Entry} (h : p.MadeIn past) : p.MadeIn (past ++ more) := by
  obtain ⟨t, ht, hnext⟩ := h
  exact ⟨t, List.mem_append_left _ ht, hnext⟩

theorem madeIn_stride {t : Stride} : q.MadeIn (past ++ [.stride t]) ↔ q.MadeIn past ∨ t.next = .create q := by
  constructor
  · rintro ⟨t', ht', hmakes⟩
    rcases List.mem_append.mp ht' with ht' | ht'
    · exact .inl ⟨t', ht', hmakes⟩
    · cases List.mem_singleton.mp ht'
      exact .inr hmakes
  · rintro (hmade | hmakes)
    · exact hmade.append
    · exact ⟨t, List.mem_append_right _ (List.mem_singleton.mpr rfl), hmakes⟩

theorem madeIn_turn {x : Happening} : q.MadeIn (past ++ [.turn id x]) ↔ q.MadeIn past := by
  refine exists_congr fun t => and_congr_left' ⟨fun ht => ?_, List.mem_append_left _⟩
  rcases List.mem_append.mp ht with ht | ht
  · exact ht
  · cases List.mem_singleton.mp ht

end Prepared

/-- Every run whose record has been made is at some stage, and of no other has anything come. -/
structure Chronicle (e₀ : Engine) (past : List Entry) (s : Desk) : Prop where
  ids : s.engine.ids = e₀.ids
  stored : (s.engine.store.stamps.map Stamp.id).Nodup
  unused : ∀ n, s.engine.runsNamed ≤ n → s.engine.store.kept? (e₀.ids.run n) = none
  made : ∀ p : Prepared, p.MadeIn past → p.IsMade
  named : ∀ p : Prepared, p.MadeIn past → ∃ n < s.engine.runsNamed, p.execution.id = e₀.ids.run n
  once : ∀ p q : Prepared, p.MadeIn past → q.MadeIn past → p.execution.id = q.execution.id → p = q
  carried : ∀ c ∈ s.callers, ∀ p, c.call.carried? = some p → p.MadeIn past
  stages : ∀ p : Prepared, p.MadeIn past → Stage past s p
  others : ∀ id, (∀ p : Prepared, p.MadeIn past → p.execution.id ≠ id) →
    s.engine.run? id = none ∧ s.engine.eventsOf id = []
  /-- What is kept of other executions was kept before. -/
  older : ∀ id, (∀ p : Prepared, p.MadeIn past → p.execution.id ≠ id) → ∀ k, s.engine.store.kept? id = some k →
    e₀.store.kept? id = some k

namespace Chronicle

variable {e₀ : Engine}

/-- The id of a run that is yet to be named is that of none. -/
theorem id_ne_of_unnamed (h : Chronicle e₀ past s) (hdistinct : Function.Injective e₀.ids.run) {n : Nat}
    (hn : s.engine.runsNamed ≤ n) : ∀ p : Prepared, p.MadeIn past → p.execution.id ≠ e₀.ids.run n := by
  intro p hp heq
  obtain ⟨m, hm, hid⟩ := h.named p hp
  have := hdistinct (hid.symm.trans heq)
  omega

/-- A step that makes no record takes the runs to their next stages. -/
theorem next (h : Chronicle e₀ past s) (hdistinct : Function.Injective e₀.ids.run)
    (hmade : ∀ q : Prepared, q.MadeIn past' ↔ q.MadeIn past)
    (hstages : ∀ p : Prepared, p.MadeIn past → Stage past' s' p)
    (hothers : ∀ id, (∀ p : Prepared, p.MadeIn past → p.execution.id ≠ id) → s.engine.Spares id s'.engine)
    (hids : s'.engine.ids = s.engine.ids ∧ s'.engine.runsNamed = s.engine.runsNamed)
    (hstored : (s'.engine.store.stamps.map Stamp.id).Nodup)
    (hcarried : ∀ c ∈ s'.callers, ∀ p, c.call.carried? = some p → p.MadeIn past) : Chronicle e₀ past' s' where
  ids := hids.1.trans h.ids
  stored := hstored
  unused := fun n hn => by
    rw [hids.2] at hn
    exact (hothers _ (h.id_ne_of_unnamed hdistinct hn)).kept.elim (fun hsame => hsame.trans (h.unused n hn)) And.left
  made := fun p hp => h.made p ((hmade p).mp hp)
  named := fun p hp => hids.2.symm ▸ h.named p ((hmade p).mp hp)
  once := fun p q hp hq => h.once p q ((hmade p).mp hp) ((hmade q).mp hq)
  carried := fun c hc p hp => (hmade p).mpr (hcarried c hc p hp)
  stages := fun p hp => hstages p ((hmade p).mp hp)
  others := fun id hid => by
    have hid : ∀ p : Prepared, p.MadeIn past → p.execution.id ≠ id := fun p hp => hid p ((hmade p).mpr hp)
    obtain ⟨hr, hev⟩ := h.others id hid
    exact ⟨(hothers id hid).run.trans hr, (hothers id hid).events.trans hev⟩
  older := fun id hid k hk => by
    have hid : ∀ p : Prepared, p.MadeIn past → p.execution.id ≠ id := fun p hp => hid p ((hmade p).mpr hp)
    refine h.older id hid k ?_
    rcases (hothers id hid).kept with hsame | ⟨hnone, -⟩
    · exact hsame.symm.trans hk
    · exact absurd (hnone.symm.trans hk) nofun

/-- No two of the records have one id when another has been made under an id of its own. -/
theorem once_of_made (h : Chronicle e₀ past s) (hmade : ∀ q : Prepared, q.MadeIn past' ↔ q.MadeIn past ∨ q = p)
    (hnew : ∀ q : Prepared, q.MadeIn past → q.execution.id ≠ p.execution.id) {q q' : Prepared} (hq : q.MadeIn past')
    (hq' : q'.MadeIn past') (hid : q.execution.id = q'.execution.id) : q = q' := by
  rcases (hmade q).mp hq with hold | rfl <;> rcases (hmade q').mp hq' with hold' | rfl
  · exact h.once q q' hold hold' hid
  · exact absurd hid (hnew q hold)
  · exact absurd hid.symm (hnew q' hold')
  · rfl

/-- A step that makes one more record, under the next id, and spares all other runs. -/
theorem add (h : Chronicle e₀ past s) (hdistinct : Function.Injective e₀.ids.run)
    (hmade : ∀ q : Prepared, q.MadeIn past' ↔ q.MadeIn past ∨ q = p) (his : p.IsMade)
    (hid : p.execution.id = e₀.ids.run s.engine.runsNamed)
    (hids : s'.engine.ids = s.engine.ids ∧ s'.engine.runsNamed = s.engine.runsNamed + 1)
    (hstore : s'.engine.store = s.engine.store) (hspares : ∀ id, id ≠ p.execution.id → s.Spares id s')
    (hcarried : ∀ c ∈ s'.callers, ∀ q, c.call.carried? = some q → q.MadeIn past ∨ q = p) (hpast : past ⊆ past')
    (hstage : Stage past' s' p) : Chronicle e₀ past' s' := by
  have hnew : ∀ q : Prepared, q.MadeIn past → q.execution.id ≠ p.execution.id := fun q hq =>
    hid ▸ h.id_ne_of_unnamed hdistinct (Nat.le_refl _) q hq
  have hold : ∀ {id}, (∀ q : Prepared, q.MadeIn past' → q.execution.id ≠ id) →
      ∀ q : Prepared, q.MadeIn past → q.execution.id ≠ id := fun hne q hq => hne q ((hmade q).mpr (.inl hq))
  refine
    { ids := hids.1.trans h.ids
      stored := hstore ▸ h.stored
      unused := fun n hn => hstore ▸ h.unused n (by omega)
      made := fun q hq => ((hmade q).mp hq).elim (h.made q) fun heq => heq ▸ his
      named := fun q hq => ?named
      once := fun q q' hq hq' => h.once_of_made hmade hnew hq hq'
      carried := fun c hc q hq => (hmade q).mpr (hcarried c hc q hq)
      stages := fun q hq => ?stages
      others := fun id hne => ?others
      older := fun id hne k hk => h.older id (hold hne) k (hstore ▸ hk) }
  case named =>
    rcases (hmade q).mp hq with hq | rfl
    · obtain ⟨n, hn, heq⟩ := h.named q hq
      exact ⟨n, by omega, heq⟩
    · exact ⟨s.engine.runsNamed, by omega, hid⟩
  case stages =>
    rcases (hmade q).mp hq with hq | rfl
    · exact (h.stages q hq).spared (h.made q hq) (hspares _ (hnew q hq)) hpast
    · exact hstage
  case others =>
    have hspared := (hspares id (hne p ((hmade p).mpr (.inr rfl))).symm).engine
    obtain ⟨hgone, hsilent⟩ := h.others id (hold hne)
    exact ⟨hspared.run.trans hgone, hspared.events.trans hsilent⟩

/-- A step that spares every run. -/
theorem spared (h : Chronicle e₀ past s) (hdistinct : Function.Injective e₀.ids.run) (hpast : past ⊆ past')
    (hmade : ∀ q : Prepared, q.MadeIn past' ↔ q.MadeIn past) (hs : ∀ id, s.Spares id s')
    (hids : s'.engine.ids = s.engine.ids ∧ s'.engine.runsNamed = s.engine.runsNamed)
    (hstored : (s'.engine.store.stamps.map Stamp.id).Nodup)
    (hcarried : ∀ c ∈ s'.callers, ∀ p, c.call.carried? = some p → p.MadeIn past) : Chronicle e₀ past' s' :=
  h.next hdistinct hmade (fun p hp => (h.stages p hp).spared (h.made p hp) (hs _) hpast) (fun id _ => (hs id).engine)
    hids hstored hcarried

theorem asked (h : Chronicle e₀ past s) (hdistinct : Function.Injective e₀.ids.run) {c : Caller}
    (hnew : c.call.carried? = none) : Chronicle e₀ past { s with callers := s.callers ++ [c] } := by
  refine h.spared hdistinct (List.Subset.refl _) (fun _ => Iff.rfl) (fun id => Desk.spares_asked hnew) ⟨rfl, rfl⟩
    h.stored ?_
  refine List.forall_mem_append.mpr ⟨h.carried, List.forall_mem_singleton.mpr fun p hp => ?_⟩
  rw [hnew] at hp
  cases hp

theorem aside (h : Chronicle e₀ past s) (hdistinct : Function.Injective e₀.ids.run) (m : s.engine.Aside e) :
    Chronicle e₀ past { s with engine := e } := by
  obtain ⟨-, hstore, -, hids, hnamed, -⟩ := m.spec
  exact h.spared hdistinct (List.Subset.refl _) (fun _ => Iff.rfl) (fun id => Desk.spares_of_engine (m.spares id))
    ⟨hids, hnamed⟩ (hstore ▸ h.stored) h.carried

theorem pruned (h : Chronicle e₀ past s) (hdistinct : Function.Injective e₀.ids.run) (before : Instant) :
    Chronicle e₀ past { s with engine := (s.engine.prune before).1 } :=
  h.spared hdistinct (List.Subset.refl _) (fun _ => Iff.rfl)
    (fun id => Desk.spares_of_engine (Engine.spares_prune h.stored id before)) ⟨rfl, rfl⟩
    (h.stored.sublist ((Store.stamps_prune _ _).map _)) h.carried

/-- Whoever is alive is a run whose record has been made. -/
theorem of_alive {run : ActiveRun} (h : Chronicle e₀ past s) (hr : s.engine.run? id = some run) :
    ∃ p : Prepared, p.MadeIn past ∧ p.execution.id = id := by
  by_contra hnone
  have hother := (h.others id fun p hp hid => hnone ⟨p, hp, hid⟩).1
  exact absurd (hother.symm.trans hr) nofun

/-- A turn of one run spares every other. -/
theorem spares_turn {x : Happening} {run : ActiveRun} {other : String} (h : Chronicle e₀ past s)
    (m : s.engine.Moves id x e) (happens : x ≠ .elsewhere) (hr : s.engine.run? id = some run) (hne : other ≠ id) :
    s.engine.Spares other e := by
  obtain ⟨p, hp, rfl⟩ := h.of_alive hr
  obtain ⟨r, plan, e₁, life, store, -, -, entered, lives⟩ := (h.stages p hp).of_alive hr
  obtain ⟨store', m'⟩ := m.on_store happens store
  exact m.spares happens (fun run hrun => (lives.runs entered hrun).id_eq)
    (fun event hevent => lives.executionId_of_emit entered m' hevent) hne

theorem turn {x : Happening} (h : Chronicle e₀ past s) (hdistinct : Function.Injective e₀.ids.run)
    (m : s.engine.Moves id x e) (happens : x ≠ .elsewhere)
    (sorted : ∀ node ports, x = .finished node (.ok ports) → Keyed.Sorted ports) :
    Chronicle e₀ (past ++ [.turn id x]) { s with engine := e } := by
  have hstored : (e.store.stamps.map Stamp.id).Nodup := m.ids_store happens ▸ h.stored
  cases hr : s.engine.run? id with
  | none =>
    obtain ⟨-, hspares⟩ := m.spares_of_gone happens hr
    exact h.spared hdistinct (List.subset_append_left _ _) (fun _ => Prepared.madeIn_turn)
      (fun other => Desk.spares_of_engine (hspares other)) (m.ids_eq happens) hstored h.carried
  | some run =>
    obtain ⟨p, hp, rfl⟩ := h.of_alive hr
    refine h.next hdistinct (fun _ => Prepared.madeIn_turn) (fun q hq => ?_)
      (fun other hother => h.spares_turn m happens hr (hother p hp).symm) (m.ids_eq happens) hstored h.carried
    by_cases hid : q.execution.id = p.execution.id
    · obtain rfl := h.once q p hq hp hid
      exact (h.stages q hq).turn m happens sorted hr
    · exact (h.stages q hq).spared (h.made q hq) (Desk.spares_of_engine (h.spares_turn m happens hr hid))
        (List.subset_append_left _ _)

/-! ### A step of a start call -/

section

variable {i : Nat} {c : Caller} {call : StartCall}

theorem stored_stride (h : Chronicle e₀ past s) (hs : c.call.Strides s.engine call e) :
    (e.store.stamps.map Stamp.id).Nodup := by
  rcases hs.store_eq with hsame | ⟨p, -, -, hcreate⟩
  · exact hsame ▸ h.stored
  · obtain ⟨hstamps, hnew⟩ := Store.stamps_create hcreate
    rw [hstamps, List.map_append]
    refine List.nodup_append.mpr ⟨h.stored, List.nodup_singleton _, ?_⟩
    rintro x hx y hy rfl
    rw [List.map_singleton, List.mem_singleton] at hy
    subst hy
    exact hnew hx

/-- A call that is about a run takes it to its next stage. -/
theorem stage_stride (h : Chronicle e₀ past s) (hc : s.callers[i]? = some c)
    (hstep : c.call.step? s.engine = some (call, e)) {p : Prepared} (hp : p.MadeIn past)
    (hcarried : c.call.carried? = some p) : Stage past' ⟨e, s.callers.set i { c with call }⟩ p := by
  have hstage := h.stages p hp
  cases hcall : c.call with
  | create q =>
    rw [hcall] at hstep hcarried
    cases hcarried
    exact hstage.create hc hcall hstep
  | announce q =>
    rw [hcall] at hstep hcarried
    cases hcarried
    exact hstage.announce hc hcall hstep
  | enter q plan =>
    rw [hcall] at hstep hcarried
    cases hcarried
    exact hstage.enter (h.made p hp) hc hcall hstep
  | lookUp | takeTypes | lock | find | prepare | answered => rw [hcall] at hcarried; cases hcarried

/-- A step that makes no record. -/
theorem stride_of_named (h : Chronicle e₀ past s) (hdistinct : Function.Injective e₀.ids.run)
    (hc : s.callers[i]? = some c) (hstep : c.call.step? s.engine = some (call, e)) (hids : e.ids = s.engine.ids)
    (hnamed : e.runsNamed = s.engine.runsNamed) (hmakes : ∀ p, call ≠ .create p)
    (hcarries : ∀ p, call.carried? = some p → c.call.carried? = some p) :
    Chronicle e₀ (past ++ [.stride ⟨i, c, call, s.engine, e⟩]) ⟨e, s.callers.set i { c with call }⟩ := by
  have hs := StartCall.strides_of_step? hstep
  have hmem := List.mem_of_getElem? hc
  -- a run that the call is not about is spared
  have hspares : ∀ id, ¬ c.Bears id → s.Spares id ⟨e, s.callers.set i { c with call }⟩ := fun id hbears =>
    Desk.spares_stride hc hs hbears fun ⟨p, hp, hid⟩ => hbears ⟨p, hcarries p hp, hid⟩
  refine h.next hdistinct (fun q => ?_) (fun p hp => ?_) (fun id hid => ?_) ⟨hids, hnamed⟩ (h.stored_stride hs) ?_
  · rw [Prepared.madeIn_stride]
    exact or_iff_left (hmakes q)
  · by_cases hbears : c.Bears p.execution.id
    · obtain ⟨q, hq, hid⟩ := hbears
      obtain rfl := h.once q p (h.carried c hmem q hq) hp hid
      exact h.stage_stride hc hstep hp hq
    · exact (h.stages p hp).spared (h.made p hp) (hspares _ hbears) (List.subset_append_left _ _)
  · exact (hspares id fun ⟨q, hq, heq⟩ => hid q (h.carried c hmem q hq) heq).engine
  · intro b hb p hp
    rcases List.mem_or_eq_of_mem_set hb with hb | rfl
    · exact h.carried b hb p hp
    · exact h.carried c hmem p (hcarries p hp)

/-- The step that makes a record is about none of the runs before. -/
theorem not_bears_of_prepare {r : StartRequest} {types : Registry} (hcall : c.call = .prepare r types) (id : String) :
    ¬ c.Bears id := by
  intro hbears
  obtain ⟨q, hq, -⟩ := hbears
  rw [hcall] at hq
  cases hq

/-- A run whose record has just been made is at its first stage. -/
theorem stage_of_prepare (h : Chronicle e₀ past s) (hdistinct : Function.Injective e₀.ids.run)
    (hc : s.callers[i]? = some c) (hs : c.call.Strides s.engine (.create p) e) (hnot : ∀ id, ¬ c.Bears id)
    (hid : p.execution.id = e₀.ids.run s.engine.runsNamed) :
    Stage past' ⟨e, s.callers.set i { c with call := .create p }⟩ p := by
  have hnew := h.id_ne_of_unnamed hdistinct (Nat.le_refl _)
  have hquiet : s.engine.Spares p.execution.id e := hs.spares fun q hq => absurd ⟨q, hq, rfl⟩ (hnot q.execution.id)
  obtain ⟨hgone, hsilent⟩ := h.others p.execution.id (hid ▸ hnew)
  have hunkept : s.engine.store.kept? p.execution.id = none := hid ▸ h.unused _ (Nat.le_refl _)
  refine .made (Office.getElem?_set_self hc) rfl (Stage.only_set hc fun j b hb hbears => ?_)
    (hquiet.run.trans hgone) (hquiet.kept.elim (fun hsame => hsame.trans hunkept) And.left)
    (hquiet.events.trans hsilent)
  obtain ⟨q, hq, heq⟩ := hbears
  exact absurd (heq.trans hid) (hnew q (h.carried b (List.mem_of_getElem? hb) q hq))

/-- A record is made, under the next id. -/
theorem stride_of_prepare (h : Chronicle e₀ past s) (hdistinct : Function.Injective e₀.ids.run)
    (hc : s.callers[i]? = some c) {r : StartRequest} {types : Registry} (hcall : c.call = .prepare r types)
    {p : Prepared} (hp : p = (StartCall.makeRecord r types s.engine).1)
    (he : e = (StartCall.makeRecord r types s.engine).2) :
    Chronicle e₀ (past ++ [.stride ⟨i, c, .create p, s.engine, e⟩]) ⟨e, s.callers.set i { c with call := .create p }⟩ := by
  have hs : c.call.Strides s.engine (.create p) e := by
    rw [hcall, hp, he]
    exact .prepared
  have hid : p.execution.id = e₀.ids.run s.engine.runsNamed := by
    rw [hp, ← h.ids]
    exact StartCall.id_makeRecord r types s.engine
  have hmade : ∀ q : Prepared, q.MadeIn (past ++ [.stride ⟨i, c, .create p, s.engine, e⟩]) ↔ q.MadeIn past ∨ q = p :=
    fun q => Prepared.madeIn_stride.trans (or_congr_right ⟨fun heq => (StartCall.create.inj heq).symm, fun heq => heq ▸ rfl⟩)
  have hnot := not_bears_of_prepare (c := c) hcall
  refine h.add hdistinct hmade ⟨r, types, s.engine, hp⟩ hid ⟨hs.ids_eq.1, by rw [he]; rfl⟩ (by rw [he]; rfl) ?spares ?carried
    (List.subset_append_left _ _) (h.stage_of_prepare hdistinct hc hs hnot hid)
  case spares =>
    exact fun id hne => Desk.spares_stride hc hs (hnot id) fun ⟨q, hq, heq⟩ => hne (by cases hq; exact heq.symm)
  case carried =>
    intro b hb q hq
    rcases List.mem_or_eq_of_mem_set hb with hb | rfl
    · exact .inl (h.carried b hb q hq)
    · cases hq
      exact .inr rfl

theorem stride (h : Chronicle e₀ past s) (hdistinct : Function.Injective e₀.ids.run) (hc : s.callers[i]? = some c)
    (hstep : c.call.step? s.engine = some (call, e)) :
    Chronicle e₀ (past ++ [.stride ⟨i, c, call, s.engine, e⟩]) ⟨e, s.callers.set i { c with call }⟩ := by
  have hs := StartCall.strides_of_step? hstep
  obtain ⟨hids, ⟨hnamed, hmakes, hcarries⟩ | ⟨-, r, types, hcall, hnext, he⟩⟩ := hs.ids_eq
  · exact h.stride_of_named hdistinct hc hstep hids hnamed hmakes hcarries
  · subst hnext
    exact h.stride_of_prepare hdistinct hc hcall rfl he

end

end Chronicle

end

namespace Engine

theorem IsReady.chronicle {e : Engine} (h : e.IsReady) : Chronicle e [] ⟨e, []⟩ where
  ids := rfl
  stored := h.consistent.ids
  unused := h.unused
  made := fun _ ⟨_, ht, _⟩ => absurd ht List.not_mem_nil
  named := fun _ ⟨_, ht, _⟩ => absurd ht List.not_mem_nil
  once := fun _ _ ⟨_, ht, _⟩ => absurd ht List.not_mem_nil
  carried := List.forall_mem_nil _
  stages := fun _ ⟨_, ht, _⟩ => absurd ht List.not_mem_nil
  others := fun id _ => ⟨by rw [run?, h.new.idle]; rfl, by rw [eventsOf, h.new.silent]; rfl⟩
  older := fun _ _ _ hk => hk

/-- Throughout a history every run is at some stage. -/
theorem Hosts.chronicle {e₀ : Engine} {past : List Entry} {s : Desk} (h₀ : e₀.IsReady) (h : Hosts e₀ past s) :
    Chronicle e₀ past s := by
  induction h with
  | opens => exact h₀.chronicle
  | asked _ workflow trigger key ih => exact ih.asked h₀.distinct (c := .ofWorkflow workflow trigger key) rfl
  | given _ d trigger key ih => exact ih.asked h₀.distinct (c := .ofDefinition d trigger key) rfl
  | stride _ hc hstep ih => exact ih.stride h₀.distinct hc hstep
  | turn _ m happens ports ih => exact ih.turn h₀.distinct m happens ports
  | aside _ m ih => exact ih.aside h₀.distinct m
  | pruned _ before ih => exact ih.pruned h₀.distinct before

end Engine
end Workflows
