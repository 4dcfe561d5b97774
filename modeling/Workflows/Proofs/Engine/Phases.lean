/-
  Workflows.Proofs.Engine.Phases — where a run is, between any two steps in an office.

  A run is unknown, recorded and about to be entered by one call, living, or at rest (`Phase`), and
  every step keeps it so (`Phase.shift`). At rest are the runs that have ended or were refused, and
  the executions that were in the store before the engine was, some of which may have been left
  there unfinished. Every run of an office is in one of these phases, and what clients are told
  of is kept (`Tended`).
-/

import Workflows.Proofs.Engine.Office

namespace Workflows

/-! ## The four phases of a run -/

/-- The call has put the run `id` into the store and has yet to enter it. -/
inductive Window (id : String) (e : Engine) : Call → Prop
  | recorded {r : StartRequest} {types : Registry} {p : Prepared} {plan : Plan} {e₀ e₁ e₂ e₃ : Engine}
      (prepare : (StartCall.prepare r types).step? e₀ = some (.create p, e₁))
      (create : (StartCall.create p).step? e₂ = some (.announce p, e₃)) (planned : p.plan = .ok plan)
      (kept : e.store.kept? id = e₃.store.kept? id) (hid : p.execution.id = id) : Window id e (.start (.announce p))
  | announced {r : StartRequest} {types : Registry} {p : Prepared} {plan : Plan} {e₀ e₁ e₂ e₃ e₄ e₅ : Engine}
      (prepare : (StartCall.prepare r types).step? e₀ = some (.create p, e₁))
      (create : (StartCall.create p).step? e₂ = some (.announce p, e₃))
      (announce : (StartCall.announce p).step? e₄ = some (.enter p plan, e₅))
      (kept : e.store.kept? id = e₃.store.kept? id) (hid : p.execution.id = id) : Window id e (.start (.enter p plan))

/-- Where the run `id` is; the executions of `left` had been left unfinished before. -/
inductive Phase (left : String → Prop) (id : String) (s : Office) : Prop
  | unknown (kept : s.engine.store.kept? id = none) (gone : s.engine.run? id = none) (free : ¬ s.Opens id)
  | opening {place : Nat} {c : Call} (hc : s.calls[place]? = some c) (window : Window id s.engine c)
      (only : ∀ j b, s.calls[j]? = some b → b.opening? = some id → j = place) (gone : s.engine.run? id = none)
  | living {r : StartRequest} {p : Plan} {e₀ : Engine} {past : List Engine.Moment} (entered : Engine.Enters r p id e₀)
      (lives : Engine.Lives id e₀ past s.engine) (free : ¬ s.Opens id)
  | resting (kept : (s.engine.store.kept? id).isSome) (gone : s.engine.run? id = none) (free : ¬ s.Opens id)
      (rests : ¬ left id → Engine.Rests id s.engine)

/-- The records about to be put into the store have been made by their calls. -/
def Office.Made (s : Office) : Prop := ∀ p, .start (.create p) ∈ s.calls →
  ∃ r types e₀ e₁, (StartCall.prepare r types).step? e₀ = some (.create p, e₁)

section

variable {left : String → Prop} {id : String} {s s' : Office} {c : Call} {e e' : Engine} {p : Prepared} {plan : Plan}

theorem opening?_announce (h : p.plan = .ok plan) : (Call.start (.announce p)).opening? = some p.execution.id := by
  simp [Call.opening?, h, Except.isOk, Except.toBool]

theorem opening?_refuse {f : Failure} (h : p.plan = .error f) : (Call.start (.announce p)).opening? = none := by
  simp [Call.opening?, h, Except.isOk, Except.toBool]

/-- To announce a run changes neither what is kept nor who is alive. -/
theorem StartCall.Strides.of_announce {next : StartCall} (h : StartCall.Strides (.announce p) e next e') :
    e'.store = e.store ∧ e'.active = e.active := by
  cases h <;> · rw [StartCall.unlock_eq]; exact ⟨rfl, rfl⟩

/-- Nothing was kept of a run whose record is put into the store. -/
theorem kept?_eq_none_of_create (h : (StartCall.create p).step? e = some (.announce p, e')) :
    e.store.kept? p.execution.id = none := by
  cases StartCall.strides_of_step? h with
  | created hstore => exact (Store.kept?_create hstore).1

theorem plan_of_announce (h : (StartCall.announce p).step? e = some (.enter p plan, e')) : p.plan = .ok plan := by
  cases StartCall.strides_of_step? h
  assumption

/-- The record of a run that is refused is terminal. -/
theorem isTerminal_of_refused {r : StartRequest} {types : Registry} {f : Failure}
    (h : (StartCall.prepare r types).step? e = some (.create p, e')) (hplan : p.plan = .error f) :
    p.execution.status.isTerminal = true := by
  cases h
  have hprepare : Engine.prepare r.definition types = .error f := hplan
  simp only [hprepare, StartCall.refused, Execution.fresh, Execution.transition]
  rfl

namespace Window

theorem opening? (h : Window id e c) : c.opening? = some id := by
  cases h with
  | recorded _ _ planned _ hid => exact hid ▸ opening?_announce planned
  | announced _ _ _ _ hid => exact congrArg some hid

theorem keep (h : Window id e c) (hk : e'.store.kept? id = e.store.kept? id) : Window id e' c := by
  cases h with
  | recorded prepare create planned kept hid => exact .recorded prepare create planned (hk.trans kept) hid
  | announced prepare create announce kept hid => exact .announced prepare create announce (hk.trans kept) hid

theorem isSome_kept (h : Window id e c) : (e.store.kept? id).isSome := by
  have hcreated : ∀ {p : Prepared} {e₂ e₃ : Engine}, (StartCall.create p).step? e₂ = some (.announce p, e₃) →
      (e₃.store.kept? p.execution.id).isSome := by
    intro p e₂ e₃ hcreate
    cases StartCall.strides_of_step? hcreate with
    | created hstore =>
      obtain ⟨k, hk, -⟩ := Store.kept?_of_create hstore
      exact Option.isSome_iff_exists.mpr ⟨k, hk⟩
  cases h with
  | recorded _ create _ kept hid => exact kept ▸ hid ▸ hcreated create
  | announced _ create _ kept hid => exact kept ▸ hid ▸ hcreated create

end Window

namespace Phase

/-- A run that some call has yet to enter is entered by that call alone. -/
theorem of_opening (h : Phase left id s) {place : Nat} (hc : s.calls[place]? = some c)
    (hopening : c.opening? = some id) :
    Window id s.engine c ∧ s.engine.run? id = none ∧
      ∀ j b, s.calls[j]? = some b → b.opening? = some id → j = place := by
  have hopens : s.Opens id := ⟨c, List.mem_of_getElem? hc, hopening⟩
  cases h with
  | @opening place' c' hc' window only gone =>
    obtain rfl := only place c hc hopening
    cases hc.symm.trans hc'
    exact ⟨window, gone, only⟩
  | unknown _ _ free | living _ _ free | resting _ _ free _ => exact absurd hopens free

/-- A run of which nothing is kept is not there. -/
theorem of_unkept (h : Phase left id s) (hk : s.engine.store.kept? id = none) :
    s.engine.run? id = none ∧ ¬ s.Opens id := by
  have hnone : (s.engine.store.kept? id).isSome ≠ true := by rw [hk]; nofun
  cases h with
  | unknown _ gone free => exact ⟨gone, free⟩
  | resting _ gone free _ => exact ⟨gone, free⟩
  | opening _ window => exact absurd window.isSome_kept hnone
  | living entered lives => exact absurd (lives.isSome_kept entered) hnone

theorem create {place : Nat} (h : Phase left id s) (hmade : s.Made) (hid : p.execution.id = id)
    (hc : s.calls[place]? = some (.start (.create p)))
    (hstep : (StartCall.create p).step? s.engine = some (.announce p, e)) :
    Phase left id ⟨e, s.calls.set place (.start (.announce p))⟩ := by
  subst hid
  obtain ⟨r, types, e₀, e₁, hprepare⟩ := hmade p (List.mem_of_getElem? hc)
  obtain ⟨gone, free⟩ := h.of_unkept (kept?_eq_none_of_create hstep)
  cases StartCall.strides_of_step? hstep with
  | @created _ _ store hstore =>
    obtain ⟨k, hk, hof⟩ := Store.kept?_of_create hstore
    cases hplan : p.plan with
    | ok plan =>
      refine .opening (Office.getElem?_set_self hc) (.recorded hprepare hstep hplan rfl rfl) ?_ gone
      intro j b hb hopening
      rw [Office.getElem?_set_eq hc] at hb
      split at hb
      · assumption
      · exact absurd ⟨b, List.mem_of_getElem? hb, hopening⟩ free
    | error f =>
      have same : Office.SameOpening p.execution.id s
          ⟨{ s.engine with store }, s.calls.set place (.start (.announce p))⟩ :=
        Office.sameOpening_set hc nofun (by rw [opening?_refuse hplan]; nofun)
      have hterm : k.status.isTerminal = true := hof.status ▸ isTerminal_of_refused hprepare hplan
      exact .resting (Option.isSome_iff_exists.mpr ⟨k, hk⟩) gone (mt same.opens_iff.mp free)
        fun _ => .of_gone hk hterm gone

theorem announce {place : Nat} (h : Phase left id s) (hid : p.execution.id = id)
    (hc : s.calls[place]? = some (.start (.announce p)))
    (hstep : (StartCall.announce p).step? s.engine = some (.enter p plan, e)) :
    Phase left id ⟨e, s.calls.set place (.start (.enter p plan))⟩ := by
  obtain ⟨hstore, hactive⟩ := (StartCall.strides_of_step? hstep).of_announce
  obtain ⟨window, gone, only⟩ := h.of_opening hc (hid ▸ opening?_announce (plan_of_announce hstep))
  cases window with
  | recorded hprepare hcreate _ kept =>
    refine .opening (Office.getElem?_set_self hc)
      (.announced hprepare hcreate hstep (hstore.symm ▸ kept) hid) ?_ ((Engine.run?_congr hactive).trans gone)
    intro j b hb hopening
    rw [Office.getElem?_set_eq hc] at hb
    split at hb
    · assumption
    · exact only j b hb hopening

theorem enter {place : Nat} (h : Phase left id s) (hid : p.execution.id = id)
    (hc : s.calls[place]? = some (.start (.enter p plan)))
    (hstep : (StartCall.enter p plan).step? s.engine = some (.answered (.ok id), e)) :
    Phase left id ⟨e, s.calls.set place (.start (.answered (.ok id)))⟩ := by
  obtain ⟨window, gone, only⟩ := h.of_opening hc (congrArg some hid)
  cases window with
  | announced hprepare hcreate hannounce kept =>
    refine .living (.intro hprepare hcreate hannounce hstep gone kept) .start fun hopens => ?_
    obtain ⟨b, hb, hopening⟩ := hopens
    obtain ⟨j, hj⟩ := List.mem_iff_getElem?.mp hb
    rw [Office.getElem?_set_eq hc] at hj
    split at hj
    next => cases hj; cases hopening
    next hne => exact hne (only j b hj hopening)

theorem moves {x : Happening} (h : Phase left id s) (m : s.engine.Moves id x s'.engine)
    (same : Office.SameOpening id s s') : Phase left id s' := by
  have hfree := mt same.opens_iff.mp
  cases h with
  | unknown kept gone free =>
    obtain ⟨hr, hk⟩ := m.of_gone gone
    exact .unknown (hk.trans kept) hr (hfree free)
  | opening hc window only gone =>
    obtain ⟨hr, hk⟩ := m.of_gone gone
    exact .opening ((same _ _ window.opening?).mpr hc) (window.keep hk)
      (fun j b hb hopening => only j b ((same j b hopening).mp hb) hopening) hr
  | living entered lives free => exact .living entered (lives.next m) (hfree free)
  | resting kept gone free rests =>
    obtain ⟨hr, hk⟩ := m.of_gone gone
    exact .resting (hk.symm ▸ kept) hr (hfree free) fun hleft => (rests hleft).gone hr hk

theorem shift (h : Phase left id s) (hmade : s.Made) (hs : Shift id s s') : Phase left id s' := by
  obtain ⟨e, calls⟩ := s'
  cases hs with
  | moves m same => exact h.moves m same
  | create hid hc hstep hcalls =>
    obtain rfl : calls = _ := hcalls
    exact h.create hmade hid hc hstep
  | announce hid hc hstep hcalls =>
    obtain rfl : calls = _ := hcalls
    exact h.announce hid hc hstep
  | enter hid hc hstep hcalls =>
    obtain rfl : calls = _ := hcalls
    exact h.enter hid hc hstep

end Phase

/-! ## What clients are told of -/

theorem Store.isSome_kept?_of_mem_stamps {store : Store} {stamp : Stamp} (h : stamp ∈ store.stamps) :
    (store.kept? stamp.id).isSome := by
  cases store with
  | memory m =>
    obtain ⟨x, hx, rfl⟩ := List.mem_map.mp h
    rw [kept?, Option.isSome_map]
    exact List.find?_isSome.mpr ⟨x, hx, beq_iff_eq.mpr rfl⟩
  | table t =>
    obtain ⟨row, hrow, rfl⟩ := List.mem_map.mp h
    rw [kept?, Option.isSome_map]
    exact List.find?_isSome.mpr ⟨row, hrow, beq_iff_eq.mpr rfl⟩

namespace StartCall.Strides

variable {call next : StartCall}

/-- A start is announced by the call that is then about to enter the run. -/
theorem announced_of_mem (h : Strides call e next e') {workflow : String} (hmem : .runStarted id workflow ∈ e'.events) :
    .runStarted id workflow ∈ e.events ∨ (Call.start next).opening? = some id := by
  cases h with
  | announced =>
    refine (List.mem_append.mp hmem).imp (fun hold => ?_) fun hnew => ?_
    · rwa [unlock_eq] at hold
    · cases List.mem_singleton.mp hnew
      rfl
  | refused =>
    refine .inl ((List.mem_append.mp hmem).elim (fun hold => ?_) fun hnew => ?_)
    · rwa [unlock_eq] at hold
    · cases List.mem_singleton.mp hnew
  | uncreated => rw [unlock_eq] at hmem; exact .inl hmem
  | _ => exact .inl hmem

/-- A start is answered with a run that is kept, or that the call has just entered. -/
theorem kept_of_answered (h : Strides call e next e') (hnext : next = .answered (.ok id)) :
    (e.store.kept? id).isSome ∨ (Call.start call).opening? = some id := by
  cases h with
  | @found r types key e existing hfind =>
    obtain ⟨hmem, -⟩ := Store.find?_eq_some hfind
    rw [id_of_repeated (StartCall.answered.inj hnext)]
    exact .inl (Store.isSome_kept?_of_mem_stamps hmem)
  | entered => exact .inr (congrArg some (Except.ok.inj (StartCall.answered.inj hnext)))
  | _ => cases hnext

end StartCall.Strides

/-! ## Every run, at every step -/

namespace Phase

/-- A run that is alive lives. -/
theorem of_alive {run : ActiveRun} (h : Phase left id s) (hr : s.engine.run? id = some run) :
    ∃ r p e₀ past, Engine.Enters r p id e₀ ∧ Engine.Lives id e₀ past s.engine := by
  cases h with
  | living entered lives => exact ⟨_, _, _, _, entered, lives⟩
  | unknown _ gone | opening _ _ _ gone | resting _ gone _ _ =>
    exact absurd (hr.symm.trans gone) (Option.some_ne_none _)

/-- What is kept of a run is never forgotten. -/
theorem isSome_kept (h : Phase left id s) (hs : Shift id s s') (hkept : (s.engine.store.kept? id).isSome) :
    (s'.engine.store.kept? id).isSome := by
  obtain ⟨e, calls⟩ := s'
  cases hs with
  | moves m =>
    cases hr : s.engine.run? id with
    | none => exact (m.of_gone hr).2.symm ▸ hkept
    | some run =>
      obtain ⟨r, p, e₀, past, entered, lives⟩ := h.of_alive hr
      exact (lives.next m).isSome_kept entered
  | create hid _ hstep =>
    rw [← hid, kept?_eq_none_of_create hstep] at hkept
    cases hkept
  | announce _ _ hstep => exact (StartCall.strides_of_step? hstep).of_announce.1.symm ▸ hkept
  | enter _ _ hstep =>
    cases hstep
    exact hkept

end Phase

/-- How every run stands, between any two steps. -/
structure Tended (left : String → Prop) (s : Office) : Prop where
  phase : ∀ id, Phase left id s
  made : s.Made
  told : ∀ id, s.Tells id → (s.engine.store.kept? id).isSome
  known : ∀ c ∈ s.calls, ∀ id, c.looksFor? = some id → (s.engine.store.kept? id).isSome

/-- A call looks for a run in its first step only. -/
theorem Call.looksFor?_of_step {next : Call} (h : c.step? e = some (next, e')) : next.looksFor? = none := by
  cases Call.strides_of_step? h with
  | start => rfl
  | cancel hcancel => cases hcancel <;> rfl
  | wait hwait => cases hwait <;> rfl

/-- What is announced by a step was announced before, or is about to be entered. -/
theorem Call.announced_of_step {next : Call} {workflow : String} (h : c.step? e = some (next, e'))
    (hmem : .runStarted id workflow ∈ e'.events) : .runStarted id workflow ∈ e.events ∨ next.opening? = some id := by
  cases Call.strides_of_step? h with
  | start hstep => exact (StartCall.strides_of_step? hstep).announced_of_mem hmem
  | cancel hcancel => cases hcancel <;> exact .inl hmem
  | wait => exact .inl hmem

namespace Tended

/-- A run that is alive stands under its own id. -/
theorem id_eq (h : Tended left s) (id : String) (run : ActiveRun) (hr : s.engine.run? id = some run) :
    run.coordinator.execution.id = id := by
  obtain ⟨r, p, e₀, past, entered, lives⟩ := (h.phase id).of_alive hr
  exact (lives.runs entered hr).id_eq

theorem asked (h : Tended left s) (asks : s.Asks c) : Tended left { s with calls := s.calls ++ [c] } := by
  have hmem : ∀ b ∈ s.calls ++ [c], b ∈ s.calls ∨ b = c := fun b hb =>
    (List.mem_append.mp hb).imp_right List.mem_singleton.mp
  refine ⟨fun id => ?_, fun p hp => ?_, fun id ht => ?_, fun b hb id hlooks => ?_⟩
  · exact (h.phase id).shift h.made (.of_asks asks)
  · rcases hmem _ hp with hp | rfl
    · exact h.made p hp
    · cases asks
  · cases ht with
    | stored hk => exact hk
    | announced hev => exact h.told id (.announced hev)
    | answered hcall =>
      rcases hmem _ hcall with hcall | rfl
      · exact h.told id (.answered hcall)
      · cases asks
  · rcases hmem b hb with hb | rfl
    · exact h.known b hb id hlooks
    · cases asks with
      | cancel ht | wait ht => cases hlooks; exact h.told _ ht
      | start | startDefinition => cases hlooks

theorem step {i : Nat} {next : Call} (h : Tended left s) (hc : s.calls[i]? = some c)
    (hstep : c.step? s.engine = some (next, e)) : Tended left ⟨e, s.calls.set i next⟩ := by
  have hshift : ∀ id, Shift id s ⟨e, s.calls.set i next⟩ := fun id => .of_step hc hstep
  have hphase : ∀ id, Phase left id ⟨e, s.calls.set i next⟩ := fun id => (h.phase id).shift h.made (hshift id)
  have hkept : ∀ id, (s.engine.store.kept? id).isSome → (e.store.kept? id).isSome :=
    fun id => (h.phase id).isSome_kept (hshift id)
  have hplace : (s.calls.set i next)[i]? = some next := Office.getElem?_set_self hc
  refine ⟨hphase, fun p hp => ?_, fun id ht => ?_, fun b hb id hlooks => ?_⟩
  · rcases List.mem_or_eq_of_mem_set hp with hp | hp
    · exact h.made p hp
    · subst hp
      cases Call.strides_of_step? hstep with
      | start hstep =>
        cases StartCall.strides_of_step? hstep
        exact ⟨_, _, _, _, hstep⟩
  · cases ht with
    | stored hk => exact hk
    | announced hev =>
      rcases Call.announced_of_step hstep hev with hev | hopening
      · exact hkept id (h.told id (.announced hev))
      · exact ((hphase id).of_opening hplace hopening).1.isSome_kept
    | answered hmem =>
      rcases List.mem_or_eq_of_mem_set hmem with hmem | hmem
      · exact hkept id (h.told id (.answered hmem))
      · subst hmem
        cases Call.strides_of_step? hstep with
        | start hstep =>
          rcases (StartCall.strides_of_step? hstep).kept_of_answered rfl with hk | hopening
          · exact hkept id hk
          · exact hkept id ((h.phase id).of_opening hc hopening).1.isSome_kept
  · rcases List.mem_or_eq_of_mem_set hb with hb | rfl
    · exact hkept id (h.known b hb id hlooks)
    · rw [Call.looksFor?_of_step hstep] at hlooks
      cases hlooks

theorem works (h : Tended left s) (m : s.engine.Works e) : Tended left { s with engine := e } := by
  have hshift : ∀ id, Shift id s { s with engine := e } := fun id => .of_works m h.id_eq
  have hkept : ∀ id, (s.engine.store.kept? id).isSome → (e.store.kept? id).isSome :=
    fun id => (h.phase id).isSome_kept (hshift id)
  refine ⟨fun id => (h.phase id).shift h.made (hshift id), h.made, fun id ht => ?_,
    fun c hc id hlooks => hkept id (h.known c hc id hlooks)⟩
  cases ht with
  | stored hk => exact hk
  | answered hcall => exact hkept id (h.told id (.answered hcall))
  | @announced workflow hev =>
    have hold : .runStarted id workflow ∈ s.engine.events := by
      cases m with
      | aside _ _ hevents => exact hevents ▸ hev
      | @run moved x _ m hown =>
        rcases m.events_eq hown with heq | ⟨event, rfl, heq⟩
        · exact heq ▸ hev
        · refine (List.mem_append.mp (heq ▸ hev)).resolve_right fun hnew => ?_
          -- what a run announces is true of it, and it does not announce a start
          obtain ⟨run, hr⟩ := Option.ne_none_iff_exists'.mp fun hgone => absurd (m.not_own_of_gone hgone) nofun
          obtain ⟨r, p, e₀, past, entered, lives⟩ := (h.phase moved).of_alive hr
          obtain ⟨_, -, -, htrue⟩ := lives.holds_of_visible entered m rfl
          rw [← List.mem_singleton.mp hnew] at htrue
          exact htrue _ rfl
    exact hkept id (h.told id (.announced hold))

end Tended

end

end Workflows
