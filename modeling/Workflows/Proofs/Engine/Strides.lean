/-
  Workflows.Proofs.Engine.Strides — what a step of a start call does, and what else may happen.

  `Strides` lists the steps of a start call with their guards; what each does to the lock, the
  store and the runs that are alive is read off it once here. `Elsewhere` lists what an engine
  does besides serving start calls, as long as nothing is pruned: no start is forgotten by it,
  none is added, and no lock changes hands (`Elsewhere.spec`).
-/

import Workflows.Proofs.Run.History
import Workflows.Proofs.Store.Stamps

namespace Workflows

/-- Records of one origin have one stamp. -/
theorem Execution.stamp_eq_of_origin_eq {a b : Execution} (h : a.origin = b.origin) : a.stamp = b.stamp := by
  have hid := congrArg Execution.Origin.id h
  have hworkflow := congrArg Execution.Origin.workflowId h
  have hkey := congrArg Execution.Origin.idempotencyKey h
  simp only [Execution.origin] at hid hworkflow hkey
  simp only [Execution.stamp, hid, hworkflow, hkey]

/-! ## The steps of a start call -/

namespace StartCall

inductive Strides : StartCall → Engine → StartCall → Engine → Prop
  | lookedUp {workflow : String} {trigger : Json} {key : Option String} {e : Engine} {d : Definition}
      (h : e.catalog.get workflow = .ok d) :
      Strides (.lookUp workflow trigger key) e (.takeTypes ⟨d, trigger, key⟩) e
  | unknown {workflow : String} {trigger : Json} {key : Option String} {e : Engine} {f : Failure}
      (h : e.catalog.get workflow = .error f) :
      Strides (.lookUp workflow trigger key) e (.answered (.error f)) e
  | keyed {r : StartRequest} {e : Engine} {key : String} (h : r.key = some key) :
      Strides (.takeTypes r) e (.lock r e.registry key) e
  | keyless {r : StartRequest} {e : Engine} (h : r.key = none) :
      Strides (.takeTypes r) e (.prepare r e.registry) e
  | locked {r : StartRequest} {types : Registry} {key : String} {e : Engine} (h : e.locked = false) :
      Strides (.lock r types key) e (.find r types key) { e with locked := true }
  | unread {r : StartRequest} {types : Registry} {key : String} {e : Engine} {f : Failure}
      (h : e.store.find? r.definition.key key = .error f) :
      Strides (.find r types key) e (.answered (.error f)) { e with locked := false }
  | found {r : StartRequest} {types : Registry} {key : String} {e : Engine} {existing : Execution}
      (h : e.store.find? r.definition.key key = .ok (some existing)) :
      Strides (.find r types key) e (.answered (repeated r.definition types existing)) { e with locked := false }
  | unused {r : StartRequest} {types : Registry} {key : String} {e : Engine}
      (h : e.store.find? r.definition.key key = .ok none) :
      Strides (.find r types key) e (.prepare r types) e
  | prepared {r : StartRequest} {types : Registry} {e : Engine} :
      Strides (.prepare r types) e (.create (makeRecord r types e).1) (makeRecord r types e).2
  | created {p : Prepared} {e : Engine} {store : Store} (h : e.store.create p.execution = .ok store) :
      Strides (.create p) e (.announce p) { e with store }
  | uncreated {p : Prepared} {e : Engine} {f : Failure} (h : e.store.create p.execution = .error f) :
      Strides (.create p) e (.answered (.error f)) (unlock e p.execution.idempotencyKey)
  | announced {p : Prepared} {e : Engine} {plan : Plan} (h : p.plan = .ok plan) :
      Strides (.announce p) e (.enter p plan)
        ((unlock e p.execution.idempotencyKey).announce (.runStarted p.execution.id p.execution.workflowId))
  | refused {p : Prepared} {e : Engine} {f : Failure} (h : p.plan = .error f) :
      Strides (.announce p) e (.answered (.error f))
        ((unlock e p.execution.idempotencyKey).announce (.ofEnded p.execution))
  | entered {p : Prepared} {plan : Plan} {e : Engine} :
      Strides (.enter p plan) e (.answered (.ok p.execution.id))
        { e with active := e.active ++
            [(p.execution.id, { coordinator := .ofPlan p.definition plan p.types e.config p.execution })] }

variable {call call' : StartCall} {e e' : Engine}

theorem strides_of_step? (h : call.step? e = some (call', e')) : Strides call e call' e' := by
  cases call with
  | lookUp workflow trigger key =>
    simp only [step?] at h
    split at h
    next d hd => cases h; exact .lookedUp hd
    next f hf => cases h; exact .unknown hf
  | takeTypes r =>
    simp only [step?] at h
    split at h
    next key hkey => cases h; exact .keyed hkey
    next hkey => cases h; exact .keyless hkey
  | lock r types key =>
    simp only [step?] at h
    split at h
    · cases h
    next hfree => cases h; exact .locked (Bool.eq_false_iff.mpr hfree)
  | find r types key =>
    simp only [step?] at h
    split at h
    next f hf => cases h; exact .unread hf
    next existing hfound => cases h; exact .found hfound
    next hnone => cases h; exact .unused hnone
  | prepare r types => cases h; exact .prepared
  | create p =>
    simp only [step?] at h
    split at h
    next store hstore => cases h; exact .created hstore
    next f hf => cases h; exact .uncreated hf
  | announce p =>
    simp only [step?] at h
    split at h
    next plan hplan => cases h; exact .announced hplan
    next f hf => cases h; exact .refused hf
  | enter p plan => cases h; exact .entered
  | answered => cases h

/-- It holds the lock. -/
def holds : StartCall → Bool
  | .find _ _ _ => true
  | .prepare r _ => r.key.isSome
  | .create p | .announce p => p.execution.idempotencyKey.isSome
  | _ => false

/-- It has put its record into the store and has yet to answer. -/
def HasCreated : StartCall → Prop
  | .announce _ | .enter _ _ => True
  | _ => False

/-- It is for this workflow and this key. -/
def IsFor (workflow : String) (key : Option String) : StartCall → Prop
  | .lookUp w _ k => w = workflow ∧ k = key
  | .takeTypes r | .prepare r _ => r.definition.key = workflow ∧ r.key = key
  | .lock r _ k | .find r _ k => r.definition.key = workflow ∧ r.key = key ∧ key = some k
  | .create p | .announce p | .enter p _ => p.execution.workflowId = workflow ∧ p.execution.idempotencyKey = key
  | .answered _ => True

theorem unlock_eq (e : Engine) (key : Option String) :
    unlock e key = { e with locked := e.locked && !key.isSome } := by
  cases key with
  | none => simp [unlock]
  | some key => simp [unlock]

/-- The answer to a repeated start, if there is one, is the run of the key. -/
theorem id_of_repeated {d : Definition} {types : Registry} {existing : Execution} {id : String}
    (h : repeated d types existing = .ok id) : id = existing.id := by
  unfold repeated at h
  split at h
  · split at h <;> cases h
  · exact (Except.ok.inj h).symm

theorem origin_accepted (x : Execution) (p : Plan) (now : Instant) : (accepted x p now).origin = x.origin :=
  Execution.origin_transition

theorem origin_refused (x : Execution) (f : Failure) (now : Instant) : (refused x f now).origin = x.origin :=
  Execution.origin_transition (e := x)

/-- The record that is made is of the start asked for, under the next id. -/
theorem origin_makeRecord (r : StartRequest) (types : Registry) (e : Engine) :
    (makeRecord r types e).1.execution.origin = r.origin (e.ids.run e.runsNamed) := by
  simp only [makeRecord, Engine.readClock]
  cases Engine.prepare r.definition types with
  | ok p => exact origin_accepted _ _ _
  | error f => exact origin_refused _ _ _

theorem id_makeRecord (r : StartRequest) (types : Registry) (e : Engine) :
    (makeRecord r types e).1.execution.id = e.ids.run e.runsNamed :=
  congrArg Execution.Origin.id (origin_makeRecord r types e)

end StartCall

/-- Definitions stand under the keys they have. -/
def Catalog.Named (c : Catalog) : Prop := ∀ id d, Keyed.get? c.entries id = some d → d.key = id

namespace Catalog.Named

variable {c c' : Catalog} {id fresh : String} {now : Instant} {d d' : Definition}

theorem insert (h : c.Named) (hd : d.id = some id) : Catalog.Named ⟨Keyed.insert c.entries id d⟩ := by
  intro x d' hd'
  simp only [Keyed.get?_insert] at hd'
  split at hd'
  next heq => cases hd'; rw [heq, Definition.key, hd, Option.getD_some]
  next => exact h x d' hd'

theorem create (h : c.Named) (hc : c.create fresh now d = .ok (c', d')) : c'.Named := by
  simp only [Catalog.create] at hc
  split at hc
  · cases hc
  · cases hc; exact h.insert rfl

theorem update (h : c.Named) (hc : c.update id now d = .ok (c', d')) : c'.Named := by
  simp only [Catalog.update, bind, Except.bind] at hc
  split at hc
  · cases hc
  · cases hc; exact h.insert rfl

theorem delete (h : c.Named) (hc : c.delete id = .ok c') : c'.Named := by
  simp only [Catalog.delete, bind, Except.bind] at hc
  split at hc
  · cases hc
  · cases hc; exact fun x d hd => h x d (Keyed.get?_of_get?_erase hd)

end Catalog.Named

namespace Engine

/-- The stamps of the runs that are alive. -/
def running (e : Engine) : List Stamp := e.active.map (·.2.coordinator.execution.stamp)

end Engine

namespace StartCall.Strides

variable {call call' : StartCall} {e e' : Engine} {workflow : String} {key : Option String}

theorem catalog_eq (h : Strides call e call' e') : e'.catalog = e.catalog := by
  cases h with
  | uncreated | announced | refused => rw [unlock_eq]; try rfl
  | _ => rfl

theorem isFor (h : Strides call e call' e') (hnamed : e.catalog.Named) (hfor : call.IsFor workflow key) :
    call'.IsFor workflow key := by
  cases h with
  | @lookedUp w trigger k _ d hd =>
    obtain ⟨rfl, rfl⟩ := hfor
    simp only [Catalog.get] at hd
    split at hd
    next d' hget => cases hd; exact ⟨hnamed _ _ hget, rfl⟩
    next => cases hd
  | keyed hkey => exact ⟨hfor.1, hfor.2, hfor.2.symm.trans hkey⟩
  | keyless | locked | created | announced => exact hfor
  | unused => exact ⟨hfor.1, hfor.2.1⟩
  | @prepared r types =>
    have horigin := origin_makeRecord r types e
    exact ⟨(congrArg Execution.Origin.workflowId horigin).trans hfor.1,
      (congrArg Execution.Origin.idempotencyKey horigin).trans hfor.2⟩
  | unknown | unread | found | uncreated | refused | entered => exact True.intro

/-- The lock is taken by the call that comes to hold it, and free once that call lets go. -/
theorem locked_add (h : Strides call e call' e') (hfor : call.IsFor workflow key)
    (hlocked : call.holds = true → e.locked = true) :
    e'.locked.toNat + call.holds.toNat = e.locked.toNat + call'.holds.toNat := by
  cases h with
  | locked hfree => simp [holds, hfree]
  | unread | found => simp [holds, hlocked rfl]
  | unused => simp [holds, hfor.2.1, hfor.2.2]
  | @prepared r types =>
    have hkey : (makeRecord r types e).1.execution.idempotencyKey = r.key :=
      congrArg Execution.Origin.idempotencyKey (origin_makeRecord r types e)
    rw [holds, holds, hkey]
    rfl
  | @uncreated p | @announced p | @refused p =>
    cases hkey : p.execution.idempotencyKey with
    | none => simp [holds, hkey, unlock_eq, Engine.announce]
    | some k => simp [holds, hkey, unlock_eq, Engine.announce, hlocked (by rw [holds, hkey]; rfl)]
  | keyless hkey => simp [holds, hkey]
  | lookedUp | unknown | keyed | created | entered => rfl

/-- The store changes only when a record is put into it. -/
theorem store_eq (h : Strides call e call' e') :
    e'.store = e.store ∨ ∃ p, call = .create p ∧ call' = .announce p ∧ e.store.create p.execution = .ok e'.store := by
  cases h with
  | created hstore => exact .inr ⟨_, rfl, rfl, hstore⟩
  | uncreated | announced | refused => rw [unlock_eq]; exact .inl rfl
  | _ => exact .inl rfl

/-- A run comes alive only when a call enters it. -/
theorem running_subset (h : Strides call e call' e') {x : Stamp} (hx : x ∈ e'.running) :
    x ∈ e.running ∨ ∃ p plan, call = .enter p plan ∧ x = p.execution.stamp := by
  cases h with
  | @entered p plan =>
    simp only [Engine.running, List.map_append, List.map_cons, List.map_nil, List.mem_append, List.mem_singleton] at hx
    exact hx.imp_right fun heq => ⟨p, plan, rfl, heq⟩
  | uncreated | announced | refused => rw [unlock_eq] at hx; exact .inl hx
  | _ => exact .inl hx

/-- A call that has put its record into the store did so in this step or before. -/
theorem hasCreated (h : Strides call e call' e') (hcreated : call'.HasCreated) :
    call.HasCreated ∨ e'.store ≠ e.store := by
  cases h with
  | @created p _ store hstore =>
    refine .inr fun heq => ?_
    have hlength := congrArg (fun s : Store => s.stamps.length) heq
    simp [(Store.stamps_create hstore).1] at hlength
  | announced => exact .inl True.intro
  | _ => cases hcreated

/-- Only a call that has put its record into the store announces anything or enters a run. -/
theorem hasCreated_of_seen (h : Strides call e call' e') (hseen : e'.events ≠ e.events ∨ e'.active ≠ e.active) :
    call.HasCreated := by
  cases h with
  | announced | refused | entered => exact True.intro
  | uncreated => simp [unlock_eq] at hseen
  | _ => exact hseen.elim (absurd rfl) (absurd rfl)

end StartCall.Strides

/-! ## What else may happen -/

namespace Engine

/-- What an engine does besides serving start calls; nothing is pruned. -/
inductive Elsewhere (e : Engine) : Engine → Prop
  | run {id : String} {effect : Option Effect} {e' : Engine} (h : e.stepRun? id = some (e', effect)) : Elsewhere e e'
  | signal (id : String) (s : Signal) : Elsewhere e (e.signal id s)
  | cancel (id : String) : Elsewhere e (e.cancelActive id)
  | createWorkflow {d d' : Definition} {e' : Engine} (h : e.createWorkflow d = .ok (e', d')) : Elsewhere e e'
  | updateWorkflow {id : String} {d d' : Definition} {e' : Engine} (h : e.updateWorkflow id d = .ok (e', d')) :
      Elsewhere e e'
  | deleteWorkflow {id : String} {e' : Engine} (h : e.deleteWorkflow id = .ok e') : Elsewhere e e'
  /-- A request for an error workflow is taken up; the start it asks for is a call of its own. -/
  | taken {r : ErrorRequest} {rest : List ErrorRequest} (h : e.requests = r :: rest) :
      Elsewhere e { e with requests := rest }
  | registered (types : Registry) : Elsewhere e { e with registry := types }
  | passed (now : Instant) : Elsewhere e { e with clock := now }

/-- What holds of an engine whatever calls it serves. -/
structure Consistent (e : Engine) : Prop where
  ids : (e.store.stamps.map Stamp.id).Nodup
  /-- A key is used once for a workflow. -/
  keys : ∀ workflow key, e.store.stamps.countP (·.isUnder workflow key) ≤ 1
  /-- What is held of a run that is alive comes from the same start. -/
  runs : ∀ x ∈ e.running, ∀ stamp ∈ e.store.stamps, stamp.id = x.id → stamp = x
  named : e.catalog.Named

variable {e e' : Engine} {id : String}

theorem running_subset_of_eq (h : e'.active = e.active) : e'.running ⊆ e.running := by
  intro x hx
  rwa [running, h] at hx

theorem running_modifyRun {f : ActiveRun → ActiveRun} (hactive : e'.active = e.active)
    (hf : ∀ r ∈ e.active, (f r.2).coordinator.execution.stamp ∈ e.running) :
    (e'.modifyRun id f).running ⊆ e.running := by
  intro x hx
  simp only [running, modifyRun, List.map_map, List.mem_map, Function.comp_apply, hactive] at hx
  obtain ⟨r, hr, rfl⟩ := hx
  split
  · exact hf r hr
  · exact List.mem_map.mpr ⟨r, hr, rfl⟩

theorem mem_running_of_run? {run : ActiveRun} (h : e.run? id = some run) :
    run.coordinator.execution.stamp ∈ e.running := by
  obtain ⟨r, hr, rfl⟩ := Option.map_eq_some_iff.mp h
  exact List.mem_map.mpr ⟨r, List.mem_of_find?_eq_some hr, rfl⟩

/-- What a run asks for changes neither what is known of starts nor who holds the lock. -/
theorem apply_spec {effect : Effect} (id : String)
    (hsave : ∀ record, effect = .save record → ∀ stamp ∈ e.store.stamps, stamp.id = record.id → stamp = record.stamp) :
    (e.apply id effect).running ⊆ e.running ∧ (e.apply id effect).store.stamps = e.store.stamps ∧
      (e.apply id effect).locked = e.locked ∧ (e.apply id effect).catalog = e.catalog := by
  have hstamps : ∀ r ∈ e.active, r.2.coordinator.execution.stamp ∈ e.running :=
    fun r hr => List.mem_map.mpr ⟨r, hr, rfl⟩
  have hwrite : ∀ f : Store → Except Failure Store, (∀ s, f e.store = .ok s → s.stamps = e.store.stamps) →
      (e.write f).running ⊆ e.running ∧ (e.write f).store.stamps = e.store.stamps ∧
        (e.write f).locked = e.locked ∧ (e.write f).catalog = e.catalog := by
    intro f hf
    unfold write
    split
    next s hs => exact ⟨fun _ hx => hx, hf s hs, rfl, rfl⟩
    next => exact ⟨fun _ hx => hx, rfl, rfl, rfl⟩
  cases effect with
  | save record => exact hwrite _ fun s hs => Store.stamps_update (hsave record rfl) hs
  | saveNode execution r => exact hwrite _ fun s hs => Store.stamps_putNode hs
  | emit | launch | request => exact ⟨fun _ hx => hx, rfl, rfl, rfl⟩
  | cancel | signalDone => exact ⟨running_modifyRun rfl hstamps, rfl, rfl, rfl⟩
  | leave =>
    refine ⟨fun x hx => ?_, rfl, rfl, rfl⟩
    obtain ⟨r, hr, rfl⟩ := List.mem_map.mp hx
    exact hstamps r (List.mem_filter.mp hr).1

theorem sameRun_receive (c : Coordinator) (now : Instant) (s : Signal) : c.SameRun (c.receive now s) := by
  cases s with
  | timedOut =>
    have hstart : c.SameRun { c with errands := [.cancel] } := ⟨rfl, rfl, rfl, rfl⟩
    exact hstart.trans (Coordinator.sameRun_stop _ _ _ _)
  | finished node outcome =>
    cases outcome with
    | ok ports =>
      refine Coordinator.SameRun.trans ?_ (Coordinator.sameRun_release _ _)
      exact ⟨rfl, rfl, rfl, rfl⟩
    | error e => exact ⟨rfl, rfl, rfl, rfl⟩
  | lost node => exact ⟨rfl, rfl, rfl, rfl⟩

theorem Elsewhere.spec (m : Elsewhere e e') (h : e.Consistent) :
    e'.running ⊆ e.running ∧ e'.store.stamps = e.store.stamps ∧ e'.locked = e.locked ∧ e'.catalog.Named := by
  cases m with
  | @run id effect _ hstep =>
    obtain ⟨run, c, hrun, hc, rfl⟩ := stepRun?_eq_some hstep
    have hturn := Coordinator.turn_of_step? hc
    have hmem := mem_running_of_run? hrun
    have hrunning : (e.withCoordinator id c).running ⊆ e.running :=
      running_modifyRun rfl fun _ _ => Execution.stamp_eq_of_origin_eq hturn.sameRun.origin ▸ hmem
    cases effect with
    | none => exact ⟨hrunning, rfl, rfl, h.named⟩
    | some f =>
      have hsave : ∀ record, f = .save record → ∀ stamp ∈ (e.withCoordinator id c).store.stamps,
          stamp.id = record.id → stamp = record.stamp := by
        rintro record rfl
        exact hturn.save_eq ▸ h.runs _ hmem
      obtain ⟨hsub, hstamps, hlocked, hcatalog⟩ := apply_spec id hsave
      exact ⟨fun _ hx => hrunning (hsub hx), hstamps, hlocked, hcatalog ▸ h.named⟩
  | signal id s =>
    obtain ⟨now, heq⟩ : ∃ now, e.signal id s = ({ e with clock := now } : Engine).modifyRun id fun r =>
        { r with coordinator := r.coordinator.receive e.clock s } := ⟨_, rfl⟩
    rw [heq]
    refine ⟨running_modifyRun rfl fun r hr => ?_, rfl, rfl, h.named⟩
    have := Execution.stamp_eq_of_origin_eq (sameRun_receive r.2.coordinator e.clock s).origin
    exact List.mem_map.mpr ⟨r, hr, this.symm⟩
  | cancel id => exact ⟨running_modifyRun rfl fun r hr => List.mem_map.mpr ⟨r, hr, rfl⟩, rfl, rfl, h.named⟩
  | createWorkflow hcreate =>
    simp only [Engine.createWorkflow, readClock, bind, Except.bind] at hcreate
    split at hcreate
    · cases hcreate
    next created heq => cases hcreate; exact ⟨running_subset_of_eq rfl, rfl, rfl, h.named.create heq⟩
  | updateWorkflow hupdate =>
    simp only [Engine.updateWorkflow, readClock, bind, Except.bind] at hupdate
    split at hupdate
    · cases hupdate
    next updated heq => cases hupdate; exact ⟨running_subset_of_eq rfl, rfl, rfl, h.named.update heq⟩
  | deleteWorkflow hdelete =>
    simp only [Engine.deleteWorkflow, bind, Except.bind] at hdelete
    split at hdelete
    · cases hdelete
    next deleted heq => cases hdelete; exact ⟨running_subset_of_eq rfl, rfl, rfl, h.named.delete heq⟩
  | taken | registered | passed => exact ⟨running_subset_of_eq rfl, rfl, rfl, h.named⟩

theorem Elsewhere.consistent (m : Elsewhere e e') (h : e.Consistent) : e'.Consistent := by
  obtain ⟨hrunning, hstamps, -, hnamed⟩ := m.spec h
  exact
    { ids := hstamps ▸ h.ids
      keys := hstamps ▸ h.keys
      runs := fun x hx stamp hstamp => h.runs x (hrunning hx) stamp (hstamps ▸ hstamp)
      named := hnamed }

end Engine
end Workflows
