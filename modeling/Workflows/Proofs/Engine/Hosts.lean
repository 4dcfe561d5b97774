/-
  Workflows.Proofs.Engine.Hosts — an engine, and everything that happens on it.

  A history tells of the steps of start calls (`Stride`), each with the engine before and after,
  and of the turns of runs. Between any two of them new start calls may be made, old executions
  may be pruned, workflows and node types may change and time may pass (`Aside`).

  What happens to one run leaves every other, what has been announced of it and, as long as it
  goes on, what is kept of it (`Spares`).
-/

import Workflows.Proofs.Engine.Office
import Workflows.Proofs.Engine.Retention
import Workflows.Proofs.Engine.Starts
import Workflows.Proofs.Run.Told

namespace Workflows

/-- Nothing is kept of the ids that are not stored. -/
theorem Store.kept?_eq_none_iff {s : Store} {id : String} : s.kept? id = none ↔ id ∉ s.stamps.map Stamp.id := by
  cases s with
  | memory m => simp [kept?, MemoryStore.get?, stamps, Execution.stamp]
  | table t => simp [kept?, TableStore.row?, stamps, ExecutionRow.stamp]

/-- A step of the start call at a place, and what it came to. -/
structure Stride where
  place : Nat
  caller : Caller
  next : StartCall
  before : Engine
  after : Engine

/-- What a history tells of. -/
inductive Entry where
  | stride (t : Stride)
  | turn (id : String) (x : Happening)

namespace Engine

/-- What an engine does that concerns neither its start calls nor its runs. -/
inductive Aside (e : Engine) : Engine → Prop
  | createWorkflow {d d' : Definition} {e' : Engine} (h : e.createWorkflow d = .ok (e', d')) : Aside e e'
  | updateWorkflow {id : String} {d d' : Definition} {e' : Engine} (h : e.updateWorkflow id d = .ok (e', d')) :
      Aside e e'
  | deleteWorkflow {id : String} {e' : Engine} (h : e.deleteWorkflow id = .ok e') : Aside e e'
  /-- A request for an error workflow is taken up; the start it asks for is a call of its own. -/
  | taken {r : ErrorRequest} {rest : List ErrorRequest} (h : e.requests = r :: rest) :
      Aside e { e with requests := rest }
  | registered (types : Registry) : Aside e { e with registry := types }
  | passed (now : Instant) : Aside e { e with clock := now }

/-- Nothing has happened yet on the engine, and the ids it will give to runs are all different
and not in use. -/
structure IsReady (e : Engine) : Prop where
  new : e.IsNew
  consistent : e.Consistent
  unlocked : e.locked = false
  distinct : Function.Injective e.ids.run
  unused : ∀ n, e.runsNamed ≤ n → e.store.kept? (e.ids.run n) = none

/-- What has happened since `e₀`, in order, and led to an engine and the start calls made on it. -/
inductive Hosts (e₀ : Engine) : List Entry → Desk → Prop
  | opens : Hosts e₀ [] ⟨e₀, []⟩
  | asked {past : List Entry} {s : Desk} (h : Hosts e₀ past s) (workflow : String) (trigger : Json)
      (key : Option String) : Hosts e₀ past { s with callers := s.callers ++ [.ofWorkflow workflow trigger key] }
  | given {past : List Entry} {s : Desk} (h : Hosts e₀ past s) (d : Definition) (trigger : Json)
      (key : Option String) : Hosts e₀ past { s with callers := s.callers ++ [.ofDefinition d trigger key] }
  | stride {past : List Entry} {s : Desk} {i : Nat} {c : Caller} {next : StartCall} {e : Engine} (h : Hosts e₀ past s)
      (hc : s.callers[i]? = some c) (hstep : c.call.step? s.engine = some (next, e)) :
      Hosts e₀ (past ++ [.stride ⟨i, c, next, s.engine, e⟩]) ⟨e, s.callers.set i { c with call := next }⟩
  /-- A run takes a turn, or is asked to cancel. What a node puts out is a map by port. -/
  | turn {past : List Entry} {s : Desk} {id : String} {x : Happening} {e : Engine} (h : Hosts e₀ past s)
      (m : s.engine.Moves id x e) (happens : x ≠ .elsewhere)
      (ports : ∀ node ports, x = .finished node (.ok ports) → Keyed.Sorted ports) :
      Hosts e₀ (past ++ [.turn id x]) { s with engine := e }
  | aside {past : List Entry} {s : Desk} {e : Engine} (h : Hosts e₀ past s) (m : s.engine.Aside e) :
      Hosts e₀ past { s with engine := e }
  | pruned {past : List Entry} {s : Desk} (h : Hosts e₀ past s) (before : Instant) :
      Hosts e₀ past { s with engine := (s.engine.prune before).1 }

/-- The events of one execution, in the order they were announced. -/
def eventsOf (e : Engine) (id : String) : List Event := e.events.filter (·.executionId = id)

/-- The run and what has been announced of it are as they were. -/
structure Spares (id : String) (e e' : Engine) : Prop where
  run : e'.run? id = e.run? id
  /-- So is what is kept of it, unless it has ended and is pruned. -/
  kept : e'.store.kept? id = e.store.kept? id ∨
    e'.store.kept? id = none ∧ ∀ k, e.store.kept? id = some k → k.status.isTerminal = true
  events : e'.eventsOf id = e.eventsOf id

variable {e e' : Engine} {id other : String} {x : Happening}

theorem Spares.refl (id : String) (e : Engine) : e.Spares id e := ⟨rfl, .inl rfl, rfl⟩

theorem eventsOf_append {events : List Event} (h : e'.events = e.events ++ events) :
    e'.eventsOf id = e.eventsOf id ++ events.filter (·.executionId = id) := by
  rw [eventsOf, h, List.filter_append]
  rfl

/-- What was announced of another run is none of the events of this one. -/
theorem eventsOf_announced_of_ne {event : Event} (h : e'.events = e.events ++ [event]) (hne : event.executionId ≠ id) :
    e'.eventsOf id = e.eventsOf id := by
  rw [eventsOf_append h, List.filter_cons_of_neg (by simpa using hne), List.filter_nil, List.append_nil]

/-- All that may be different afterwards. -/
theorem Aside.eq (m : e.Aside e') : ∃ catalog registry requests named clock,
    e' = { e with catalog, registry, requests, workflowsNamed := named, clock } ∧
      (requests = e.requests ∨ ∃ q, e.requests = q :: requests) ∧ (e.catalog.Named → catalog.Named) := by
  cases m with
  | createWorkflow h =>
    simp only [Engine.createWorkflow, readClock, bind, Except.bind] at h
    split at h
    · cases h
    next created heq => cases h; exact ⟨_, _, _, _, _, rfl, .inl rfl, fun hnamed => hnamed.create heq⟩
  | updateWorkflow h =>
    simp only [Engine.updateWorkflow, readClock, bind, Except.bind] at h
    split at h
    · cases h
    next updated heq => cases h; exact ⟨_, _, _, _, _, rfl, .inl rfl, fun hnamed => hnamed.update heq⟩
  | deleteWorkflow h =>
    simp only [Engine.deleteWorkflow, bind, Except.bind] at h
    split at h
    · cases h
    next deleted heq => cases h; exact ⟨_, _, _, _, _, rfl, .inl rfl, fun hnamed => hnamed.delete heq⟩
  | taken h => exact ⟨_, _, _, _, _, rfl, .inr ⟨_, h⟩, id⟩
  | registered | passed => exact ⟨_, _, _, _, _, rfl, .inl rfl, id⟩

theorem Aside.spec (m : e.Aside e') : e'.active = e.active ∧ e'.store = e.store ∧ e'.events = e.events ∧
    e'.ids = e.ids ∧ e'.runsNamed = e.runsNamed ∧ e'.locked = e.locked ∧ (e.catalog.Named → e'.catalog.Named) := by
  obtain ⟨_, _, _, _, _, rfl, -, hnamed⟩ := m.eq
  exact ⟨rfl, rfl, rfl, rfl, rfl, rfl, hnamed⟩

theorem Aside.elsewhere (m : e.Aside e') : e.Elsewhere e' := by
  cases m with
  | createWorkflow h => exact .createWorkflow h
  | updateWorkflow h => exact .updateWorkflow h
  | deleteWorkflow h => exact .deleteWorkflow h
  | taken h => exact .taken h
  | registered types => exact .registered types
  | passed now => exact .passed now

theorem Aside.spares (m : e.Aside e') (id : String) : e.Spares id e' := by
  obtain ⟨hactive, hstore, hevents, -⟩ := m.spec
  exact ⟨run?_congr hactive, .inl (by rw [hstore]), by rw [eventsOf, hevents, eventsOf]⟩

/-! ## Turns -/

theorem ids_write (f : Store → Except Failure Store) : (e.write f).ids = e.ids ∧ (e.write f).runsNamed = e.runsNamed := by
  unfold write
  split <;> exact ⟨rfl, rfl⟩

theorem events_write (f : Store → Except Failure Store) : (e.write f).events = e.events := by
  unfold write
  split <;> rfl

/-- No turn names a run. -/
theorem Moves.ids_eq (m : e.Moves id x e') (happens : x ≠ .elsewhere) :
    e'.ids = e.ids ∧ e'.runsNamed = e.runsNamed := by
  cases m with
  | @step _ effect h =>
    obtain ⟨run, c, -, -, rfl⟩ := stepRun?_eq_some h
    cases effect with
    | none => exact ⟨rfl, rfl⟩
    | some f =>
      cases f with
      | save record => exact ids_write (e := e.withCoordinator id c) (·.update record)
      | saveNode execution r => exact ids_write (e := e.withCoordinator id c) (·.putNode execution r)
      | emit | launch | cancel | request | signalDone | leave => exact ⟨rfl, rfl⟩
  | cancel | timeUp | finished => exact ⟨rfl, rfl⟩
  | elsewhere => exact absurd rfl happens

/-- A turn announces what the run emits, and nothing else. -/
theorem Moves.announces (m : e.Moves id x e') (happens : x ≠ .elsewhere) :
    e'.events = e.events ++ (Moment.event? ⟨e, x⟩).toList := by
  cases m with
  | @step _ effect h =>
    obtain ⟨run, c, -, -, rfl⟩ := stepRun?_eq_some h
    cases effect with
    | none => exact (List.append_nil _).symm
    | some f =>
      cases f with
      | emit event => rfl
      | save record =>
        exact (events_write (e := e.withCoordinator id c) (·.update record)).trans (List.append_nil _).symm
      | saveNode execution r =>
        exact (events_write (e := e.withCoordinator id c) (·.putNode execution r)).trans (List.append_nil _).symm
      | launch | cancel | request | signalDone | leave => exact (List.append_nil _).symm
  | cancel | timeUp | finished => exact (List.append_nil _).symm
  | elsewhere => exact absurd rfl happens

/-- A request to cancel leaves what is kept and what was announced, and every run but one. -/
theorem spares_cancelActive (hne : other ≠ id) : e.Spares other (e.cancelActive id) :=
  ⟨run?_modifyRun_of_ne _ hne, .inl rfl, rfl⟩

/-- To ask a run to cancel that is not there changes nothing of it. -/
theorem spares_cancelActive_of_gone (hgone : e.run? id = none) : e.Spares id (e.cancelActive id) :=
  ⟨by rw [cancelActive, run?_modifyRun, hgone, Option.map_none], .inl rfl, rfl⟩

/-- All that can happen to a run that is not there is that it is asked to cancel. -/
theorem Moves.spares_of_gone (m : e.Moves id x e') (happens : x ≠ .elsewhere) (hgone : e.run? id = none) :
    x = .cancel ∧ ∀ other, e.Spares other e' := by
  have hown := m.not_own_of_gone hgone
  cases m with
  | cancel =>
    refine ⟨rfl, fun other => ?_⟩
    by_cases hne : other = id
    · subst hne
      exact spares_cancelActive_of_gone hgone
    · exact spares_cancelActive hne
  | elsewhere => exact absurd rfl happens
  | step | timeUp | finished => cases hown

/-- A turn of one run spares every other. -/
theorem Moves.spares (m : e.Moves id x e') (happens : x ≠ .elsewhere)
    (hid : ∀ run, e.run? id = some run → run.coordinator.execution.id = id)
    (hown : ∀ event, Moment.event? ⟨e, x⟩ = some event → event.executionId = id) (hne : other ≠ id) :
    e.Spares other e' := by
  cases hx : x.isOwn with
  | false =>
    cases m with
    | cancel => exact spares_cancelActive hne
    | elsewhere => exact absurd rfl happens
    | step | timeUp | finished => cases hx
  | true =>
    obtain ⟨hr, hk⟩ := m.others hx hid hne
    refine ⟨hr, .inl hk, ?_⟩
    have hevents := m.announces happens
    cases hevent : Moment.event? ⟨e, x⟩ with
    | none => rw [eventsOf, hevents, hevent, Option.toList_none, List.append_nil, eventsOf]
    | some event =>
      rw [hevent] at hevents
      exact eventsOf_announced_of_ne hevents (by rw [hown event hevent]; exact hne.symm)

end Engine

/-! ## Strides -/

namespace StartCall

/-- The run whose record the call is about to put into the store, to announce or to enter. -/
def carried? : StartCall → Option Prepared
  | .create p | .announce p | .enter p _ => some p
  | _ => none

namespace Strides

variable {call next : StartCall} {e e' : Engine} {id : String} {p : Prepared}

/-- A step that is not about a run spares it. -/
theorem spares (h : Strides call e next e') (hother : ∀ p, call.carried? = some p → p.execution.id ≠ id) :
    e.Spares id e' := by
  cases h with
  | @created p _ store hstore => exact ⟨rfl, .inl ((Store.kept?_create hstore).2 id (hother p rfl).symm), rfl⟩
  | uncreated => rw [unlock_eq]; exact ⟨rfl, .inl rfl, rfl⟩
  | @announced p =>
    rw [unlock_eq]
    exact ⟨rfl, .inl rfl, Engine.eventsOf_announced_of_ne rfl (hother p rfl)⟩
  | @refused p =>
    rw [unlock_eq]
    exact ⟨rfl, .inl rfl, Engine.eventsOf_announced_of_ne rfl (hother p rfl)⟩
  | @entered p =>
    have hne : (p.execution.id == id) = false := beq_eq_false_iff_ne.mpr (hother p rfl)
    exact ⟨by simp [Engine.run?, List.find?_append, hne], .inl rfl, rfl⟩
  | _ => exact ⟨rfl, .inl rfl, rfl⟩

/-- Only a record that is made takes an id. -/
theorem ids_eq (h : Strides call e next e') : e'.ids = e.ids ∧
    (e'.runsNamed = e.runsNamed ∧ (∀ p, next ≠ .create p) ∧ (∀ p, next.carried? = some p → call.carried? = some p) ∨
      e'.runsNamed = e.runsNamed + 1 ∧ ∃ r types, call = .prepare r types ∧
        next = .create (makeRecord r types e).1 ∧ e' = (makeRecord r types e).2) := by
  have hnone : ∀ p, none = some p → call.carried? = some p := fun p hp => nomatch hp
  have hmakes : ∀ {n : StartCall}, n.carried? = none → ∀ p, n ≠ .create p := fun hn p heq => by
    rw [heq] at hn
    cases hn
  cases h with
  | @prepared r types => exact ⟨rfl, .inr ⟨rfl, r, types, rfl, rfl, rfl⟩⟩
  | created => exact ⟨rfl, .inl ⟨rfl, by simp, fun _ hp => hp⟩⟩
  | announced => rw [unlock_eq]; exact ⟨rfl, .inl ⟨rfl, by simp, fun _ hp => hp⟩⟩
  | uncreated | refused => rw [unlock_eq]; exact ⟨rfl, .inl ⟨rfl, hmakes rfl, hnone⟩⟩
  | _ => exact ⟨rfl, .inl ⟨rfl, hmakes rfl, hnone⟩⟩

/-- What has been announced stays so. -/
theorem events_grow (h : Strides call e next e') : e.events <+: e'.events := by
  cases h with
  | uncreated => rw [unlock_eq]
  | announced | refused => rw [unlock_eq]; exact List.prefix_append _ _
  | _ => exact List.prefix_refl _

end Strides
end StartCall

/-! ## Callers -/

/-- The call is about to put the record of the run into the store, to announce it or to enter it. -/
def Caller.Bears (c : Caller) (id : String) : Prop := ∃ p, c.call.carried? = some p ∧ p.execution.id = id

/-- The run is as it was, and so are the calls that are about it. -/
structure Desk.Spares (id : String) (s s' : Desk) : Prop where
  engine : s.engine.Spares id s'.engine
  callers : ∀ (j : Nat) (c : Caller), c.Bears id → (s'.callers[j]? = some c ↔ s.callers[j]? = some c)

namespace Desk

variable {s : Desk} {id : String} {i : Nat} {c : Caller} {next : StartCall} {e : Engine}

theorem spares_of_engine (h : s.engine.Spares id e) : s.Spares id { s with engine := e } := ⟨h, fun _ _ _ => Iff.rfl⟩

/-- A new call is about no run. -/
theorem spares_asked (hnew : c.call.carried? = none) : s.Spares id { s with callers := s.callers ++ [c] } := by
  refine ⟨.refl id _, fun j b hb => ?_⟩
  rw [List.getElem?_append]
  split
  · rfl
  next hlt =>
    rw [List.getElem?_eq_none (Nat.not_lt.mp hlt)]
    refine iff_of_false (fun h => ?_) nofun
    obtain ⟨p, hp, -⟩ := hb
    rw [List.mem_singleton.mp (List.mem_of_getElem? h), hnew] at hp
    cases hp

/-- A step of a call that is not about the run, and has not become so. -/
theorem spares_stride {c : Caller} (hc : s.callers[i]? = some c) (hs : c.call.Strides s.engine next e) (hbefore : ¬ c.Bears id)
    (hafter : ¬ Caller.Bears { c with call := next } id) : s.Spares id ⟨e, s.callers.set i { c with call := next }⟩ := by
  refine ⟨hs.spares fun p hp hid => hbefore ⟨p, hp, hid⟩, fun j b hb => ?_⟩
  rw [Office.getElem?_set_eq hc]
  split
  next heq =>
    rw [heq, hc]
    exact iff_of_false (fun h => hafter (Option.some.inj h ▸ hb)) fun h => hbefore (Option.some.inj h ▸ hb)
  next => rfl

end Desk

/-! ## What a history tells of -/

namespace Engine

variable {e₀ e : Engine} {past : List Entry} {s : Desk} {id : String}

/-- A history is cut at one of the steps of a start call. What had been announced by then still is. -/
theorem Hosts.of_stride (h : Hosts e₀ past s) {t : Stride} (ht : .stride t ∈ past) :
    ∃ before after s₁, past = before ++ .stride t :: after ∧ Hosts e₀ before s₁ ∧ s₁.engine = t.before ∧
      s₁.callers[t.place]? = some t.caller ∧ t.caller.call.step? t.before = some (t.next, t.after) ∧
      t.after.events <+: s.engine.events := by
  induction h with
  | opens => exact absurd ht List.not_mem_nil
  | asked _ _ _ _ ih | given _ _ _ _ ih => exact ih ht
  | @stride past s i c next e hbefore hc hstep ih =>
    rcases List.mem_append.mp ht with ht | ht
    · obtain ⟨before, after, s₁, rfl, hs₁, hengine, hcaller, htaken, hevents⟩ := ih ht
      refine ⟨before, after ++ [_], s₁, List.append_assoc _ _ _, hs₁, hengine, hcaller, htaken, ?_⟩
      exact hevents.trans (StartCall.strides_of_step? hstep).events_grow
    · cases List.mem_singleton.mp ht
      exact ⟨past, [], s, rfl, hbefore, rfl, hc, hstep, List.prefix_refl _⟩
  | @turn past s id x e hbefore m happens ports ih =>
    have ht : .stride t ∈ past := (List.mem_append.mp ht).resolve_right fun hlast => by
      cases List.mem_singleton.mp hlast
    obtain ⟨before, after, s₁, rfl, hs₁, hengine, hcaller, htaken, hevents⟩ := ih ht
    refine ⟨before, after ++ [_], s₁, List.append_assoc _ _ _, hs₁, hengine, hcaller, htaken, ?_⟩
    exact hevents.trans (m.announces happens ▸ List.prefix_append _ _)
  | aside _ m ih =>
    obtain ⟨before, after, s₁, hpast, hs₁, hengine, hcaller, htaken, hevents⟩ := ih ht
    exact ⟨before, after, s₁, hpast, hs₁, hengine, hcaller, htaken, hevents.trans (by rw [m.spec.2.2.1])⟩
  | pruned _ before ih => exact ih ht

/-- What every turn of a run keeps is kept while the run goes on and nothing else happens. -/
theorem Lives.turns {motive : List Entry → Engine → Prop} {e₁ : Engine} {life : List Moment} (hlife : Lives id e₁ life e)
    (happens : ∀ m ∈ life, m.happening ≠ .elsewhere)
    (ports : ∀ m ∈ life, ∀ node out, m.happening = .finished node (.ok out) → Keyed.Sorted out) (start : motive past e₁)
    (turn : ∀ past e e' x, motive past e → e.Moves id x e' → x ≠ .elsewhere →
      (∀ node out, x = .finished node (.ok out) → Keyed.Sorted out) → motive (past ++ [.turn id x]) e') :
    motive (past ++ life.map fun m => .turn id m.happening) e := by
  induction hlife with
  | start => rw [List.map_nil, List.append_nil]; exact start
  | next _ m ih =>
    obtain ⟨happens, hlast⟩ := List.forall_mem_append.mp happens
    obtain ⟨ports, hports⟩ := List.forall_mem_append.mp ports
    rw [List.map_append, ← List.append_assoc]
    exact turn _ _ _ _ (ih happens ports) m (hlast _ List.mem_cons_self) (hports _ List.mem_cons_self)

theorem Hosts.lives {life : List Moment} (h : Hosts e₀ past s) (hlife : Lives id s.engine life e)
    (happens : ∀ m ∈ life, m.happening ≠ .elsewhere)
    (ports : ∀ m ∈ life, ∀ node out, m.happening = .finished node (.ok out) → Keyed.Sorted out) :
    Hosts e₀ (past ++ life.map fun m => .turn id m.happening) { s with engine := e } :=
  hlife.turns (motive := fun past e => Hosts e₀ past { s with engine := e }) happens ports h
    fun _ _ _ _ h m happens ports => h.turn m happens ports

/-- Lets the calls at some places take a step each, one after the other. -/
def takeStrides : List Nat → Desk → List Entry × Desk
  | [], s => ([], s)
  | i :: rest, s =>
    match s.callers[i]? with
    | none => takeStrides rest s
    | some c =>
      match c.call.step? s.engine with
      | some (next, e) =>
        let (later, s') := takeStrides rest ⟨e, s.callers.set i { c with call := next }⟩
        (.stride ⟨i, c, next, s.engine, e⟩ :: later, s')
      | none => takeStrides rest s

theorem Hosts.takeStrides (h : Hosts e₀ past s) (places : List Nat) :
    Hosts e₀ (past ++ (takeStrides places s).1) (Engine.takeStrides places s).2 := by
  induction places generalizing past s with
  | nil => exact (List.append_nil past).symm ▸ h
  | cons i rest ih =>
    unfold Engine.takeStrides
    split
    next => exact ih h
    next c hc =>
      split
      next next e hstep =>
        have := ih (h.stride hc hstep)
        rwa [List.append_assoc] at this
      next => exact ih h

theorem mem_runNode {node : String} {outcome : Outcome} {before after : Nat} {m : Moment}
    (hm : m ∈ (runNode id node outcome before after e).1) :
    (∃ effect, m.happening = .step effect) ∨ m.happening = .finished node outcome := by
  rcases List.mem_append.mp hm with hm | hm
  · exact .inl (mem_takeSteps hm)
  · rcases List.mem_cons.mp hm with rfl | hm
    · exact .inr rfl
    · exact .inl (mem_takeSteps hm)

theorem happens_of_runNode {node : String} {outcome : Outcome} {before after : Nat} :
    ∀ m ∈ (runNode id node outcome before after e).1, m.happening ≠ .elsewhere := by
  intro m hm
  rcases mem_runNode hm with ⟨effect, hx⟩ | hx <;> rw [hx] <;> nofun

theorem ports_of_runNode {node : String} {outcome : Outcome} {before after : Nat}
    (ports : ∀ out, outcome = .ok out → Keyed.Sorted out) : ∀ m ∈ (runNode id node outcome before after e).1,
      ∀ node' out, m.happening = .finished node' (.ok out) → Keyed.Sorted out := by
  intro m hm node' out hout
  rcases mem_runNode hm with ⟨effect, hx⟩ | hx <;> rw [hx] at hout <;> cases hout
  exact ports out rfl

theorem Hosts.runNode (h : Hosts e₀ past s) (id node : String) (outcome : Outcome) (before after : Nat)
    (hw : waitsFor id node (takeSteps id before s.engine).2 = true)
    (ports : ∀ out, outcome = .ok out → Keyed.Sorted out) :
    Hosts e₀ (past ++ (runNode id node outcome before after s.engine).1.map fun m => .turn id m.happening)
      { s with engine := (Engine.runNode id node outcome before after s.engine).2 } :=
  h.lives (.runNode hw) happens_of_runNode (ports_of_runNode ports)

theorem Hosts.takeSteps (h : Hosts e₀ past s) (id : String) (fuel : Nat) :
    Hosts e₀ (past ++ (takeSteps id fuel s.engine).1.map fun m => .turn id m.happening)
      { s with engine := (Engine.takeSteps id fuel s.engine).2 } := by
  refine h.lives (Lives.start.takeSteps fuel) (fun m hm => ?_) fun m hm node out hout => ?_
  · obtain ⟨effect, hx⟩ := mem_takeSteps hm
    rw [hx]
    nofun
  · obtain ⟨effect, hx⟩ := mem_takeSteps hm
    rw [hx] at hout
    cases hout

/-! ## A start on an engine of its own -/

/-- The same engine, but every run is given another id. -/
def host (e : Engine) : Engine :=
  { e with ids := { run := fun n => String.ofList ("run".toList ++ List.replicate n '+') } }

theorem isReady_host (hstore : e.store.stamps = []) (hactive : e.active = []) (hcatalog : e.catalog.entries = [])
    (hevents : e.events = []) (hlocked : e.locked = false) : e.host.IsReady where
  new := ⟨hactive, hevents⟩
  consistent := consistent_of_empty hstore hactive hcatalog
  unlocked := hlocked
  distinct := fun n m hids => by
    have hends := List.append_cancel_left (String.ofList_injective hids)
    simpa using congrArg List.length hends
  unused := fun n _ => Store.kept?_eq_none_iff.mpr (by rw [host, hstore]; exact List.not_mem_nil)

/-- A client starts a definition, and the start goes on to its end. -/
def started (e : Engine) (d : Definition) (trigger : Json) (key : Option String) : List Entry × Desk :=
  takeStrides [0, 0, 0, 0, 0, 0, 0] ⟨e, [.ofDefinition d trigger key]⟩

theorem hosts_started (e : Engine) (d : Definition) (trigger : Json) (key : Option String) :
    Hosts e (e.started d trigger key).1 (e.started d trigger key).2 :=
  (Hosts.given .opens d trigger key).takeStrides [0, 0, 0, 0, 0, 0, 0]

end Engine
end Workflows
