/-
  Workflows.Proofs.Engine.Office — start, cancel and wait calls, in any order of their steps.

  An `Office` is an engine with the calls that clients have made on it. `Attends` lists the steps
  these calls have taken (`Visit`); between any two of them new calls may be made, of runs that
  clients know of (`Tells`), and runs go on (`Engine.Works`).

  Whatever happens in an office does one of four things to a run (`Shift`): it moves as its own
  life has it, its record is put into the store, it is announced, or it is entered among those
  that are alive. What happens to one run leaves all others (`Moves.others`).
-/

import Workflows.Proofs.Engine.Strides
import Workflows.Proofs.Run.Clients

namespace Workflows

/-! ## The other runs -/

namespace Engine

variable {id other : String} {e e' : Engine} {x : Happening}

theorem run?_congr (h : e'.active = e.active) : e'.run? id = e.run? id := by
  rw [run?, h, run?]

theorem run?_modifyRun_of_ne (f : ActiveRun → ActiveRun) (hne : other ≠ id) :
    (e.modifyRun id f).run? other = e.run? other := by
  simp only [run?, modifyRun]
  induction e.active with
  | nil => rfl
  | cons p rest ih =>
    obtain ⟨k, r⟩ := p
    by_cases hk : k = id
    · have hother : (id == other) = false := beq_eq_false_iff_ne.mpr hne.symm
      simpa [hk, List.find?_cons, hother] using ih
    · cases hother : k == other with
      | true => simp [hk, hother]
      | false => simpa [hk, List.find?_cons, hother] using ih

theorem run?_apply_of_ne (effect : Effect) (hne : other ≠ id) : (e.apply id effect).run? other = e.run? other := by
  cases effect with
  | save | saveNode => exact run?_write _
  | emit | launch | request => rfl
  | cancel | signalDone => exact run?_modifyRun_of_ne _ hne
  | leave =>
    have hsame : (fun p : String × ActiveRun => decide (p.1 ≠ id ∧ (p.1 == other) = true)) = (·.1 == other) := by
      funext p
      cases hp : p.1 == other with
      | true => simp [beq_iff_eq.mp hp, hne]
      | false => simp
    simp only [run?, apply, List.find?_filter, decide_eq_true_eq, hsame]

theorem kept?_write_of_ne {f : Store → Except Failure Store}
    (hf : ∀ s, f e.store = .ok s → s.kept? other = e.store.kept? other) :
    (e.write f).store.kept? other = e.store.kept? other := by
  unfold write
  split
  next s hs => exact hf s hs
  next => rfl

/-- What happens to a run leaves every other run and what is kept of it. -/
theorem Moves.others (m : e.Moves id x e') (hown : x.isOwn = true)
    (hid : ∀ run, e.run? id = some run → run.coordinator.execution.id = id) (hne : other ≠ id) :
    e'.run? other = e.run? other ∧ e'.store.kept? other = e.store.kept? other := by
  cases m with
  | @step _ effect h =>
    obtain ⟨run, c, hrun, hstep, rfl⟩ := stepRun?_eq_some h
    have hturn := Coordinator.turn_of_step? hstep
    have hbefore : (e.withCoordinator id c).run? other = e.run? other :=
      (run?_modifyRun_of_ne _ hne).trans (run?_congr rfl)
    cases effect with
    | none => exact ⟨hbefore, rfl⟩
    | some f =>
      refine ⟨(run?_apply_of_ne f hne).trans hbefore, ?_⟩
      cases f with
      | save record =>
        cases hturn.save_eq
        refine kept?_write_of_ne (e := e.withCoordinator id c)
          (f := (·.update run.coordinator.execution)) fun s hs => ?_
        exact Store.kept?_update_of_ne ((hid run hrun).symm ▸ hne) hs
      | saveNode execution r =>
        obtain ⟨node, rest, -, -, rfl⟩ := hturn.saveNode_eq
        refine kept?_write_of_ne (e := e.withCoordinator id c)
          (f := (·.putNode run.coordinator.execution.id r)) fun s hs => ?_
        exact Store.kept?_putNode_of_ne ((hid run hrun).symm ▸ hne) hs
      | emit | launch | cancel | request | signalDone | leave => rfl
  | timeUp | finished => exact ⟨(run?_modifyRun_of_ne _ hne).trans (run?_congr rfl), rfl⟩
  | cancel | elsewhere => cases hown

/-- A run announces what it emits, and nothing else. -/
theorem Moves.events_eq (m : e.Moves id x e') (hown : x.isOwn = true) :
    e'.events = e.events ∨ ∃ event, x = .step (some (.emit event)) ∧ e'.events = e.events ++ [event] := by
  cases m with
  | @step _ effect h =>
    obtain ⟨run, c, -, -, rfl⟩ := stepRun?_eq_some h
    cases effect with
    | none => exact .inl rfl
    | some f =>
      cases f with
      | emit event => exact .inr ⟨event, rfl, rfl⟩
      | save | saveNode =>
        refine .inl ?_
        simp only [Option.elim_some, apply, write]
        split <;> rfl
      | launch | cancel | request | signalDone | leave => exact .inl rfl
  | timeUp | finished => exact .inl rfl
  | cancel | elsewhere => cases hown

end Engine

/-! ## Calls on one engine -/

/-- The steps of a cancel. -/
inductive CancelCall.Strides : CancelCall → Engine → CancelCall → Engine → Prop
  | found {id : String} {e : Engine} {run : ActiveRun} (hr : e.run? id = some run) :
      Strides (.look id) e (.answered (.ok ())) (e.cancelActive id)
  | notFound {id : String} {e : Engine} (hgone : e.run? id = none) : Strides (.look id) e (.read id) e
  | answers {id : String} {e : Engine} : Strides (.read id) e (.answered ((e.store.get id).map fun _ => ())) e

theorem CancelCall.strides_of_step? {call next : CancelCall} {e e' : Engine} (h : call.step? e = some (next, e')) :
    call.Strides e next e' := by
  cases call with
  | look id =>
    cases hr : e.run? id <;> simp only [step?, hr] at h <;> cases h
    · exact .notFound hr
    · exact .found hr
  | read id => cases h; exact .answers
  | answered => cases h

/-- The steps of a wait. -/
inductive WaitCall.Strides : WaitCall → Engine → WaitCall → Prop
  | found {id : String} {e : Engine} {run : ActiveRun} (hr : e.run? id = some run) : Strides (.look id) e (.await id)
  | notFound {id : String} {e : Engine} (hgone : e.run? id = none) : Strides (.look id) e (.read id)
  | told {id : String} {e : Engine} (hover : e.isOver id = true) : Strides (.await id) e (.read id)
  | answers {id : String} {e : Engine} : Strides (.read id) e (.answered (e.store.get id))

theorem WaitCall.strides_of_step? {call next : WaitCall} {e : Engine} (h : call.step? e = some next) :
    call.Strides e next := by
  cases call with
  | look id =>
    cases hr : e.run? id <;> simp only [step?, hr] at h <;> cases h
    · exact .notFound hr
    · exact .found hr
  | await id =>
    simp only [step?] at h
    split at h
    next hover => cases h; exact .told hover
    next => cases h
  | read id => cases h; exact .answers
  | answered => cases h

/-- A call of a client, between two of its steps. -/
inductive Call where
  | start (call : StartCall)
  | cancel (call : CancelCall)
  | wait (call : WaitCall)

namespace Call

def step? : Call → Engine → Option (Call × Engine)
  | .start call, e => (call.step? e).map fun (next, e) => (.start next, e)
  | .cancel call, e => (call.step? e).map fun (next, e) => (.cancel next, e)
  | .wait call, e => (call.step? e).map fun next => (.wait next, e)

/-- The steps of a call; a wait changes nothing. -/
inductive Strides : Call → Engine → Call → Engine → Prop
  | start {call next : StartCall} {e e' : Engine} (hstep : call.step? e = some (next, e')) :
      Strides (.start call) e (.start next) e'
  | cancel {call next : CancelCall} {e e' : Engine} (h : call.Strides e next e') :
      Strides (.cancel call) e (.cancel next) e'
  | wait {call next : WaitCall} {e : Engine} (h : call.Strides e next) : Strides (.wait call) e (.wait next) e

theorem strides_of_step? {c next : Call} {e e' : Engine} (h : c.step? e = some (next, e')) : c.Strides e next e' := by
  cases c with
  | start call =>
    obtain ⟨⟨call', _⟩, hcall, heq⟩ := Option.map_eq_some_iff.mp h
    cases heq
    exact .start hcall
  | cancel call =>
    obtain ⟨⟨call', _⟩, hcall, heq⟩ := Option.map_eq_some_iff.mp h
    cases heq
    exact .cancel (CancelCall.strides_of_step? hcall)
  | wait call =>
    obtain ⟨call', hcall, heq⟩ := Option.map_eq_some_iff.mp h
    cases heq
    exact .wait (WaitCall.strides_of_step? hcall)

/-- The run it has put into the store and has yet to enter. -/
def opening? : Call → Option String
  | .start (.announce p) => if p.plan.isOk then some p.execution.id else none
  | .start (.enter p _) => some p.execution.id
  | _ => none

/-- The run it is about to look for. -/
def looksFor? : Call → Option String
  | .cancel (.look id) | .wait (.look id) => some id
  | _ => none

end Call

/-- An engine and the calls made on it, in the order they were made. -/
structure Office where
  engine : Engine
  calls : List Call

/-- A step of the call at a place, with what it met and what it left. -/
structure Visit where
  place : Nat
  before : Office
  after : Engine

namespace Office

/-- A run has been put into the store and has yet to be entered. -/
def Opens (s : Office) (id : String) : Prop := ∃ c ∈ s.calls, c.opening? = some id

/-- Where a client can have the id of a run from. -/
inductive Tells (s : Office) (id : String) : Prop
  | stored (h : (s.engine.store.kept? id).isSome)
  | announced {workflow : String} (h : .runStarted id workflow ∈ s.engine.events)
  | answered (h : .start (.answered (.ok id)) ∈ s.calls)

/-- The calls a client can make. -/
inductive Asks (s : Office) : Call → Prop
  | start (workflow : String) (trigger : Json) (key : Option String) : Asks s (.start (.lookUp workflow trigger key))
  | startDefinition (r : StartRequest) : Asks s (.start (.takeTypes r))
  | cancel {id : String} (h : s.Tells id) : Asks s (.cancel (.look id))
  | wait {id : String} (h : s.Tells id) : Asks s (.wait (.look id))

end Office

/-- What an engine does besides serving these calls: a run goes on, or something is done that
concerns neither runs nor what the store keeps. -/
inductive Engine.Works (e : Engine) : Engine → Prop
  | run {id : String} {x : Happening} {e' : Engine} (m : e.Moves id x e') (hown : x.isOwn = true) : Works e e'
  | aside {e' : Engine} (hactive : e'.active = e.active) (hstore : e'.store = e.store)
      (hevents : e'.events = e.events) : Works e e'

/-- The steps that calls have taken since `s₀`. -/
inductive Attends (s₀ : Office) : List Visit → Office → Prop
  | opens : Attends s₀ [] s₀
  | asked {past : List Visit} {s : Office} {c : Call} (h : Attends s₀ past s) (asks : s.Asks c) :
      Attends s₀ past { s with calls := s.calls ++ [c] }
  | step {past : List Visit} {s : Office} {i : Nat} {c next : Call} {e : Engine} (h : Attends s₀ past s)
      (hc : s.calls[i]? = some c) (hstep : c.step? s.engine = some (next, e)) :
      Attends s₀ (past ++ [⟨i, s, e⟩]) ⟨e, s.calls.set i next⟩
  | works {past : List Visit} {s : Office} {e : Engine} (h : Attends s₀ past s) (m : s.engine.Works e) :
      Attends s₀ past { s with engine := e }

/-- Nothing has happened yet. -/
structure Engine.IsNew (e : Engine) : Prop where
  idle : e.active = []
  silent : e.events = []

/-- The two have the same calls that are about to enter a run. -/
def Office.SameOpening (id : String) (s s' : Office) : Prop :=
  ∀ (j : Nat) (c : Call), c.opening? = some id → (s'.calls[j]? = some c ↔ s.calls[j]? = some c)

/-- What a step does to the run `id`. -/
inductive Shift (id : String) (s s' : Office) : Prop
  | moves {x : Happening} (m : s.engine.Moves id x s'.engine) (same : Office.SameOpening id s s')
  | create {place : Nat} {p : Prepared} (hid : p.execution.id = id)
      (hc : s.calls[place]? = some (.start (.create p)))
      (hstep : (StartCall.create p).step? s.engine = some (.announce p, s'.engine))
      (hcalls : s'.calls = s.calls.set place (.start (.announce p)))
  | announce {place : Nat} {p : Prepared} {plan : Plan} (hid : p.execution.id = id)
      (hc : s.calls[place]? = some (.start (.announce p)))
      (hstep : (StartCall.announce p).step? s.engine = some (.enter p plan, s'.engine))
      (hcalls : s'.calls = s.calls.set place (.start (.enter p plan)))
  | enter {place : Nat} {p : Prepared} {plan : Plan} (hid : p.execution.id = id)
      (hc : s.calls[place]? = some (.start (.enter p plan)))
      (hstep : (StartCall.enter p plan).step? s.engine = some (.answered (.ok id), s'.engine))
      (hcalls : s'.calls = s.calls.set place (.start (.answered (.ok id))))

namespace Office

variable {id : String} {s s' : Office} {i : Nat} {c next : Call} {e : Engine}

theorem getElem?_set_eq {α : Type} {l : List α} {a b : α} {j : Nat} (hi : l[i]? = some a) :
    (l.set i b)[j]? = if j = i then some b else l[j]? := by
  rw [List.getElem?_set, if_pos (List.getElem?_eq_some_iff.mp hi).1]
  simp only [eq_comm]

theorem getElem?_set_self {α : Type} {l : List α} {a b : α} (hi : l[i]? = some a) : (l.set i b)[i]? = some b :=
  (getElem?_set_eq hi).trans (if_pos rfl)

/-- A call that is about to enter the run neither before its step nor after. -/
theorem sameOpening_set (hc : s.calls[i]? = some c) (hbefore : c.opening? ≠ some id)
    (hafter : next.opening? ≠ some id) : SameOpening id s ⟨e, s.calls.set i next⟩ := by
  intro j b hb
  rw [getElem?_set_eq hc]
  split
  next heq =>
    rw [heq, hc]
    exact iff_of_false (fun h => hafter (Option.some.inj h ▸ hb)) (fun h => hbefore (Option.some.inj h ▸ hb))
  next => rfl

theorem sameOpening_append (hnew : c.opening? = none) : SameOpening id s { s with calls := s.calls ++ [c] } := by
  intro j b hb
  rw [List.getElem?_append]
  split
  · rfl
  next hlt =>
    rw [List.getElem?_eq_none (Nat.not_lt.mp hlt)]
    refine iff_of_false (fun h => ?_) nofun
    rw [List.mem_singleton.mp (List.mem_of_getElem? h), hnew] at hb
    cases hb

theorem SameOpening.opens_iff (h : SameOpening id s s') : s'.Opens id ↔ s.Opens id := by
  constructor
  · intro hopens
    obtain ⟨c, hc, hid⟩ := hopens
    obtain ⟨j, hj⟩ := List.mem_iff_getElem?.mp hc
    exact ⟨c, List.mem_of_getElem? ((h j c hid).mp hj), hid⟩
  · intro hopens
    obtain ⟨c, hc, hid⟩ := hopens
    obtain ⟨j, hj⟩ := List.mem_iff_getElem?.mp hc
    exact ⟨c, List.mem_of_getElem? ((h j c hid).mpr hj), hid⟩

end Office

namespace Shift

variable {id : String} {s : Office} {i : Nat} {e : Engine}

/-- A step that touches no run and opens none. -/
theorem quiet {c next : Call} (hc : s.calls[i]? = some c) (hr : e.run? id = s.engine.run? id)
    (hk : e.store.kept? id = s.engine.store.kept? id) (hbefore : c.opening? ≠ some id)
    (hafter : next.opening? ≠ some id) : Shift id s ⟨e, s.calls.set i next⟩ :=
  .moves (.elsewhere hr hk) (Office.sameOpening_set hc hbefore hafter)

theorem of_start {call next : StartCall} (hc : s.calls[i]? = some (.start call))
    (hstep : call.step? s.engine = some (next, e)) : Shift id s ⟨e, s.calls.set i (.start next)⟩ := by
  cases StartCall.strides_of_step? hstep with
  | @created p _ store hstore =>
    by_cases hid : p.execution.id = id
    · exact .create hid hc hstep rfl
    · refine .quiet hc (Engine.run?_congr rfl) ((Store.kept?_create hstore).2 id (Ne.symm hid)) ?_ ?_ <;>
        simp [Call.opening?, hid]
  | @announced p _ plan hplan =>
    by_cases hid : p.execution.id = id
    · exact .announce hid hc hstep rfl
    · rw [StartCall.unlock_eq]
      refine .quiet hc (Engine.run?_congr rfl) rfl ?_ ?_ <;> simp [Call.opening?, hid]
  | @refused p _ f hplan =>
    rw [StartCall.unlock_eq]
    refine .quiet hc (Engine.run?_congr rfl) rfl ?_ ?_ <;>
      simp [Call.opening?, hplan, Except.isOk, Except.toBool]
  | @entered p plan =>
    by_cases hid : p.execution.id = id
    · subst hid
      exact .enter rfl hc hstep rfl
    · have hother : (p.execution.id == id) = false := beq_eq_false_iff_ne.mpr hid
      refine .quiet hc ?_ rfl ?_ ?_
      · simp [Engine.run?, List.find?_append, hother]
      · simp [Call.opening?, hid]
      · simp [Call.opening?]
  | uncreated =>
    rw [StartCall.unlock_eq]
    refine .quiet hc (Engine.run?_congr rfl) rfl ?_ ?_ <;> simp [Call.opening?]
  | lookedUp | unknown | keyed | keyless | locked | unread | found | unused | prepared =>
    refine .quiet hc (Engine.run?_congr rfl) rfl ?_ ?_ <;> simp [Call.opening?]

theorem of_cancel {call next : CancelCall} (hc : s.calls[i]? = some (.cancel call))
    (h : call.Strides s.engine next e) : Shift id s ⟨e, s.calls.set i (.cancel next)⟩ := by
  cases h with
  | @found asked =>
    by_cases heq : asked = id
    · subst heq
      exact .moves .cancel (Office.sameOpening_set hc nofun nofun)
    · exact .moves (.elsewhere (Engine.run?_modifyRun_of_ne _ (Ne.symm heq)) rfl)
        (Office.sameOpening_set hc nofun nofun)
  | notFound | answers => exact .quiet hc rfl rfl nofun nofun

theorem of_step {c next : Call} (hc : s.calls[i]? = some c) (hstep : c.step? s.engine = some (next, e)) :
    Shift id s ⟨e, s.calls.set i next⟩ := by
  cases Call.strides_of_step? hstep with
  | start hstep => exact .of_start hc hstep
  | cancel h => exact .of_cancel hc h
  | wait => exact .quiet hc rfl rfl nofun nofun

theorem of_asks {c : Call} (asks : s.Asks c) : Shift id s { s with calls := s.calls ++ [c] } :=
  .moves (.elsewhere rfl rfl) (Office.sameOpening_append (by cases asks <;> rfl))

theorem of_works (m : s.engine.Works e)
    (hid : ∀ id run, s.engine.run? id = some run → run.coordinator.execution.id = id) :
    Shift id s { s with engine := e } := by
  have same : Office.SameOpening id s { s with engine := e } := fun _ _ _ => Iff.rfl
  cases m with
  | @run moved x _ m hown =>
    by_cases heq : id = moved
    · exact .moves (heq ▸ m) same
    · obtain ⟨hr, hk⟩ := m.others hown (hid moved) heq
      exact .moves (.elsewhere hr hk) same
  | aside hactive hstore => exact .moves (.elsewhere (Engine.run?_congr hactive) (by rw [hstore])) same

end Shift

end Workflows
