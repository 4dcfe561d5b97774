/-
  Workflows.Proofs.Engine.Outcomes — what a start comes to, and what it comes to when it is
  repeated.

  Counted over all its steps, a start call adds one record, one event and one run, or one record
  and one event if it is refused, or nothing (`StartOutcome`). How much it has added is settled at
  each point between its steps (`StartCourse`).

  The record of a refused start is recognized, not marked. It is recognized exactly: no record of
  a run that has started is taken for one, whatever became of the run (`Classified`). So a start
  under a key in use adds nothing and is answered with the run of that key, or refused again if
  that was refused, however the definition and the node types have changed (`Retry`). The one
  thing in the way is a table that holds an instant which no column can show.
-/

import Workflows.Api.Answer
import Workflows.Proofs.Definition.Checked
import Workflows.Proofs.Engine.Guarded
import Workflows.Proofs.Engine.Records
import Workflows.Proofs.Run.Rejected

namespace Workflows

/-! ## What the steps of a call add up to -/

/-- The step adds these records, announces these events and enters runs of these ids, and changes
nothing else that is kept, announced, alive or requested. -/
structure Stride.Adds (t : Stride) (records : List Execution) (events : List Event) (entered : List String) : Prop where
  stamps : t.after.store.stamps = t.before.store.stamps ++ records.map Execution.stamp
  new : ∀ e ∈ records, t.before.store.kept? e.id = none ∧ ∃ k, t.after.store.kept? e.id = some k ∧ k.Of e
  others : ∀ id, id ∉ records.map Execution.id → t.after.store.kept? id = t.before.store.kept? id
  events : t.after.events = t.before.events ++ events
  active : ∃ runs, t.after.active = t.before.active ++ runs ∧ runs.map Prod.fst = entered
  requests : t.after.requests = t.before.requests

/-- The steps together add these. -/
inductive AddUp : List Stride → List Execution → List Event → List String → Prop
  | none : AddUp [] [] [] []
  | next {ts : List Stride} {t : Stride} {records records' : List Execution} {events events' : List Event}
      {entered entered' : List String} (h : AddUp ts records events entered) (ht : t.Adds records' events' entered') :
      AddUp (ts ++ [t]) (records ++ records') (events ++ events') (entered ++ entered')

/-- The steps that the call at a place has taken, in order. -/
def stridesAt (past : List Entry) (place : Nat) : List Stride :=
  past.filterMap fun
    | .stride t => if t.place = place then some t else none
    | .turn _ _ => none

/-- The record of a run that begins: it is running, and each node of the definition has one result,
which waits. -/
structure Execution.Begins (e : Execution) (r : StartRequest) : Prop where
  origin : e.origin = r.origin e.id
  status : e.status = .running
  error : e.error = none
  nodes : (Keyed.keys e.nodeResults).Perm r.definition.ids
  waiting : ∀ x result, e.node? x = some result → result = .waiting x

/-- The record of a run that is refused: it says why, and has no result of any node. -/
structure Execution.Refuses (e : Execution) (r : StartRequest) (f : Failure) : Prop where
  origin : e.origin = r.origin e.id
  status : e.status = .error
  error : e.error = some f.message
  bare : e.nodeResults = []

/-- The call has taken the node types as they were. -/
def Took (ts : List Stride) (r : StartRequest) (types : Registry) : Prop :=
  ∃ t ∈ ts, t.caller.call = .takeTypes r ∧ t.before.registry = types

/-- The call has made the record of its run. -/
structure Makes (ts : List Stride) (r : StartRequest) (p : Prepared) : Prop where
  took : Took ts r p.types
  made : ∃ t ∈ ts, t.next = .create p
  definition : p.definition = r.definition
  planned : p.plan = Engine.prepare r.definition p.types
  begins : ∀ plan, p.plan = .ok plan → p.execution.Begins r
  refuses : ∀ f, p.plan = .error f → p.execution.Refuses r f

/-- What the steps of a call have come to that has been answered. -/
inductive StartOutcome (ts : List Stride) : Except Failure String → Prop
  | accepted {r : StartRequest} {p : Prepared} {plan : Plan} (makes : Makes ts r p) (planned : p.plan = .ok plan)
      (adds : AddUp ts [p.execution] [.runStarted p.execution.id p.execution.workflowId] [p.execution.id]) :
      StartOutcome ts (.ok p.execution.id)
  | refused {r : StartRequest} {p : Prepared} {f : Failure} (makes : Makes ts r p) (planned : p.plan = .error f)
      (early : f.isPreRun = true) (adds : AddUp ts [p.execution] [.ofEnded p.execution] []) :
      StartOutcome ts (.error f)
  /-- The key is in use. -/
  | repeated {r : StartRequest} {types : Registry} {key : String} {t : Stride} {existing : Execution}
      (took : Took ts r types) (ht : t ∈ ts) (looks : t.caller.call = .find r types key)
      (found : t.before.store.find? r.definition.key key = .ok (some existing))
      (used : ∃ stamp ∈ t.before.store.stamps, stamp.isUnder r.definition.key key = true) (adds : AddUp ts [] [] []) :
      StartOutcome ts (StartCall.repeated r.definition types existing)
  /-- The key is in use, but what is kept under it cannot be read. -/
  | unread {r : StartRequest} {types : Registry} {key : String} {t : Stride} {f : Failure}
      (took : Took ts r types) (ht : t ∈ ts) (looks : t.caller.call = .find r types key)
      (failed : t.before.store.find? r.definition.key key = .error f)
      (used : ∃ stamp ∈ t.before.store.stamps, stamp.isUnder r.definition.key key = true) (adds : AddUp ts [] [] []) :
      StartOutcome ts (.error f)
  /-- There is no such workflow. -/
  | unknown {workflow : String} {trigger : Json} {key : Option String} {t : Stride} {f : Failure}
      (ht : t ∈ ts) (looks : t.caller.call = .lookUp workflow trigger key)
      (failed : t.before.catalog.get workflow = .error f) (adds : AddUp ts [] [] []) :
      StartOutcome ts (.error f)

/-- How far a call has come, and what its steps have added so far. -/
inductive StartCourse (ts : List Stride) : StartCall → Prop
  | lookUp {workflow : String} {trigger : Json} {key : Option String} (adds : AddUp ts [] [] []) :
      StartCourse ts (.lookUp workflow trigger key)
  | takeTypes {r : StartRequest} (adds : AddUp ts [] [] []) : StartCourse ts (.takeTypes r)
  | lock {r : StartRequest} {types : Registry} {key : String} (adds : AddUp ts [] [] []) (took : Took ts r types) :
      StartCourse ts (.lock r types key)
  | find {r : StartRequest} {types : Registry} {key : String} (adds : AddUp ts [] [] []) (took : Took ts r types) :
      StartCourse ts (.find r types key)
  | prepare {r : StartRequest} {types : Registry} (adds : AddUp ts [] [] []) (took : Took ts r types) :
      StartCourse ts (.prepare r types)
  | create {r : StartRequest} {p : Prepared} (adds : AddUp ts [] [] []) (makes : Makes ts r p) : StartCourse ts (.create p)
  | announce {r : StartRequest} {p : Prepared} (adds : AddUp ts [p.execution] [] []) (makes : Makes ts r p) :
      StartCourse ts (.announce p)
  | enter {r : StartRequest} {p : Prepared} {plan : Plan} (planned : p.plan = .ok plan)
      (adds : AddUp ts [p.execution] [.runStarted p.execution.id p.execution.workflowId] []) (makes : Makes ts r p) :
      StartCourse ts (.enter p plan)
  | answered {result : Except Failure String} (outcome : StartOutcome ts result) : StartCourse ts (.answered result)

section

variable {ts : List Stride} {t : Stride} {r : StartRequest} {types : Registry} {p : Prepared}

theorem AddUp.quiet {records : List Execution} {events : List Event} {entered : List String}
    (h : AddUp ts records events entered) (ht : t.Adds [] [] []) : AddUp (ts ++ [t]) records events entered := by
  simpa using h.next ht

/-! ### What a step adds -/

theorem Stride.adds_record {e : Execution} (hstore : t.before.store.create e = .ok t.after.store)
    (hevents : t.after.events = t.before.events) (hactive : t.after.active = t.before.active)
    (hrequests : t.after.requests = t.before.requests) : t.Adds [e] [] [] := by
  obtain ⟨hnone, hothers⟩ := Store.kept?_create hstore
  exact
    { stamps := (Store.stamps_create hstore).1
      new := List.forall_mem_singleton.mpr ⟨hnone, Store.kept?_of_create hstore⟩
      others := fun id hid => hothers id fun heq => hid (List.mem_singleton.mpr heq)
      events := hevents.trans (List.append_nil _).symm
      active := ⟨[], hactive.trans (List.append_nil _).symm, rfl⟩
      requests := hrequests }

/-- The step leaves the store as it is. -/
theorem Stride.adds_of_store {events : List Event} {runs : List (String × ActiveRun)}
    (hstore : t.after.store = t.before.store) (hevents : t.after.events = t.before.events ++ events)
    (hactive : t.after.active = t.before.active ++ runs) (hrequests : t.after.requests = t.before.requests) :
    t.Adds [] events (runs.map Prod.fst) where
  stamps := by rw [hstore]; exact (List.append_nil _).symm
  new := List.forall_mem_nil _
  others := fun _ _ => by rw [hstore]
  events := hevents
  active := ⟨runs, hactive, rfl⟩
  requests := hrequests

theorem Stride.adds_nothing (hstore : t.after.store = t.before.store) (hevents : t.after.events = t.before.events)
    (hactive : t.after.active = t.before.active) (hrequests : t.after.requests = t.before.requests) : t.Adds [] [] [] :=
  @Stride.adds_of_store t [] [] hstore (hevents.trans (List.append_nil _).symm) (hactive.trans (List.append_nil _).symm)
    hrequests

theorem Stride.adds_event {event : Event} (hstore : t.after.store = t.before.store)
    (hevents : t.after.events = t.before.events ++ [event]) (hactive : t.after.active = t.before.active)
    (hrequests : t.after.requests = t.before.requests) : t.Adds [] [event] [] :=
  @Stride.adds_of_store t [event] [] hstore hevents (hactive.trans (List.append_nil _).symm) hrequests

theorem Stride.adds_run {id : String} {run : ActiveRun} (hstore : t.after.store = t.before.store)
    (hevents : t.after.events = t.before.events) (hactive : t.after.active = t.before.active ++ [(id, run)])
    (hrequests : t.after.requests = t.before.requests) : t.Adds [] [] [id] :=
  Stride.adds_of_store hstore (hevents.trans (List.append_nil _).symm) hactive hrequests

/-! ### What has been done is done -/

theorem Took.mono (h : Took ts r types) : Took (ts ++ [t]) r types := by
  obtain ⟨t', ht', hcall⟩ := h
  exact ⟨t', List.mem_append_left _ ht', hcall⟩

theorem Makes.mono (h : Makes ts r p) : Makes (ts ++ [t]) r p := by
  obtain ⟨t', ht', hnext⟩ := h.made
  exact { h with took := h.took.mono, made := ⟨t', List.mem_append_left _ ht', hnext⟩ }

/-! ## The record that is made -/

theorem Execution.begins_makeRecord {plan : Plan} {e : Engine} (h : (StartCall.makeRecord r types e).1.plan = .ok plan) :
    (StartCall.makeRecord r types e).1.execution.Begins r := by
  obtain ⟨hplan, haccepted⟩ := Engine.accepted_makeRecord h
  refine ⟨haccepted.origin, haccepted.status, haccepted.error, ?_, fun x result hx => ?_⟩
  · have hids := (Plan.ofDefinition_eq_ok.mp hplan).1
    refine (List.perm_ext_iff_of_nodup (nodup_of_ascending (Keyed.ascending_keys haccepted.sorted)) hids).mpr fun x => ?_
    have hknown := haccepted.nodes x
    rw [Execution.node?] at hknown
    rw [Keyed.mem_keys, hknown, ← Plan.mem_order hplan]
    split <;> simp [*]
  · rw [haccepted.nodes x] at hx
    split at hx
    · exact (Option.some.inj hx).symm
    · cases hx

theorem Makes.of_prepare {e : Engine} (took : Took ts r types) (hnext : t.next = .create (StartCall.makeRecord r types e).1) :
    Makes (ts ++ [t]) r (StartCall.makeRecord r types e).1 where
  took := took.mono
  made := ⟨t, List.mem_append_right _ (List.mem_singleton.mpr rfl), hnext⟩
  definition := rfl
  planned := rfl
  begins := fun _ => Execution.begins_makeRecord
  refuses := fun f planned => by
    obtain ⟨hstatus, herror, -, hbare⟩ := Prepared.IsMade.refused ⟨r, types, e, rfl⟩ planned
    exact ⟨StartCall.id_makeRecord r types e ▸ StartCall.origin_makeRecord r types e, hstatus, herror, hbare⟩

/-! ## One step further -/

/-- Whoever does not find that a key is free finds that it is in use. -/
theorem Store.used_of_find?_ne_none {s : Store} {workflow key : String} (hids : (s.stamps.map Stamp.id).Nodup)
    (h : s.find? workflow key ≠ .ok none) : ∃ stamp ∈ s.stamps, stamp.isUnder workflow key = true := by
  rw [find?_eq_get? hids] at h
  cases hfound : s.stamps.find? (·.isUnder workflow key) with
  | none => rw [hfound] at h; exact absurd rfl h
  | some stamp =>
    exact ⟨stamp, List.mem_of_find?_eq_some hfound, List.find?_some (p := fun x : Stamp => x.isUnder workflow key) hfound⟩

theorem StartCourse.step {place : Nat} {workflow : String} {key : Option String} {call next : StartCall} {e e' : Engine}
    (h : StartCourse ts call) (hs : call.Strides e next e') (hids : (e.store.stamps.map Stamp.id).Nodup)
    (htaken : ∀ p, call = .create p → ∃ store, e.store.create p.execution = .ok store) :
    StartCourse (ts ++ [⟨place, ⟨workflow, key, call⟩, next, e, e'⟩]) next := by
  have hlast : ∀ t : Stride, t ∈ ts ++ [t] := fun t => List.mem_append_right _ (List.mem_singleton.mpr rfl)
  cases hs with
  | lookedUp =>
    obtain ⟨adds⟩ := h
    exact .takeTypes (adds.quiet (Stride.adds_nothing rfl rfl rfl rfl))
  | unknown hget =>
    obtain ⟨adds⟩ := h
    exact .answered (.unknown (hlast _) rfl hget (adds.quiet (Stride.adds_nothing rfl rfl rfl rfl)))
  | keyed =>
    cases h with
    | takeTypes adds => exact .lock (adds.quiet (Stride.adds_nothing rfl rfl rfl rfl)) ⟨_, hlast _, rfl, rfl⟩
  | keyless =>
    cases h with
    | takeTypes adds => exact .prepare (adds.quiet (Stride.adds_nothing rfl rfl rfl rfl)) ⟨_, hlast _, rfl, rfl⟩
  | locked =>
    cases h with
    | lock adds took => exact .find (adds.quiet (Stride.adds_nothing rfl rfl rfl rfl)) took.mono
  | unread hfind =>
    cases h with
    | find adds took =>
      exact .answered (.unread took.mono (hlast _) rfl hfind (Store.used_of_find?_ne_none hids (by rw [hfind]; nofun))
        (adds.quiet (Stride.adds_nothing rfl rfl rfl rfl)))
  | found hfind =>
    cases h with
    | find adds took =>
      exact .answered (.repeated took.mono (hlast _) rfl hfind (Store.used_of_find?_ne_none hids (by rw [hfind]; nofun))
        (adds.quiet (Stride.adds_nothing rfl rfl rfl rfl)))
  | unused =>
    cases h with
    | find adds took => exact .prepare (adds.quiet (Stride.adds_nothing rfl rfl rfl rfl)) took.mono
  | prepared =>
    cases h with
    | prepare adds took => exact .create (adds.quiet (Stride.adds_nothing rfl rfl rfl rfl)) (.of_prepare took rfl)
  | @created p _ store hstore =>
    cases h with
    | create adds makes => exact .announce (adds.next (Stride.adds_record hstore rfl rfl rfl)) makes.mono
  | uncreated hfailed =>
    obtain ⟨store, hstore⟩ := htaken _ rfl
    exact absurd (hfailed.symm.trans hstore) nofun
  | announced planned =>
    cases h with
    | announce adds makes =>
      refine .enter planned (adds.next (Stride.adds_event ?_ ?_ ?_ ?_)) makes.mono <;> rw [StartCall.unlock_eq] <;> rfl
  | refused planned =>
    cases h with
    | announce adds makes =>
      refine .answered (.refused makes.mono planned ?_ (adds.next (Stride.adds_event ?_ ?_ ?_ ?_)))
      · exact Engine.isPreRun_of_prepare (makes.planned.symm.trans planned)
      all_goals rw [StartCall.unlock_eq]; rfl
  | @entered p plan =>
    cases h with
    | enter planned adds makes =>
      exact .answered (.accepted makes.mono planned (adds.next (Stride.adds_run rfl rfl rfl rfl)))

end

/-! ## All calls of a history -/

section

variable {past : List Entry} {s : Desk} {p : Prepared} {e₀ : Engine}

theorem stridesAt_stride (past : List Entry) (t : Stride) (place : Nat) :
    stridesAt (past ++ [.stride t]) place = stridesAt past place ++ if t.place = place then [t] else [] := by
  rw [stridesAt, List.filterMap_append, stridesAt]
  split <;> simp [*]

theorem stridesAt_turn (past : List Entry) (id : String) (x : Happening) (place : Nat) :
    stridesAt (past ++ [.turn id x]) place = stridesAt past place := by
  rw [stridesAt, List.filterMap_append, stridesAt]
  exact List.append_nil _

/-- Every call has taken the steps of its course, and none have been taken at other places. -/
structure Coursed (past : List Entry) (s : Desk) : Prop where
  calls : ∀ (i : Nat) (c : Caller), s.callers[i]? = some c → StartCourse (stridesAt past i) c.call
  others : ∀ i, s.callers.length ≤ i → stridesAt past i = []

namespace Coursed

theorem asked {c : Caller} (h : Coursed past s) (hnew : StartCourse [] c.call) :
    Coursed past { s with callers := s.callers ++ [c] } where
  calls := fun i b hb => by
    rw [List.getElem?_append] at hb
    split at hb
    next => exact h.calls i b hb
    next hlt =>
      cases List.mem_singleton.mp (List.mem_of_getElem? hb)
      exact (h.others i (Nat.not_lt.mp hlt)).symm ▸ hnew
  others := fun i hi => h.others i (by simp only [List.length_append] at hi; omega)

theorem stride {i : Nat} {c : Caller} {next : StartCall} {e : Engine} (h : Coursed past s) (hguarded : Guarded past s)
    (hchronicle : Chronicle e₀ past s) (hc : s.callers[i]? = some c) (hstep : c.call.step? s.engine = some (next, e)) :
    Coursed (past ++ [.stride ⟨i, c, next, s.engine, e⟩]) ⟨e, s.callers.set i { c with call := next }⟩ where
  calls := fun j b hb => by
    rw [Office.getElem?_set_eq hc] at hb
    rw [stridesAt_stride]
    split at hb
    next heq =>
      cases hb
      rw [if_pos heq.symm]
      subst heq
      exact (h.calls j c hc).step (StartCall.strides_of_step? hstep) hchronicle.stored fun p hp =>
        hguarded.create_eq_ok hchronicle hc hp
    next hne =>
      rw [if_neg (Ne.symm hne), List.append_nil]
      exact h.calls j b hb
  others := fun j hj => by
    have hi := (List.getElem?_eq_some_iff.mp hc).1
    rw [List.length_set] at hj
    have hne : i ≠ j := by omega
    rw [stridesAt_stride, if_neg hne, List.append_nil]
    exact h.others j hj

end Coursed

theorem Engine.Hosts.coursed (h₀ : e₀.IsReady) (h : Hosts e₀ past s) : Coursed past s := by
  induction h with
  | opens => exact ⟨fun i c hc => absurd hc nofun, fun _ _ => rfl⟩
  | asked _ workflow trigger key ih => exact ih.asked (c := .ofWorkflow workflow trigger key) (.lookUp .none)
  | given _ d trigger key ih => exact ih.asked (c := .ofDefinition d trigger key) (.takeTypes .none)
  | stride h hc hstep ih => exact ih.stride (h.guarded h₀) (h.chronicle h₀) hc hstep
  | turn _ _ _ _ ih =>
    refine ⟨fun i c hc => ?_, fun i hi => ?_⟩ <;> rw [stridesAt_turn]
    exacts [ih.calls i c hc, ih.others i hi]
  | aside _ _ ih => exact ⟨ih.calls, ih.others⟩
  | pruned _ _ ih => exact ⟨ih.calls, ih.others⟩

/-! ### Going on -/

theorem StartCall.Strides.remaining_lt {call next : StartCall} {e e' : Engine} (h : Strides call e next e') :
    next.remaining < call.remaining := by
  cases h <;> simp [remaining]

/-- A call that is not over can go on, or waits for one that holds the lock and can. -/
theorem Guarded.goesOn {c : Caller} (h : Guarded past s) (hgoing : ∀ r, c.call ≠ .answered r) :
    (c.call.step? s.engine).isSome = true ∨
      ∃ b ∈ s.callers, b.call.holds = true ∧ (b.call.step? s.engine).isSome = true := by
  cases hstep : c.call.step? s.engine with
  | some _ => exact .inl rfl
  | none =>
    have hone := h.one
    rw [Orderly.locked_of_step?_eq_none hstep hgoing] at hone
    obtain ⟨b, hb, hholds⟩ := List.countP_pos_iff.mp (hone.ge : 1 ≤ s.callers.countP (·.call.holds))
    exact .inr ⟨b, hb, hholds, Orderly.isSome_step?_of_holds _ hholds⟩

/-! ## Refused runs -/

/-- Wherever its record is, a run is taken for a refused one exactly if it was refused. -/
structure Classified (s : Desk) (p : Prepared) : Prop where
  made : p.execution.isRejected = !p.plan.isOk
  alive : ∀ run, s.engine.run? p.execution.id = some run → run.coordinator.execution.isRejected = !p.plan.isOk
  kept : ∀ k, s.engine.store.kept? p.execution.id = some k →
    ∃ record, k.Of record ∧ record.Tidy ∧ record.isRejected = !p.plan.isOk
  read : ∀ back, s.engine.store.get? p.execution.id = .ok (some back) → back.isRejected = !p.plan.isOk

namespace Prepared

theorem IsMade.tidy (h : p.IsMade) : p.execution.Tidy := by
  cases hplan : p.plan with
  | ok plan => exact (h.accepted hplan).choose_spec.2.tidy
  | error f =>
    obtain ⟨-, -, -, hbare⟩ := h.refused hplan
    exact ⟨by rw [hbare]; exact Keyed.sorted_nil, fun x r hx => by rw [Execution.node?, hbare] at hx; cases hx⟩

theorem IsMade.isRejected (h : p.IsMade) : p.execution.isRejected = !p.plan.isOk := by
  cases hplan : p.plan with
  | ok plan =>
    obtain ⟨r, -, haccepted⟩ := h.accepted hplan
    rw [Execution.isRejected, haccepted.status]
    rfl
  | error f =>
    obtain ⟨hstatus, -, -, hbare⟩ := h.refused hplan
    rw [Execution.isRejected, hstatus, hbare]
    rfl

end Prepared

theorem Classified.of {s : Desk} (hmade : p.IsMade)
    (alive : ∀ run, s.engine.run? p.execution.id = some run → run.coordinator.execution.isRejected = !p.plan.isOk)
    (kept : ∀ k, s.engine.store.kept? p.execution.id = some k →
      ∃ record, k.Of record ∧ record.Tidy ∧ record.isRejected = !p.plan.isOk) : Classified s p where
  made := hmade.isRejected
  alive := alive
  kept := kept
  read := fun back hback => by
    obtain ⟨k, hk, -⟩ := Store.status_of_get (s := s.engine.store) (by rw [Store.get, hback])
    obtain ⟨record, hof, htidy, hrejected⟩ := kept k hk
    exact (Store.isRejected_of_get? hback hk hof htidy).trans hrejected

theorem Stage.classified (h : Stage past s p) (hmade : p.IsMade) : Classified s p := by
  have hgone : s.engine.run? p.execution.id = none → ∀ run, s.engine.run? p.execution.id = some run →
      run.coordinator.execution.isRejected = !p.plan.isOk := fun gone run hrun => absurd (hrun.symm.trans gone) (Option.some_ne_none run)
  have hkept : (∀ k, s.engine.store.kept? p.execution.id = some k → k.Of p.execution) →
      ∀ k, s.engine.store.kept? p.execution.id = some k →
        ∃ record, k.Of record ∧ record.Tidy ∧ record.isRejected = !p.plan.isOk :=
    fun hof k hk => ⟨_, hof k hk, hmade.tidy, hmade.isRejected⟩
  have hunkept : s.engine.store.kept? p.execution.id = none →
      ∀ k, s.engine.store.kept? p.execution.id = some k → k.Of p.execution :=
    fun hnone k hk => absurd (hk.symm.trans hnone) (Option.some_ne_none k)
  cases h with
  | made _ _ _ gone unkept => exact .of hmade (hgone gone) (hkept (hunkept unkept))
  | dropped _ gone unkept => exact .of hmade (hgone gone) (hkept (hunkept unkept))
  | recorded _ _ _ gone create kept => exact .of hmade (hgone gone) (hkept (kept.of create))
  | announced _ _ _ gone create _ kept => exact .of hmade (hgone gone) (hkept (kept.of create))
  | refused _ _ gone create kept => exact .of hmade (hgone gone) (hkept (kept.of create))
  | living _ _ planned entered lives kept =>
    refine .of hmade (fun run hrun => ?_) fun k hk => ?_
    · rw [lives.not_rejected entered hrun, planned]
      rfl
    · obtain ⟨k', record, hk', hof, htidy, hrejected⟩ := lives.kept_not_rejected entered
      have hsame := kept.resolve_left (hk ▸ Option.some_ne_none k)
      cases hk.symm.trans (hsame.trans hk')
      exact ⟨record, hof, htidy, by rw [hrejected, planned]; rfl⟩

/-- Whatever happens to a run but that it is asked to cancel happens to one that was accepted. -/
theorem Engine.Hosts.isOk_of_turn (h₀ : e₀.IsReady) (h : Hosts e₀ past s) {id : String} {x : Happening}
    (hx : .turn id x ∈ past) (hne : x ≠ .cancel) : ∃ p : Prepared, p.MadeIn past ∧ p.execution.id = id ∧ p.plan.isOk := by
  have hgrow : ∀ {past : List Entry} {last : Entry}, (∃ p : Prepared, p.MadeIn past ∧ p.execution.id = id ∧ p.plan.isOk) →
      ∃ p : Prepared, p.MadeIn (past ++ [last]) ∧ p.execution.id = id ∧ p.plan.isOk := by
    rintro _ _ ⟨p, hmade, hp⟩
    exact ⟨p, hmade.append, hp⟩
  induction h with
  | opens => cases hx
  | asked _ _ _ _ ih | given _ _ _ _ ih | aside _ _ ih | pruned _ _ ih => exact ih hx
  | stride _ _ _ ih =>
    exact hgrow (ih ((List.mem_append.mp hx).resolve_right fun hlast => by cases List.mem_singleton.mp hlast))
  | @turn past s id' x' e h m happens ports ih =>
    rcases List.mem_append.mp hx with hx | hx
    · exact hgrow (ih hx)
    · cases List.mem_singleton.mp hx
      cases hr : s.engine.run? id with
      | none =>
        have hown := m.not_own_of_gone hr
        cases m with
        | cancel => exact absurd rfl hne
        | elsewhere => exact absurd rfl happens
        | step | timeUp | finished => cases hown
      | some run =>
        obtain ⟨p, hp, rfl⟩ := (h.chronicle h₀).of_alive hr
        obtain ⟨-, plan, -, -, -, -, hplan, -⟩ := ((h.chronicle h₀).stages p hp).of_alive hr
        exact hgrow ⟨p, hp, rfl, by rw [hplan]; rfl⟩

/-! ## Starting again -/

/-- What a call finds out that looks for a key under which a run was recorded that is kept still:
the engine gets its lock back and stays as it is. -/
inductive Retry (e : Engine) (r : StartRequest) (types : Registry) (key : String) (p : Prepared) : Prop
  | accepted (planned : p.plan.isOk = true)
      (step : (StartCall.find r types key).step? e =
        some (.answered (.ok p.execution.id), { e with locked := false }))
  /-- It is refused again, and for the same reason if the reason is still there. -/
  | refused {f g : Failure} (planned : p.plan = .error f)
      (step : (StartCall.find r types key).step? e = some (.answered (.error g), { e with locked := false }))
      (early : g.isPreRun = true) (status : Api.statusOf g = 422)
      (same : Engine.prepare r.definition types = Engine.prepare p.definition p.types → g = f)
  /-- What a table keeps of the run shows an instant before the year 0 or after 9999. -/
  | unread {f : Failure} {k : Kept} {record : Execution}
      (step : (StartCall.find r types key).step? e = some (.answered (.error f), { e with locked := false }))
      (table : ∃ t, e.store = .table t) (hk : e.store.kept? p.execution.id = some k) (hof : k.Of record)
      (illegible : ¬ record.InColumn)

theorem Failure.statusOf_of_isPreRun {f : Failure} (h : f.isPreRun = true) : Api.statusOf f = 422 := by
  cases f <;> first | rfl | cases h

/-- A refusal is repeated as a refusal. -/
theorem StartCall.repeated_of_rejected {d : Definition} {types : Registry} {existing : Execution}
    (h : existing.isRejected = true) : ∃ g : Failure, repeated d types existing = .error g ∧ g.isPreRun = true ∧
      ∀ f, Engine.prepare d types = .error f → g = f := by
  rw [repeated, if_pos h]
  cases hprepare : Engine.prepare d types with
  | error f => exact ⟨f, rfl, Engine.isPreRun_of_prepare hprepare, fun _ heq => Except.error.inj heq⟩
  | ok plan => exact ⟨_, rfl, rfl, nofun⟩

/-- What is kept of a record can be read, unless an instant is in the way. -/
theorem Store.get?_of_kept {store : Store} {id : String} {k : Kept} {record : Execution}
    (hk : store.kept? id = some k) (hof : k.Of record) (htidy : record.Tidy) :
    (∃ back, store.get? id = .ok (some back)) ∨
      (∃ f, store.get? id = .error f) ∧ (∃ t, store = .table t) ∧ ¬ record.InColumn := by
  cases store with
  | memory m =>
    obtain ⟨x, hx, -⟩ := Option.map_eq_some_iff.mp hk
    exact .inl ⟨x, by rw [get?, hx]⟩
  | table t =>
    obtain ⟨row, hrow, rfl⟩ := Option.map_eq_some_iff.mp hk
    cases hof
    have hget : (Store.table t).get? id = (ExecutionRow.ofExecution record).execution.map some := by
      simp only [get?, TableStore.get?, hrow]
    cases hread : (ExecutionRow.ofExecution record).execution with
    | ok back => exact .inl ⟨back, by rw [hget, hread]; rfl⟩
    | error f =>
      refine .inr ⟨⟨f, by rw [hget, hread]; rfl⟩, ⟨t, rfl⟩, fun hcolumn => ?_⟩
      rw [ExecutionRow.execution_ofExecution_mapPayloads htidy hcolumn] at hread
      cases hread

/-- What is found under the key of a run that is kept is that run. -/
theorem Guarded.find?_eq (h : Guarded past s) (hids : (s.engine.store.stamps.map Stamp.id).Nodup) (hp : p.MadeIn past)
    {key : String} (hkey : p.execution.idempotencyKey = some key) {k : Kept}
    (hk : s.engine.store.kept? p.execution.id = some k) :
    s.engine.store.find? p.execution.workflowId key = s.engine.store.get? p.execution.id := by
  have hmem : p.execution.stamp ∈ s.engine.store.stamps := by
    by_contra hnot
    have hnone := Store.kept?_eq_none_iff.mpr fun hid => by
      obtain ⟨stamp, hstamp, hid⟩ := List.mem_map.mp hid
      exact hnot (h.stamped p hp stamp hstamp hid ▸ hstamp)
    exact absurd (hk.symm.trans hnone) (Option.some_ne_none k)
  have hunder : p.execution.stamp.isUnder p.execution.workflowId key = true := Stamp.isUnder_iff.mpr ⟨rfl, hkey⟩
  rw [Store.find?_eq_get? hids]
  cases hfound : s.engine.store.stamps.find? (·.isUnder p.execution.workflowId key) with
  | none => exact absurd hunder (List.find?_eq_none.mp hfound _ hmem)
  | some stamp =>
    have hused := List.find?_some (p := fun x : Stamp => x.isUnder p.execution.workflowId key) hfound
    rw [eq_of_countP_le_one (h.keys _ key) (List.mem_of_find?_eq_some hfound) hmem hused hunder]
    rfl

theorem Guarded.retry (h : Guarded past s) (hchronicle : Chronicle e₀ past s) {r : StartRequest} {types : Registry}
    {key : String} (hp : p.MadeIn past) (hworkflow : p.execution.workflowId = r.definition.key)
    (hkey : p.execution.idempotencyKey = some key) {k : Kept} (hk : s.engine.store.kept? p.execution.id = some k) :
    Retry s.engine r types key p := by
  have hmade := hchronicle.made p hp
  have hclassified := (hchronicle.stages p hp).classified hmade
  obtain ⟨record, hof, htidy, -⟩ := hclassified.kept k hk
  have hfind := h.find?_eq hchronicle.stored hp hkey hk
  rw [hworkflow] at hfind
  rcases Store.get?_of_kept hk hof htidy with ⟨back, hget⟩ | ⟨⟨f, hget⟩, htable, hcolumn⟩
  · have hfound := hfind.trans hget
    have hstep : (StartCall.find r types key).step? s.engine =
        some (.answered (StartCall.repeated r.definition types back), { s.engine with locked := false }) := by
      rw [StartCall.step?, hfound]
    have hrejected := hclassified.read back hget
    cases hplan : p.plan with
    | ok plan =>
      have hid : back.id = p.execution.id := Store.id_of_get? hget
      rw [hplan] at hrejected
      rw [StartCall.repeated, if_neg (hrejected ▸ Bool.false_ne_true), hid] at hstep
      exact .accepted (by rw [hplan]; rfl) hstep
    | error f =>
      rw [hplan] at hrejected
      obtain ⟨g, hrepeated, hearly, hsame⟩ := @StartCall.repeated_of_rejected r.definition types back hrejected
      rw [hrepeated] at hstep
      refine .refused hplan hstep hearly (Failure.statusOf_of_isPreRun hearly) fun hprepare => hsame f ?_
      obtain ⟨r', types', e, rfl⟩ := hmade
      exact hprepare.trans hplan
  · exact .unread (f := f) (by rw [StartCall.step?, hfind.trans hget]) htable hk hof hcolumn

end

/-- What all starts of a history come to. -/
structure StartOutcomes (past : List Entry) (s : Desk) : Prop where
  answered : ∀ i c result, s.callers[i]? = some c → c.call = .answered result → StartOutcome (stridesAt past i) result
  goesOn : ∀ c ∈ s.callers, (∀ r, c.call ≠ .answered r) → (c.call.step? s.engine).isSome = true ∨
    ∃ b ∈ s.callers, b.call.holds = true ∧ (b.call.step? s.engine).isSome = true
  shrinks : ∀ t, .stride t ∈ past → t.next.remaining < t.caller.call.remaining
  /-- A run that is refused never comes alive. That it is asked to cancel is all that can happen to it,
so it starts no node and requests no other workflow. -/
  refused : ∀ p : Prepared, p.MadeIn past → p.plan.isOk = false →
    s.engine.run? p.execution.id = none ∧ ∀ x, .turn p.execution.id x ∈ past → x = .cancel
  classified : ∀ p : Prepared, p.MadeIn past → Classified s p
  retried : ∀ c ∈ s.callers, ∀ r types key, c.call = .find r types key → ∀ p : Prepared, p.MadeIn past →
    p.execution.workflowId = r.definition.key → p.execution.idempotencyKey = some key →
      (s.engine.store.kept? p.execution.id).isSome = true → Retry s.engine r types key p

/-- At every point of a history every start has come to one of the outcomes, or is on its way. -/
theorem Engine.startOutcomes {e₀ : Engine} {past : List Entry} {s : Desk} (h₀ : e₀.IsReady) (h : Hosts e₀ past s) :
    StartOutcomes past s := by
  have hchronicle := h.chronicle h₀
  have hguarded := h.guarded h₀
  refine
    { answered := fun i c result hc hcall => ?_
      goesOn := fun c hc hgoing => hguarded.goesOn hgoing
      shrinks := fun t ht => ?_
      refused := fun p hp hplan => ⟨?_, fun x hx => ?_⟩
      classified := fun p hp => (hchronicle.stages p hp).classified (hchronicle.made p hp)
      retried := fun c hc r types key hcall p hp hworkflow hkey hkept => ?_ }
  · have hcourse := (h.coursed h₀).calls i c hc
    rw [hcall] at hcourse
    cases hcourse with
    | answered outcome => exact outcome
  · obtain ⟨-, -, -, -, -, -, -, hstep, -⟩ := h.of_stride ht
    exact (StartCall.strides_of_step? hstep).remaining_lt
  · cases hr : s.engine.run? p.execution.id with
    | none => rfl
    | some run =>
      obtain ⟨-, plan, -, -, -, -, hok, -⟩ := (hchronicle.stages p hp).of_alive hr
      rw [hok] at hplan
      cases hplan
  · by_contra hne
    obtain ⟨q, hq, hid, hok⟩ := h.isOk_of_turn h₀ hx hne
    rw [hchronicle.once q p hq hp hid, hplan] at hok
    cases hok
  · obtain ⟨k, hk⟩ := Option.isSome_iff_exists.mp hkept
    exact hguarded.retry hchronicle hp hworkflow hkey hk

namespace Fork

/-- The workflow before its first node was given a type that is known. -/
def misnamed : Definition := { definition with nodes := [{ id := "a", type := "triger" }], connections := [] }

/-- Four clients start the workflow, two under each of two keys; one of the keys was first used for
the workflow as it was before. -/
def fourClients : Desk :=
  ⟨(engine {}).host, [.ofDefinition misnamed (.string "go") (some "m"), .ofDefinition definition (.string "again") (some "m"),
    .ofDefinition definition (.string "go") (some "k"), .ofDefinition definition (.string "again") (some "k")]⟩

/-- They take turns. -/
def fourTurns : List Nat := (List.replicate 14 [0, 1, 2, 3]).flatten

end Fork

/-- The workflow that was refused is refused again under the same key though it has been mended;
under the other key two clients are told of one run. -/
theorem Engine.startOutcomes_fork : ∃ past s, (Fork.engine {}).host.IsReady ∧ Hosts (Fork.engine {}).host past s ∧
    s.callers.map (·.call.result) =
      [.error (.invalid [⟨some "a", none, "Unknown node type 'triger'"⟩]),
        .error (.planning "Invalid workflow: node 'a': Unknown node type 'triger'"), .ok "run+", .ok "run+"] ∧
    StartOutcomes past s := by
  have hready : (Fork.engine {}).host.IsReady := isReady_host rfl rfl rfl rfl rfl
  have hasked : Hosts (Fork.engine {}).host [] Fork.fourClients :=
    .given (.given (.given (.given .opens _ _ _) _ _ _) _ _ _) _ _ _
  have hserved := hasked.takeStrides Fork.fourTurns
  exact ⟨_, _, hready, hserved, by decide +kernel, startOutcomes hready hserved⟩

end Workflows
