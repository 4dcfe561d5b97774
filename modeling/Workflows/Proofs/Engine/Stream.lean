/-
  Workflows.Proofs.Engine.Stream — a client that follows an execution is told its end, once.

  A stream is a watch whose steps come between whatever happens on the engine (`Streams`). It notes
  how many events have been announced before it reads the record. If the record has ended, the end
  is passed on at once, though nodes may still be in flight and the end be yet to be announced;
  if not, the end is yet to be announced too, and is among the events the stream waits for. So at
  every point it has passed on what was announced of its execution since it subscribed, or the end
  alone (`Follows`), and the end it tells is that of the final record (`streamTellsEnd`).

  The events announced are all there for the stream to take: it does not fall behind.
-/

import Workflows.Engine.Watch
import Workflows.Proofs.Engine.Concluded

namespace Workflows

/-! ## Catching up -/

namespace Watch

variable {w w' : Watch} {e : Engine}

/-- How many steps can be taken at most. -/
def ahead : Watch → Engine → Nat
  | .subscribe _, _ => 2
  | .read _ seen, e => e.events.length - seen + 1
  | .forward _ seen _, e => e.events.length - seen
  | .ended _, _ | .refused _, _ => 0

theorem ahead_le (w : Watch) (e : Engine) : w.ahead e ≤ e.events.length + 3 := by
  cases w <;> simp only [ahead] <;> omega

theorem ahead_lt (h : w.step? e = some w') : w'.ahead e < w.ahead e := by
  cases w with
  | subscribe id => cases h; simp [ahead]
  | read id seen =>
    simp only [step?] at h
    split at h
    · cases h
      exact Nat.succ_pos _
    · cases h
      split
      · exact Nat.succ_pos _
      · exact Nat.lt_succ_self _
  | forward id seen passed =>
    obtain ⟨event, hevent, rfl⟩ := Option.map_eq_some_iff.mp h
    have hseen := (List.getElem?_eq_some_iff.mp hevent).1
    split
    · split <;> simp only [ahead] <;> omega
    · simp only [ahead]
      omega
  | ended | refused => cases h

theorem step?_advance {n : Nat} (h : w.ahead e ≤ n) : (w.advance n e).step? e = none := by
  induction n generalizing w with
  | zero =>
    refine Option.eq_none_iff_forall_ne_some.mpr fun w' hstep => ?_
    have := ahead_lt (w := w) hstep
    omega
  | succ n ih =>
    unfold advance
    split
    next w' hstep =>
      have := ahead_lt hstep
      exact ih (by omega)
    next hstep => exact hstep

/-- Having caught up, a stream is over or waits for an event. -/
theorem waits_of_catchUp (w : Watch) (e : Engine) (h : (w.catchUp e).isOver = false) :
    ∃ id seen passed, w.catchUp e = .forward id seen passed ∧ e.events.length ≤ seen := by
  have hstep : (w.catchUp e).step? e = none := step?_advance (w.ahead_le e)
  cases hw : w.catchUp e with
  | subscribe => rw [hw] at hstep; cases hstep
  | read =>
    rw [hw] at hstep
    simp only [step?] at hstep
    split at hstep <;> cases hstep
  | forward id seen passed =>
    rw [hw] at hstep
    exact ⟨id, seen, passed, rfl, List.getElem?_eq_none_iff.mp (Option.map_eq_none_iff.mp hstep)⟩
  | ended | refused => rw [hw] at h; cases h

end Watch

/-! ## A stream among everything else -/

/-- The stream of an execution that subscribed at `s₀`, its steps taken between whatever happens. -/
inductive Engine.Streams (e₀ : Engine) (id : String) (s₀ : Desk) : List Entry → Desk → Watch → Prop
  | opens {past : List Entry} {w : Watch} (h : Hosts e₀ past s₀) (hstep : (Watch.subscribe id).step? s₀.engine = some w) :
      Streams e₀ id s₀ past s₀ w
  | goes {past more : List Entry} {s s' : Desk} {w : Watch} (h : Streams e₀ id s₀ past s w) (g : s.Goes more s') :
      Streams e₀ id s₀ (past ++ more) s' w
  | takes {past : List Entry} {s : Desk} {w w' : Watch} (h : Streams e₀ id s₀ past s w)
      (hstep : w.step? s.engine = some w') : Streams e₀ id s₀ past s w'

/-- The run that the stream waits for has been recorded: its record goes on, or it has been announced. -/
def Desk.Begun (s : Desk) (id : String) : Prop :=
  (∃ k, s.engine.store.kept? id = some k ∧ k.status.isTerminal = false) ∨ s.engine.eventsOf id ≠ []

/-- What a stream that subscribed at `s₀` has come to. -/
inductive Watch.Follows (id : String) (s₀ s : Desk) : Watch → Prop
  | reading : Follows id s₀ s (.read id s₀.engine.events.length)
  /-- It has passed on what was announced since, and the end is not among what it has seen. -/
  | forwarding {seen : Nat} {passed : List Event} (bound : seen ≤ s.engine.events.length)
      (order : (s.engine.events.take seen).filter (·.executionId = id) = s₀.engine.eventsOf id ++ passed)
      (unended : ∀ event ∈ s.engine.events.take seen, event.executionId = id → event.isFinal = false)
      (begun : s.Begun id) : Follows id s₀ s (.forward id seen passed)
  | ended {body : List Event} {x : Conclusion} (concludes : s.Concludes id x)
      (own : ∀ event ∈ body, event.executionId = id ∧ event.isFinal = false)
      (order : body = [] ∨ s₀.engine.eventsOf id ++ (body ++ [x.event id]) <+: s.engine.eventsOf id) :
      Follows id s₀ s (.ended (body ++ [x.event id]))
  | refused {f : Failure} : Follows id s₀ s (.refused f)

section

variable {e₀ : Engine} {past more : List Entry} {s₀ s s' : Desk} {id : String} {w w' : Watch} {x : Conclusion}

theorem Engine.eventsOf_grow {e e' : Engine} (h : e.events <+: e'.events) : e.eventsOf id <+: e'.eventsOf id := h.filter _

/-- A run that has been recorded stays so until its end is announced. -/
theorem Desk.Begun.goes (h : s.Begun id) (hchronicle : Chronicle e₀ past s) (g : s.Goes more s') : s'.Begun id := by
  by_cases hevents : s.engine.eventsOf id = []
  · obtain ⟨k, hk, hopen⟩ := h.resolve_right (not_not.mpr hevents)
    have hkept : s.engine.Spares id s'.engine → s'.Begun id := fun hspares =>
      .inl ⟨k, (hspares.kept.resolve_right fun hpruned => by
        rw [hpruned.2 k hk] at hopen
        cases hopen).trans hk, hopen⟩
    cases hchronicle.concerns id g with
    | spared hs => exact hkept hs.engine
    | made _ hspares => exact hkept hspares
    | turn m happens hr =>
      -- a run that is alive has been announced
      obtain ⟨p, hp, rfl⟩ := hchronicle.of_alive hr
      cases hchronicle.stages p hp with
      | living _ _ _ _ _ _ _ told => rw [told] at hevents; cases hevents
      | made _ _ _ gone | dropped _ gone | recorded _ _ _ gone | announced _ _ _ gone | refused _ _ gone =>
        exact absurd (gone.symm.trans hr) nofun
    | @carried i c p next e hc hcarried hid hstep =>
      subst hid
      have hp := hchronicle.carried c (List.mem_of_getElem? hc) p hcarried
      have hcall := (hchronicle.stages p hp).carried hc hcarried
      generalize c.call = call at hcall hstep
      cases hcall with
      | create _ _ unkept => exact absurd (unkept.symm.trans hk) nofun
      | enter _ _ _ _ _ told => rw [told] at hevents; cases hevents
      | announce =>
        obtain ⟨event, hevent, hid⟩ := (StartCall.strides_of_step? hstep).event_of_announce
        exact .inr (List.ne_nil_of_mem (List.mem_filter.mpr ⟨hevent, decide_eq_true hid⟩))
  · exact .inr fun hnone => hevents (List.prefix_nil.mp (hnone ▸ Engine.eventsOf_grow g.events_grow))

/-- A record that is read and goes on has no end announced. -/
theorem Chronicle.unended_of_open (h : Chronicle e₀ past s) (hdistinct : Function.Injective e₀.ids.run) {k : Kept}
    (hk : s.engine.store.kept? id = some k) (hopen : k.status.isTerminal = false) :
    ∀ event ∈ s.engine.events, event.executionId = id → event.isFinal = false := by
  intro event hevent hid
  refine Bool.eq_false_iff.mpr fun hfinal => ?_
  obtain ⟨x, hx⟩ := h.concludes hdistinct (.inr ⟨event, List.mem_filter.mpr ⟨hevent, decide_eq_true hid⟩, hfinal⟩)
  have hterm := hx.terminal
  rw [← hx.kept k hk, Kept.status_conclusion, hopen] at hterm
  cases hterm

namespace Watch.Follows

/-- Whatever happens leaves what a stream has come to. -/
theorem goes (h : w.Follows id s₀ s) (hchronicle : Chronicle e₀ past s) (g : s.Goes more s') : w.Follows id s₀ s' := by
  cases h with
  | reading => exact .reading
  | refused => exact .refused
  | ended concludes own order =>
    exact .ended (concludes.goes hchronicle g) own
      (order.imp_right fun horder => horder.trans (Engine.eventsOf_grow g.events_grow))
  | forwarding bound order unended begun =>
    obtain ⟨more, hmore⟩ := g.events_grow
    have htake : s'.engine.events.take _ = s.engine.events.take _ := hmore ▸ List.take_append_of_le_length bound
    exact .forwarding (bound.trans g.events_grow.length_le) (htake ▸ order) (htake ▸ unended) (begun.goes hchronicle g)

/-- The record is read. -/
theorem read (hchronicle : Chronicle e₀ past s) (hdistinct : Function.Injective e₀.ids.run)
    (hgrown : s₀.engine.events <+: s.engine.events)
    (hstep : (Watch.read id s₀.engine.events.length).step? s.engine = some w') : w'.Follows id s₀ s := by
  simp only [step?] at hstep
  split at hstep
  next => cases hstep; exact .refused
  next record hget =>
    cases hstep
    obtain ⟨k, hk, hconclusion⟩ := Store.conclusion_of_get hget
    have hstatus : k.status = record.status := by rw [← Kept.status_conclusion, hconclusion]; rfl
    split
    next hterm =>
      obtain ⟨x, hx⟩ := hchronicle.concludes hdistinct (.inl ⟨k, hk, hstatus ▸ hterm⟩)
      have hid : record.id = id := Store.id_of_get hget
      obtain rfl : x = record.conclusion := (hx.kept k hk).symm.trans hconclusion
      rw [Event.ofEnded_eq, hid]
      exact @Watch.Follows.ended _ _ _ [] _ hx (List.forall_mem_nil _) (.inl rfl)
    next hopen =>
      have hopen : k.status.isTerminal = false := hstatus ▸ Bool.eq_false_iff.mpr hopen
      have htake : s.engine.events.take s₀.engine.events.length = s₀.engine.events := (List.prefix_iff_eq_take.mp hgrown).symm
      refine .forwarding hgrown.length_le ?_ ?_ (.inl ⟨k, hk, hopen⟩)
      · rw [htake, List.append_nil]
        rfl
      · rw [htake]
        exact fun event hevent => hchronicle.unended_of_open hdistinct hk hopen event (hgrown.subset hevent)

/-- The next event is taken. -/
theorem forward {seen : Nat} {passed : List Event} (h : (Watch.forward id seen passed).Follows id s₀ s)
    (hchronicle : Chronicle e₀ past s) (hdistinct : Function.Injective e₀.ids.run)
    (hstep : (Watch.forward id seen passed).step? s.engine = some w') : w'.Follows id s₀ s := by
  cases h with
  | forwarding bound order unended begun =>
    obtain ⟨event, hevent, rfl⟩ := Option.map_eq_some_iff.mp hstep
    have hlt := (List.getElem?_eq_some_iff.mp hevent).1
    have htake : s.engine.events.take (seen + 1) = s.engine.events.take seen ++ [event] := by
      rw [List.take_add_one, hevent, Option.toList_some]
    have hunended : (event.executionId = id → event.isFinal = false) →
        ∀ ev ∈ s.engine.events.take (seen + 1), ev.executionId = id → ev.isFinal = false := fun hlast => by
      rw [htake]
      exact List.forall_mem_append.mpr ⟨unended, List.forall_mem_singleton.mpr hlast⟩
    have horder : (s.engine.events.take (seen + 1)).filter (·.executionId = id) =
        s₀.engine.eventsOf id ++ passed ++ [event].filter (·.executionId = id) := by
      rw [htake, List.filter_append, order]
    split
    next hid =>
      rw [List.filter_cons_of_pos (p := fun ev : Event => decide (ev.executionId = id)) (decide_eq_true hid), List.filter_nil,
        List.append_assoc] at horder
      split
      next hfinal =>
        have hmem : event ∈ s.engine.eventsOf id :=
          List.mem_filter.mpr ⟨List.mem_of_getElem? hevent, decide_eq_true hid⟩
        obtain ⟨x, hx⟩ := hchronicle.concludes hdistinct (.inr ⟨event, hmem, hfinal⟩)
        obtain rfl := hx.told event hmem hfinal
        refine .ended hx (fun ev hev => ?_) (.inr (horder ▸ (List.take_prefix _ _).filter _))
        have hseen : ev ∈ (s.engine.events.take seen).filter (·.executionId = id) :=
          order ▸ List.mem_append_right _ hev
        obtain ⟨hev, hown⟩ := List.mem_filter.mp hseen
        exact ⟨of_decide_eq_true hown, unended ev hev (of_decide_eq_true hown)⟩
      next hfinal =>
        exact .forwarding hlt horder (hunended fun _ => Bool.eq_false_iff.mpr hfinal) begun
    next hid =>
      rw [List.filter_cons_of_neg (p := fun ev : Event => decide (ev.executionId = id)) (by simpa using hid), List.filter_nil,
        List.append_nil] at horder
      exact .forwarding hlt horder (hunended fun heq => absurd heq hid) begun

end Watch.Follows

namespace Engine

theorem Streams.hosts (h : Streams e₀ id s₀ past s w) : Hosts e₀ past s := by
  induction h with
  | opens h => exact h
  | goes _ g ih => exact ih.goes g
  | takes _ _ ih => exact ih

theorem Streams.events_grow (h : Streams e₀ id s₀ past s w) : s₀.engine.events <+: s.engine.events := by
  induction h with
  | opens => exact List.prefix_refl _
  | goes _ g ih => exact ih.trans g.events_grow
  | takes _ _ ih => exact ih

theorem Streams.follows (h₀ : e₀.IsReady) (h : Streams e₀ id s₀ past s w) : w.Follows id s₀ s := by
  induction h with
  | opens _ hstep => cases hstep; exact .reading
  | goes h g ih => exact ih.goes (h.hosts.chronicle h₀) g
  | @takes past s w w' h hstep ih =>
    have hchronicle := h.hosts.chronicle h₀
    cases ih with
    | reading => exact .read hchronicle h₀.distinct h.events_grow hstep
    | forwarding bound order unended begun =>
      exact (Watch.Follows.forwarding bound order unended begun).forward hchronicle h₀.distinct hstep
    | ended | refused => cases hstep

/-- A stream may take all the steps it can at any time. -/
theorem Streams.advance (h : Streams e₀ id s₀ past s w) (n : Nat) : Streams e₀ id s₀ past s (w.advance n s.engine) := by
  induction n generalizing w with
  | zero => exact h
  | succ n ih =>
    unfold Watch.advance
    split
    next w' hstep => exact ih (h.takes hstep)
    next => exact h

theorem Streams.lives {run : String} {life : List Moment} {e : Engine} (h : Streams e₀ id s₀ past s w)
    (hlife : Lives run s.engine life e) (happens : ∀ m ∈ life, m.happening ≠ .elsewhere)
    (ports : ∀ m ∈ life, ∀ node out, m.happening = .finished node (.ok out) → Keyed.Sorted out) :
    Streams e₀ id s₀ (past ++ life.map fun m => .turn run m.happening) { s with engine := e } w :=
  hlife.turns (motive := fun past e => Streams e₀ id s₀ past { s with engine := e } w) happens ports h
    fun _ _ _ _ h m happens ports => h.goes (.turn m happens ports)

/-! ## The end -/

/-- What a stream that subscribed at `s₀` passed on, now that it has been read to its end. -/
structure TellsEnd (id : String) (s₀ s : Desk) (passed : List Event) (x : Conclusion) : Prop where
  terminal : x.status.isTerminal = true
  own : ∀ event ∈ passed, event.executionId = id
  last : ∃ body, passed = body ++ [.runFinished id x.status.text x.error] ∧ ∀ event ∈ body, event.isFinal = false
  /-- It is the end alone, or all that was announced of the execution from then to the end. -/
  order : passed.length = 1 ∨ s₀.engine.eventsOf id ++ passed <+: s.engine.eventsOf id
  /-- The record that is stored says the same, now that it has ended. -/
  stored : ∀ record, s.engine.store.get id = .ok record → record.status = x.status ∧ record.error = x.error
  /-- So does that of the run, if it is still draining. -/
  running : ∀ run, s.engine.run? id = some run →
    run.coordinator.execution.status = x.status ∧ run.coordinator.execution.error = x.error
  announced : ∀ event ∈ s.engine.events, event.executionId = id → event.isFinal = true →
    event = .runFinished id x.status.text x.error

theorem TellsEnd.of_concludes {body : List Event} (h : s.Concludes id x)
    (own : ∀ event ∈ body, event.executionId = id ∧ event.isFinal = false)
    (order : body = [] ∨ s₀.engine.eventsOf id ++ (body ++ [x.event id]) <+: s.engine.eventsOf id) :
    TellsEnd id s₀ s (body ++ [x.event id]) x where
  terminal := h.terminal
  own := List.forall_mem_append.mpr ⟨fun event hevent => (own event hevent).1, List.forall_mem_singleton.mpr rfl⟩
  last := ⟨body, rfl, fun event hevent => (own event hevent).2⟩
  order := order.imp_left fun hnil => by rw [hnil]; rfl
  stored := fun record hget => by
    obtain ⟨k, hk, hconclusion⟩ := Store.conclusion_of_get hget
    have heq : record.conclusion = x := hconclusion.symm.trans (h.kept k hk)
    exact ⟨congrArg Conclusion.status heq, congrArg Conclusion.error heq⟩
  running := fun run hr => ⟨congrArg Conclusion.status (h.alive run hr), congrArg Conclusion.error (h.alive run hr)⟩
  announced := fun event hevent hid => h.told event (List.mem_filter.mpr ⟨hevent, decide_eq_true hid⟩)

/-- The end of the execution is yet to be announced: the run is going on, or is about to be entered,
or it was left unfinished in the store before the engine was there. -/
structure Awaited (e₀ : Engine) (id : String) (s : Desk) : Prop where
  unended : ∀ event ∈ s.engine.events, event.executionId = id → event.isFinal = false
  going : (s.engine.run? id).isSome ∨ s.Bears id ∨
    ∃ k, k.status.isTerminal = false ∧ e₀.store.kept? id = some k ∧ s.engine.store.kept? id = some k

/-- A run that has been recorded and has not announced its end is going on. -/
theorem Awaited.of_begun (h : Chronicle e₀ past s) (hbegun : s.Begun id)
    (unended : ∀ event ∈ s.engine.events, event.executionId = id → event.isFinal = false) : Awaited e₀ id s := by
  refine ⟨unended, ?_⟩
  by_cases hmade : ∃ p : Prepared, p.MadeIn past ∧ p.execution.id = id
  · obtain ⟨p, hp, rfl⟩ := hmade
    have hended : ∀ event ∈ s.engine.eventsOf p.execution.id, event.isFinal = true → False := fun event hevent hfinal => by
      obtain ⟨hmem, hid⟩ := List.mem_filter.mp hevent
      rw [unended event hmem (of_decide_eq_true hid)] at hfinal
      cases hfinal
    have hcarried : ∀ {place : Nat} {c : Caller}, s.callers[place]? = some c → c.call.carried? = some p →
        s.Bears p.execution.id := fun hc hcall => ⟨_, List.mem_of_getElem? hc, p, hcall, rfl⟩
    cases h.stages p hp with
    | made hc call => exact .inr (.inl (hcarried hc (by rw [call]; rfl)))
    | recorded hc call => exact .inr (.inl (hcarried hc (by rw [call]; rfl)))
    | announced hc call => exact .inr (.inl (hcarried hc (by rw [call]; rfl)))
    | dropped _ _ unkept silent =>
      rcases hbegun with ⟨k, hk, -⟩ | hevents
      · exact absurd (unkept.symm.trans hk) nofun
      · exact absurd silent hevents
    | refused _ _ _ _ _ told => exact (hended _ (told ▸ List.mem_singleton.mpr rfl) rfl).elim
    | living _ _ _ entered lives _ _ told =>
      cases hr : s.engine.run? p.execution.id with
      | some run => exact .inl rfl
      | none =>
        obtain ⟨event, hevent, hfinal⟩ := lives.final_of_gone entered hr
        exact (hended event (told ▸ List.mem_cons_of_mem _ hevent) hfinal).elim
  · have hother : ∀ p : Prepared, p.MadeIn past → p.execution.id ≠ id := fun p hp hid => hmade ⟨p, hp, hid⟩
    obtain ⟨k, hk, hopen⟩ := hbegun.resolve_right (not_not.mpr (h.others id hother).2)
    exact .inr (.inr ⟨k, hopen, h.older id hother k hk, hk⟩)

/-- A stream that is read to its end tells the end of its execution, once and last, and before it
what was announced since it subscribed. A stream that has caught up and is not over is one whose
execution has not ended. -/
theorem streamTellsEnd (h₀ : e₀.IsReady) (h : Streams e₀ id s₀ past s w) :
    (∀ passed, w = .ended passed → ∃ x, TellsEnd id s₀ s passed x) ∧
      ((w.catchUp s.engine).isOver = false → Awaited e₀ id s) := by
  constructor
  · rintro passed rfl
    cases h.follows h₀ with
    | ended concludes own order => exact ⟨_, .of_concludes concludes own order⟩
  · intro hwaits
    obtain ⟨id', seen, passed, hw, hseen⟩ := w.waits_of_catchUp s.engine hwaits
    have hfollows := (h.advance (s.engine.events.length + 3)).follows h₀
    rw [show w.advance (s.engine.events.length + 3) s.engine = .forward id' seen passed from hw] at hfollows
    cases hfollows with
    | forwarding bound order unended begun =>
      rw [List.take_of_length_le hseen] at unended
      exact .of_begun (h.hosts.chronicle h₀) begun unended

/-- The run of `Fork` is canceled while its first node is in flight. A stream that is opened then tells
that it is canceled, and once the node has ended and the run is gone this is what its record says. -/
theorem streamTellsEnd_fork : ∃ past s₀ s, (Fork.engine {}).host.IsReady ∧
    Streams (Fork.engine {}).host "run" s₀ past s (.ended [.runFinished "run" "canceled" none]) ∧
    (s₀.engine.run? "run").map (·.coordinator.inFlight) = some ["a"] ∧ (s.engine.run? "run").isNone = true ∧
    s.engine.events = [.runStarted "run" "fork", .nodeStarted "run" "a", .nodeFinished "run" "a" "success" none,
      .runFinished "run" "canceled" none] ∧ ∃ x, TellsEnd "run" s₀ s [.runFinished "run" "canceled" none] x := by
  have hready : (Fork.engine {}).host.IsReady := isReady_host rfl rfl rfl rfl rfl
  have hstarted := hosts_started (Fork.engine {}).host Fork.definition (.string "go") none
  have hcanceled : Hosts _ _ _ := (hstarted.takeSteps "run" 4).turn (.cancel : Engine.Moves "run" _ _ _) nofun nofun
  have hopened : Streams _ "run" _ _ _ _ := .opens (hcanceled.takeSteps "run" 2) rfl
  have hended : Streams _ "run" _ _ _ (.ended [.runFinished "run" "canceled" none]) := hopened.takes rfl
  have hgone := hended.lives
    (show Lives "run" _ (runNode "run" "a" (.ok [("main", .null)]) 0 7 _).1 _ from .runNode (by decide +kernel))
    happens_of_runNode (ports_of_runNode (Relay.ports_sorted .null))
  exact ⟨_, _, _, hready, hgone, by decide +kernel, by decide +kernel, by decide +kernel, (streamTellsEnd hready hgone).1 _ rfl⟩

end Engine
end
end Workflows
