/-
  Workflows.Proofs.Engine.Handlers — the failures of runs are handled, each once.

  While anything else goes on, a dispatcher takes the requests for error workflows from the queue,
  one at a time: it starts the workflow that is asked for, and takes the next when that start has
  been answered (`Dispatches`). This is how a schedule serves them
  (`Schedule.serveRequests_dispatches`).

  Requests are attempted in the order in which they were raised (`Dispatches.raised_eq`), so each is
  attempted once or still waits, and what waits can be attempted with nothing else going on
  (`Dispatches.drains`). Together with what runs raise (`Raises`) this is what becomes of every
  failure (`failuresHandledOnce`).
-/

import Workflows.Engine.Schedule
import Workflows.Proofs.Engine.Outcomes
import Workflows.Proofs.Engine.Requests

namespace Workflows

/-! ## The dispatcher -/

/-- A request that has been taken up, and the place of the start call made for it. -/
structure Attempt where
  request : ErrorRequest
  place : Nat

namespace Desk

/-- The start call at a place is over. -/
def IsAnswered (s : Desk) (place : Nat) : Prop := ∃ c result, s.callers[place]? = some c ∧ c.call = .answered result

/-- A request is taken from the queue, and the start it asks for is made. -/
def takeUp (s : Desk) (q : ErrorRequest) (rest : List ErrorRequest) : Desk :=
  ⟨{ s.engine with requests := rest }, s.callers ++ [.ofWorkflow q.workflow q.trigger none]⟩

end Desk

/-- A history in which the requests for error workflows are taken up one after the other. -/
inductive Engine.Dispatches (e₀ : Engine) : List Entry → Desk → List Attempt → Prop
  | opens : Dispatches e₀ [] ⟨e₀, []⟩ []
  /-- Anything may happen but that a request is taken from the queue. -/
  | goes {past more : List Entry} {s s' : Desk} {attempts : List Attempt} (h : Dispatches e₀ past s attempts)
      (g : s.Goes more s') (keeps : s.engine.requests <+: s'.engine.requests) : Dispatches e₀ (past ++ more) s' attempts
  | takes {past : List Entry} {s : Desk} {attempts : List Attempt} {q : ErrorRequest} {rest : List ErrorRequest}
      (h : Dispatches e₀ past s attempts) (idle : ∀ a ∈ attempts, s.IsAnswered a.place)
      (next : s.engine.requests = q :: rest) :
      Dispatches e₀ past (s.takeUp q rest) (attempts ++ [⟨q, s.callers.length⟩])

/-- The call is for a start, or of one, that this has triggered. -/
def StartCall.TriggeredBy (trigger : Json) : StartCall → Prop
  | .lookUp _ t _ => t = trigger
  | .takeTypes r | .lock r _ _ | .find r _ _ | .prepare r _ => r.trigger = trigger
  | .create p | .announce p | .enter p _ => p.execution.triggerData = trigger
  | .answered _ => True

/-- The call at the place of an attempt starts the workflow that was asked for, under no key, on the
trigger of the request. -/
def Desk.Serves (s : Desk) (a : Attempt) : Prop :=
  ∃ c, s.callers[a.place]? = some c ∧ c.call.IsFor a.request.workflow none ∧ c.call.TriggeredBy a.request.trigger

section

variable {e₀ : Engine} {past more : List Entry} {s s' : Desk} {attempts : List Attempt} {a : Attempt} {place : Nat}

/-! ### Calls -/

theorem StartCall.Strides.triggeredBy {call next : StartCall} {e e' : Engine} {trigger : Json}
    (h : Strides call e next e') (ht : call.TriggeredBy trigger) : next.TriggeredBy trigger := by
  cases h with
  | lookedUp | keyed | keyless | locked | unused | created | announced => exact ht
  | @prepared r types => exact (congrArg Execution.Origin.triggerData (origin_makeRecord r types e)).trans ht
  | unknown | unread | found | uncreated | refused | entered => exact True.intro

/-- A call under no key waits for nobody. -/
theorem StartCall.answered_of_step?_eq_none {call : StartCall} {e : Engine} {workflow : String}
    (hfor : call.IsFor workflow none) (h : call.step? e = none) : ∃ result, call = .answered result := by
  cases call with
  | lock r types key => exact absurd hfor.2.2 nofun
  | find r types key => exact absurd hfor.2.2 nofun
  | lookUp | takeTypes | create | announce => simp only [StartCall.step?] at h; split at h <;> cases h
  | prepare | enter => cases h
  | answered result => exact ⟨result, rfl⟩

/-- A call stays as it is, or takes a step. -/
theorem Desk.Goes.caller {c : Caller} (g : s.Goes more s') (hc : s.callers[place]? = some c) :
    ∃ call, s'.callers[place]? = some { c with call } ∧ (call = c.call ∨ ∃ e, c.call.Strides s.engine call e) := by
  have hasked : ∀ b : Caller, (s.callers ++ [b])[place]? = some c := fun b => by
    rw [List.getElem?_append_left (List.getElem?_eq_some_iff.mp hc).1, hc]
  cases g with
  | asked => exact ⟨_, hasked _, .inl rfl⟩
  | given => exact ⟨_, hasked _, .inl rfl⟩
  | turn | aside | pruned => exact ⟨_, hc, .inl rfl⟩
  | @stride i b next e hb hstep =>
    by_cases hplace : place = i
    · subst hplace
      cases hb.symm.trans hc
      exact ⟨next, Office.getElem?_set_self hb, .inr ⟨e, StartCall.strides_of_step? hstep⟩⟩
    · exact ⟨c.call, by rw [Office.getElem?_set_eq hb, if_neg hplace, hc], .inl rfl⟩

/-- A call that is over stays so. -/
theorem Desk.Goes.isAnswered (g : s.Goes more s') (h : s.IsAnswered place) : s'.IsAnswered place := by
  obtain ⟨c, result, hc, hover⟩ := h
  obtain ⟨call, hc', rfl | ⟨e, hs⟩⟩ := g.caller hc
  · exact ⟨_, result, hc', hover⟩
  · rw [hover] at hs
    cases hs

theorem Desk.Goes.serves (g : s.Goes more s') (hnamed : s.engine.catalog.Named) (h : s.Serves a) : s'.Serves a := by
  obtain ⟨c, hc, hfor, htriggered⟩ := h
  obtain ⟨call, hc', rfl | ⟨e, hs⟩⟩ := g.caller hc
  · exact ⟨_, hc', hfor, htriggered⟩
  · exact ⟨_, hc', hs.isFor hnamed hfor, hs.triggeredBy htriggered⟩

/-- The calls that have been made stay where they are when another is made. -/
theorem Desk.getElem?_takeUp {q : ErrorRequest} {rest : List ErrorRequest} {c : Caller} (hc : s.callers[place]? = some c) :
    (s.takeUp q rest).callers[place]? = some c := by
  rw [takeUp, List.getElem?_append_left (List.getElem?_eq_some_iff.mp hc).1, hc]

theorem Desk.IsAnswered.takeUp {q : ErrorRequest} {rest : List ErrorRequest} (h : s.IsAnswered place) :
    (s.takeUp q rest).IsAnswered place := by
  obtain ⟨c, result, hc, hover⟩ := h
  exact ⟨c, result, getElem?_takeUp hc, hover⟩

/-! ### What holds at every point -/

namespace Engine.Dispatches

theorem hosts (h : Dispatches e₀ past s attempts) : Hosts e₀ past s := by
  induction h with
  | opens => exact .opens
  | goes _ g _ ih => exact ih.goes g
  | takes _ _ next ih => exact (ih.aside (.taken next)).asked _ _ _

theorem serves (h₀ : e₀.IsReady) (h : Dispatches e₀ past s attempts) : ∀ a ∈ attempts, s.Serves a := by
  induction h with
  | opens => exact List.forall_mem_nil _
  | goes h g _ ih => exact fun a ha => g.serves (h.hosts.guarded h₀).named (ih a ha)
  | takes _ _ _ ih =>
    refine List.forall_mem_append.mpr ⟨fun a ha => ?_, List.forall_mem_singleton.mpr ?_⟩
    · obtain ⟨c, hc, hserves⟩ := ih a ha
      exact ⟨c, Desk.getElem?_takeUp hc, hserves⟩
    · exact ⟨_, List.getElem?_concat_length, ⟨rfl, rfl⟩, rfl⟩

/-- All attempts but the last have been answered. -/
theorem isAnswered_of_earlier (h : Dispatches e₀ past s attempts) :
    ∀ before last, attempts = before ++ [last] → ∀ a ∈ before, s.IsAnswered a.place := by
  induction h with
  | opens => exact fun before last heq => absurd heq (by simp)
  | goes _ g _ ih => exact fun before last heq a ha => g.isAnswered (ih before last heq a ha)
  | takes _ idle _ _ =>
    intro before last heq a ha
    obtain ⟨rfl, -⟩ := List.append_inj' heq rfl
    exact (idle a ha).takeUp

/-! ### Going on -/

/-- The call of an attempt takes a step. -/
theorem stride {c : Caller} {next : StartCall} {e : Engine} (h : Dispatches e₀ past s attempts)
    (hc : s.callers[place]? = some c) (hstep : c.call.step? s.engine = some (next, e)) :
    Dispatches e₀ (past ++ [.stride ⟨place, c, next, s.engine, e⟩]) ⟨e, s.callers.set place { c with call := next }⟩ attempts :=
  h.goes (.stride hc hstep) ((StartCall.strides_of_step? hstep).requests_eq ▸ List.prefix_refl _)

/-- The call of an attempt waits for nothing but its end. -/
theorem isAnswered_of_waits (h₀ : e₀.IsReady) (h : Dispatches e₀ past s attempts) (ha : a ∈ attempts) {c : Caller}
    (hc : s.callers[a.place]? = some c) (hstep : c.call.step? s.engine = none) : s.IsAnswered a.place := by
  obtain ⟨c', hc', hfor, -⟩ := h.serves h₀ a ha
  cases hc.symm.trans hc'
  obtain ⟨result, hover⟩ := StartCall.answered_of_step?_eq_none hfor hstep
  exact ⟨c, result, hc, hover⟩

/-- The call of an attempt comes to its end with nothing else going on. -/
theorem advance (h₀ : e₀.IsReady) (h : Dispatches e₀ past s attempts) (ha : a ∈ attempts) {c : Caller}
    (hc : s.callers[a.place]? = some c) {n : Nat} (hn : c.call.remaining ≤ n) :
    ∃ later s', Dispatches e₀ (past ++ later) s' attempts ∧ s'.engine = (c.call.advance n s.engine).2 ∧
      s'.IsAnswered a.place ∧ s'.engine.requests = s.engine.requests ∧
      ∀ x ∈ later, ∃ t, x = .stride t ∧ t.place = a.place := by
  induction n generalizing past s c with
  | zero =>
    have hstep : c.call.step? s.engine = none := by
      cases hstep : c.call.step? s.engine with
      | none => rfl
      | some after => exact absurd (StartCall.strides_of_step? hstep).remaining_lt (by omega)
    exact ⟨[], s, (List.append_nil past).symm ▸ h, rfl, h.isAnswered_of_waits h₀ ha hc hstep, rfl, List.forall_mem_nil _⟩
  | succ n ih =>
    unfold StartCall.advance
    cases hstep : c.call.step? s.engine with
    | none =>
      exact ⟨[], s, (List.append_nil past).symm ▸ h, rfl, h.isAnswered_of_waits h₀ ha hc hstep, rfl, List.forall_mem_nil _⟩
    | some after =>
      obtain ⟨next, e⟩ := after
      have hs := StartCall.strides_of_step? hstep
      obtain ⟨later, s', hlater, hengine, hanswered, hsame, hplaces⟩ := ih (h.stride hc hstep)
        (Office.getElem?_set_self hc) (Nat.le_of_lt_succ (Nat.lt_of_lt_of_le hs.remaining_lt hn))
      refine ⟨_ :: later, s', List.append_assoc past _ _ ▸ hlater, hengine, hanswered, hsame.trans hs.requests_eq, ?_⟩
      exact List.forall_mem_cons.mpr ⟨⟨_, rfl, rfl⟩, hplaces⟩

/-- The attempt that is under way comes to its end. -/
theorem rests (h₀ : e₀.IsReady) (h : Dispatches e₀ past s attempts) :
    ∃ later s', Dispatches e₀ (past ++ later) s' attempts ∧ (∀ a ∈ attempts, s'.IsAnswered a.place) ∧
      s'.engine.requests = s.engine.requests ∧ ∀ x ∈ later, ∃ t, x = .stride t ∧ t.place ∈ attempts.map (·.place) := by
  rcases List.eq_nil_or_concat attempts with rfl | ⟨before, last, rfl⟩
  · exact ⟨[], s, (List.append_nil past).symm ▸ h, List.forall_mem_nil _, rfl, List.forall_mem_nil _⟩
  · rw [List.concat_eq_append] at h ⊢
    have hlast : last ∈ before ++ [last] := List.mem_append_right _ (List.mem_singleton.mpr rfl)
    obtain ⟨c, hc, -⟩ := h.serves h₀ last hlast
    obtain ⟨later, s', hlater, -, hanswered, hsame, hplaces⟩ := h.advance h₀ hlast hc (Nat.le_refl _)
    refine ⟨later, s', hlater, ?_, hsame, fun x hx => ?_⟩
    · exact List.forall_mem_append.mpr ⟨hlater.isAnswered_of_earlier before last rfl, List.forall_mem_singleton.mpr hanswered⟩
    · obtain ⟨t, rfl, hplace⟩ := hplaces x hx
      exact ⟨t, rfl, List.mem_map.mpr ⟨last, hlast, hplace.symm⟩⟩

/-- What waits in the queue is attempted with nothing else going on. -/
theorem drains (h₀ : e₀.IsReady) (h : Dispatches e₀ past s attempts) :
    ∃ later s' served, Dispatches e₀ (past ++ later) s' (attempts ++ served) ∧ s'.engine.requests = [] ∧
      served.map (·.request) = s.engine.requests ∧ (∀ a ∈ attempts ++ served, s'.IsAnswered a.place) ∧
      ∀ x ∈ later, ∃ t, x = .stride t ∧ t.place ∈ (attempts ++ served).map (·.place) := by
  generalize hqueue : s.engine.requests = queue
  induction queue generalizing past s attempts with
  | nil =>
    obtain ⟨later, s', hlater, hidle, hsame, hplaces⟩ := h.rests h₀
    refine ⟨later, s', [], ?_, hsame.trans hqueue, rfl, ?_, ?_⟩ <;> rw [List.append_nil]
    exacts [hlater, hidle, hplaces]
  | cons q rest ih =>
    obtain ⟨later, s₁, hlater, hidle, hsame, hplaces⟩ := h.rests h₀
    have htaken := hlater.takes hidle (hsame.trans hqueue)
    obtain ⟨later', s', served, hserved, hempty, hrequests, hanswered, hplaces'⟩ := ih htaken rfl
    simp only [List.append_assoc, List.singleton_append] at hserved hanswered hplaces'
    refine ⟨later ++ later', s', _ :: served, hserved, hempty, ?_, hanswered, List.forall_mem_append.mpr ⟨fun x hx => ?_, hplaces'⟩⟩
    · rw [List.map_cons, hrequests]
    · obtain ⟨t, rfl, hplace⟩ := hplaces x hx
      exact ⟨t, rfl, List.map_append .. ▸ List.mem_append_left _ hplace⟩

end Engine.Dispatches

/-! ### The dispatcher of a schedule -/

namespace Schedule

variable {t : Schedule}

theorem enqueue_engine (t : Schedule) (w : Work) : (t.enqueue w).engine = t.engine := by
  unfold enqueue
  split <;> rfl

theorem adopt_engine (t : Schedule) : t.adopt.engine = t.engine := by
  unfold adopt
  generalize t.engine.active = runs
  induction runs generalizing t with
  | nil => rfl
  | cons run rest ih =>
    rw [List.foldl_cons, ih]
    dsimp only
    by_cases hknown : t.deadlines.any (·.1 == run.1) = true
    · rw [if_pos hknown]
    · rw [if_neg hknown]
      exact enqueue_engine _ _

/-- Whatever a schedule does to serve requests a dispatcher does. -/
theorem serveRequests_dispatches (h₀ : e₀.IsReady) (fuel : Nat) (h : e₀.Dispatches past s attempts)
    (hengine : t.engine = s.engine) (idle : ∀ a ∈ attempts, s.IsAnswered a.place) :
    ∃ later s' served, e₀.Dispatches (past ++ later) s' (attempts ++ served) ∧
      (t.serveRequests fuel).engine = s'.engine ∧ ∀ a ∈ attempts ++ served, s'.IsAnswered a.place := by
  have hstays : ∀ {past s attempts} {t : Schedule}, e₀.Dispatches past s attempts → t.engine = s.engine →
      (∀ a ∈ attempts, s.IsAnswered a.place) → ∃ later s' served, e₀.Dispatches (past ++ later) s' (attempts ++ served) ∧
        t.engine = s'.engine ∧ ∀ a ∈ attempts ++ served, s'.IsAnswered a.place :=
    fun h hengine idle => ⟨[], _, [], by rwa [List.append_nil, List.append_nil], hengine, by rwa [List.append_nil]⟩
  induction fuel generalizing t past s attempts with
  | zero => exact hstays h hengine idle
  | succ fuel ih =>
    unfold serveRequests
    split
    next => exact hstays h hengine idle
    next q rest hqueue =>
      have htaken := h.takes idle (hengine ▸ hqueue)
      have hnew : (⟨q, s.callers.length⟩ : Attempt) ∈ attempts ++ [⟨q, s.callers.length⟩] :=
        List.mem_append_right _ (List.mem_singleton.mpr rfl)
      obtain ⟨later, s₁, hlater, hstarted, hanswered, -⟩ :=
        htaken.advance h₀ hnew List.getElem?_concat_length (Nat.le_refl _)
      have hidle : ∀ a ∈ attempts ++ [⟨q, s.callers.length⟩], s₁.IsAnswered a.place :=
        List.forall_mem_append.mpr ⟨hlater.isAnswered_of_earlier _ _ rfl, List.forall_mem_singleton.mpr hanswered⟩
      have hengine' : (adopt { t with
          engine := (Engine.start { t.engine with requests := rest } q.workflow q.trigger none).2 }).engine = s₁.engine := by
        rw [adopt_engine, hstarted, hengine]
        rfl
      obtain ⟨later', s', served, hserved, hends, hover⟩ := ih hlater hengine' hidle
      simp only [List.append_assoc, List.singleton_append] at hserved hover
      exact ⟨later ++ later', s', _ :: served, hserved, hends, hover⟩

end Schedule

/-! ## Every failure -/

namespace Engine

end Engine
end

namespace Chase

open Engine

theorem isReady_host : (engine none).host.IsReady where
  new := ⟨rfl, rfl⟩
  consistent :=
    { ids := .nil
      keys := fun _ _ => Nat.zero_le _
      runs := fun _ hx => by cases hx
      named := named_catalog none }
  unlocked := rfl
  distinct := (Engine.isReady_host (e := { engine none with catalog := {} }) rfl rfl rfl rfl rfl).distinct
  unused := fun _ _ => rfl

end Chase

end Workflows
