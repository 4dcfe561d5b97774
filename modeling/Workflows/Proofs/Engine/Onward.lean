/-
  Workflows.Proofs.Engine.Onward — one more thing happens on an engine.

  `Desk.Goes` is what a history may tell of next, with the entries it adds. Seen from one run it
  does one of four things (`Desk.Concerns`): it spares the run, it is a turn of the run while that
  is alive, it is a step of the call that carries the run, or it makes the record of the run. An
  invariant about one run is kept by every step if it is kept by these (`Chronicle.concerns`).
-/

import Workflows.Proofs.Engine.Chronicle

namespace Workflows

namespace Desk

/-- One thing happens, and a history tells these entries of it. -/
inductive Goes (s : Desk) : List Entry → Desk → Prop
  | asked (workflow : String) (trigger : Json) (key : Option String) :
      Goes s [] { s with callers := s.callers ++ [.ofWorkflow workflow trigger key] }
  | given (d : Definition) (trigger : Json) (key : Option String) :
      Goes s [] { s with callers := s.callers ++ [.ofDefinition d trigger key] }
  | stride {i : Nat} {c : Caller} {next : StartCall} {e : Engine} (hc : s.callers[i]? = some c)
      (hstep : c.call.step? s.engine = some (next, e)) :
      Goes s [.stride ⟨i, c, next, s.engine, e⟩] ⟨e, s.callers.set i { c with call := next }⟩
  | turn {id : String} {x : Happening} {e : Engine} (m : s.engine.Moves id x e) (happens : x ≠ .elsewhere)
      (ports : ∀ node ports, x = .finished node (.ok ports) → Keyed.Sorted ports) :
      Goes s [.turn id x] { s with engine := e }
  | aside {e : Engine} (m : s.engine.Aside e) : Goes s [] { s with engine := e }
  | pruned (before : Instant) : Goes s [] { s with engine := (s.engine.prune before).1 }

/-- What it is to one run that something happens. -/
inductive Concerns (id : String) (s : Desk) : List Entry → Desk → Prop
  | spared {more : List Entry} {s' : Desk} (h : s.Spares id s') (quiet : ∀ x, .turn id x ∈ more → x = .cancel) :
      Concerns id s more s'
  | turn {x : Happening} {run : ActiveRun} {e : Engine} (m : s.engine.Moves id x e) (happens : x ≠ .elsewhere)
      (hr : s.engine.run? id = some run) : Concerns id s [.turn id x] { s with engine := e }
  | carried {i : Nat} {c : Caller} {p : Prepared} {next : StartCall} {e : Engine} (hc : s.callers[i]? = some c)
      (hcarried : c.call.carried? = some p) (hid : p.execution.id = id)
      (hstep : c.call.step? s.engine = some (next, e)) :
      Concerns id s [.stride ⟨i, c, next, s.engine, e⟩] ⟨e, s.callers.set i { c with call := next }⟩
  | made {i : Nat} {c : Caller} {p : Prepared} {e : Engine} (hc : s.callers[i]? = some c)
      (hspares : s.engine.Spares id e) (hid : p.execution.id = id) (hnew : s.engine.ids.run s.engine.runsNamed = id) :
      Concerns id s [.stride ⟨i, c, .create p, s.engine, e⟩] ⟨e, s.callers.set i { c with call := .create p }⟩

variable {s s' : Desk} {more : List Entry}

/-- What has been announced stays so. -/
theorem Goes.events_grow (h : s.Goes more s') : s.engine.events <+: s'.engine.events := by
  cases h with
  | asked | given | pruned => exact List.prefix_refl _
  | stride hc hstep => exact (StartCall.strides_of_step? hstep).events_grow
  | turn m happens => exact m.announces happens ▸ List.prefix_append _ _
  | aside m => exact m.spec.2.2.1 ▸ List.prefix_refl _

/-- Ids that have been given are not given again. -/
theorem Goes.named (h : s.Goes more s') :
    s'.engine.ids = s.engine.ids ∧ s.engine.runsNamed ≤ s'.engine.runsNamed := by
  cases h with
  | asked | given | pruned => exact ⟨rfl, Nat.le_refl _⟩
  | stride hc hstep =>
    obtain ⟨hids, ⟨hnamed, -⟩ | ⟨hnamed, -⟩⟩ := (StartCall.strides_of_step? hstep).ids_eq
    · exact ⟨hids, hnamed.ge⟩
    · exact ⟨hids, hnamed ▸ Nat.le_succ _⟩
  | turn m happens => exact ⟨(m.ids_eq happens).1, (m.ids_eq happens).2.ge⟩
  | aside m => exact ⟨m.spec.2.2.2.1, m.spec.2.2.2.2.1.ge⟩

end Desk

variable {e₀ : Engine} {past more : List Entry} {s s' : Desk}

theorem Engine.Hosts.goes (h : Hosts e₀ past s) (g : s.Goes more s') : Hosts e₀ (past ++ more) s' := by
  cases g with
  | asked workflow trigger key => exact (List.append_nil past).symm ▸ h.asked workflow trigger key
  | given d trigger key => exact (List.append_nil past).symm ▸ h.given d trigger key
  | stride hc hstep => exact h.stride hc hstep
  | turn m happens ports => exact h.turn m happens ports
  | aside m => exact (List.append_nil past).symm ▸ h.aside m
  | pruned before => exact (List.append_nil past).symm ▸ h.pruned before

/-- What holds at first, and is kept whatever happens, holds at every point of a history. -/
theorem Engine.Hosts.induction {motive : List Entry → Desk → Prop} (h : Hosts e₀ past s) (opens : motive [] ⟨e₀, []⟩)
    (goes : ∀ past more s s', Hosts e₀ past s → s.Goes more s' → motive past s → motive (past ++ more) s') :
    motive past s := by
  have quietly : ∀ {past s s'}, Hosts e₀ past s → s.Goes [] s' → motive past s → motive past s' := fun {past _ _} h g ih =>
    List.append_nil past ▸ goes _ _ _ _ h g ih
  induction h with
  | opens => exact opens
  | asked h workflow trigger key ih => exact quietly h (.asked workflow trigger key) ih
  | given h d trigger key ih => exact quietly h (.given d trigger key) ih
  | stride h hc hstep ih => exact goes _ _ _ _ h (.stride hc hstep) ih
  | turn h m happens ports ih => exact goes _ _ _ _ h (.turn m happens ports) ih
  | aside h m ih => exact quietly h (.aside m) ih
  | pruned h before ih => exact quietly h (.pruned before) ih

/-- Whatever happens concerns a run in one of four ways. -/
theorem Chronicle.concerns (h : Chronicle e₀ past s) (id : String) (g : s.Goes more s') : s.Concerns id more s' := by
  cases g with
  | asked workflow trigger key =>
    exact .spared (Desk.spares_asked (c := .ofWorkflow workflow trigger key) rfl) fun _ hx => absurd hx List.not_mem_nil
  | given d trigger key =>
    exact .spared (Desk.spares_asked (c := .ofDefinition d trigger key) rfl) fun _ hx => absurd hx List.not_mem_nil
  | aside m => exact .spared (Desk.spares_of_engine (m.spares id)) fun _ hx => absurd hx List.not_mem_nil
  | pruned before =>
    exact .spared (Desk.spares_of_engine (Engine.spares_prune h.stored id before)) fun _ hx => absurd hx List.not_mem_nil
  | @turn other x e m happens ports =>
    cases hr : s.engine.run? other with
    | none =>
      obtain ⟨hcancel, hspares⟩ := m.spares_of_gone happens hr
      refine .spared (Desk.spares_of_engine (hspares id)) fun y hy => ?_
      cases List.mem_singleton.mp hy
      exact hcancel
    | some run =>
      by_cases hid : id = other
      · subst hid
        exact .turn m happens hr
      · refine .spared (Desk.spares_of_engine (h.spares_turn m happens hr hid)) fun y hy => ?_
        cases List.mem_singleton.mp hy
        exact absurd rfl hid
  | @stride i c next e hc hstep =>
    have hs := StartCall.strides_of_step? hstep
    have hquiet : ∀ x, .turn id x ∈ [Entry.stride ⟨i, c, next, s.engine, e⟩] → x = .cancel := fun x hx => by
      cases List.mem_singleton.mp hx
    by_cases hbears : c.Bears id
    · obtain ⟨p, hp, hid⟩ := hbears
      exact .carried hc hp hid hstep
    by_cases hafter : Caller.Bears { c with call := next } id
    · -- a call that has come to be about the run has just made its record
      obtain ⟨p, hp, hid⟩ := hafter
      obtain ⟨-, ⟨-, -, hcarries⟩ | ⟨-, r, types, hcall, rfl, rfl⟩⟩ := hs.ids_eq
      · exact absurd ⟨p, hcarries p hp, hid⟩ hbears
      · cases hp
        refine .made hc (hs.spares fun q hq => ?_) hid ((StartCall.id_makeRecord r types s.engine).symm.trans hid)
        rw [hcall] at hq
        cases hq
    · exact .spared (Desk.spares_stride hc hs hbears hafter) hquiet

/-! ## Runs that have been entered -/

section

variable {id : String} {run : ActiveRun}

/-- The run has been entered: its record was made, and no call is about it any more. -/
def Desk.HasEntered (s : Desk) (past : List Entry) (id : String) : Prop :=
  (∃ p : Prepared, p.MadeIn past ∧ p.execution.id = id) ∧ ¬ s.Bears id

/-- Whatever happens after a run was entered spares it or is a turn of it. -/
theorem Desk.HasEntered.goes (h : s.HasEntered past id) (hchronicle : Chronicle e₀ past s)
    (hdistinct : Function.Injective e₀.ids.run) (g : s.Goes more s') :
    s'.HasEntered (past ++ more) id ∧ (s.engine.Spares id s'.engine ∧ (∀ x, .turn id x ∈ more → x = .cancel) ∨
      ∃ x run, s.engine.run? id = some run ∧ s.engine.Moves id x s'.engine ∧ x ≠ .elsewhere ∧ more = [.turn id x]) := by
  obtain ⟨⟨p, hp, rfl⟩, hfree⟩ := h
  have hmade : ∃ q : Prepared, q.MadeIn (past ++ more) ∧ q.execution.id = p.execution.id := ⟨p, hp.append, rfl⟩
  cases hchronicle.concerns p.execution.id g with
  | spared hs quiet => exact ⟨⟨hmade, mt hs.bears_iff.mp hfree⟩, .inl ⟨hs.engine, quiet⟩⟩
  | turn m happens hr => exact ⟨⟨hmade, hfree⟩, .inr ⟨_, _, hr, m, happens, rfl⟩⟩
  | @carried i c q next e hc hcarried hid hstep =>
    exact absurd ⟨c, List.mem_of_getElem? hc, q, hcarried, hid⟩ hfree
  | made _ _ _ hnew =>
    rw [hchronicle.ids] at hnew
    exact absurd hnew.symm (hchronicle.id_ne_of_unnamed hdistinct (Nat.le_refl _) p hp)

/-- A run that is not alive takes no turn but that it is asked to cancel. -/
theorem Chronicle.quiet_of_gone (h : Chronicle e₀ past s) (g : s.Goes more s') (hgone : s.engine.run? id = none) :
    ∀ x, .turn id x ∈ more → x = .cancel := by
  cases h.concerns id g with
  | spared _ quiet => exact quiet
  | turn _ _ hr => exact absurd (hgone.symm.trans hr) nofun
  | carried | made =>
    intro x hx
    cases List.mem_singleton.mp hx

/-- A run that is alive now and was not has just been entered. -/
theorem Chronicle.entered_of_alive (h : Chronicle e₀ past s) (g : s.Goes more s') (hgone : s.engine.run? id = none)
    (hr : s'.engine.run? id = some run) :
    ∃ (p : Prepared) (plan : Plan), p.MadeIn past ∧ p.execution.id = id ∧ p.plan = .ok plan ∧
      run = { coordinator := .ofPlan p.definition plan p.types s.engine.config p.execution } ∧
      (∃ k, s'.engine.store.kept? id = some k) ∧ ∀ x, .turn id x ∉ more := by
  have hsame : s'.engine.run? id = s.engine.run? id → False := fun hsame =>
    absurd ((hsame.trans hgone).symm.trans hr) nofun
  cases h.concerns id g with
  | spared hs => exact (hsame hs.engine.run).elim
  | turn m happens hbefore => exact absurd (hgone.symm.trans hbefore) nofun
  | made _ hspares => exact (hsame hspares.run).elim
  | @carried i c p next e hc hcarried hid hstep =>
    subst hid
    have hp := h.carried c (List.mem_of_getElem? hc) p hcarried
    have hcall := (h.stages p hp).carried hc hcarried
    have hstrides := StartCall.strides_of_step? hstep
    generalize c.call = call at hcall hstrides
    cases hcall with
    | create =>
      cases hstrides with
      | created => exact (hsame (Engine.run?_congr rfl)).elim
      | uncreated => exact (hsame (Engine.run?_congr (by rw [StartCall.unlock_eq]))).elim
    | announce =>
      cases hstrides with
      | announced => exact (hsame (Engine.run?_congr (by rw [StartCall.unlock_eq]; rfl))).elim
      | refused => exact (hsame (Engine.run?_congr (by rw [StartCall.unlock_eq]; rfl))).elim
    | @enter plan _ _ _ _ _ gone create announce kept =>
      have planned := plan_of_announce announce
      have hkept := kept.resolve_right fun hrefused => by rw [planned] at hrefused; cases hrefused.1
      obtain ⟨k, hk, -⟩ := kept_of_create create
      cases hstrides with
      | entered =>
        refine ⟨p, plan, hp, rfl, planned, ?_, ⟨k, hkept.trans hk⟩, fun x hx => ?_⟩
        · exact Option.some.inj (hr.symm.trans (Engine.run?_entered gone _))
        · cases List.mem_singleton.mp hx

end

end Workflows
