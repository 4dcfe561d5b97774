/-
  Workflows.Proofs.Engine.Furnished — the configuration and the node types that runs go on with.

  A run is given the configuration of its engine and the node types that its start call took, and
  keeps both. So as long as what is registered is in order, so is every node that a run launches
  (`Desk.Furnished.goes`): it comes to an activity, and puts out a map by port.
-/

import Workflows.Proofs.Engine.Pruning
import Workflows.Proofs.Run.Invoked
import Workflows.Proofs.Run.Serial
import Workflows.Proofs.Run.Validated

namespace Workflows

/-- A node of any of these types comes to an activity, and puts out a map by port. -/
structure Registry.Orderly (types : Registry) : Prop where
  comes : ∀ name t, types.resolve? name = some t → ∀ context, t.collapses context = false
  maps : ∀ name t, types.resolve? name = some t → ∀ context, (t.act context).PutsOutMaps

/-- So does this node. -/
structure Launch.Orderly (l : Launch) : Prop where
  comes : l.collapses = false
  maps : l.activity.PutsOutMaps

/-! ## Coordinators -/

/-- The coordinator is on this configuration, and what it launches is in order. -/
structure Coordinator.Furnished (c : Coordinator) (config : Config) : Prop where
  config : c.config = config
  types : c.types.Orderly
  launches : ∀ l, .launch l ∈ c.errands → l.Orderly

namespace Coordinator

variable {c c' : Coordinator} {config : Config} {canceled : Bool} {x : Happening}

theorem orderly_launchOf (h : c.types.Orderly) (node : Node) (inputs : PortValues) : (c.launchOf node inputs).Orderly := by
  cases ht : c.types.resolve? node.type with
  | none => exact ⟨by simp only [launchOf, ht, Option.any_none], by simp only [launchOf, ht]; exact .fail _⟩
  | some t =>
    refine ⟨?_, ?_⟩
    · simp only [launchOf, ht, Option.any_some]
      exact h.comes _ t ht _
    · simp only [launchOf, ht]
      exact h.maps _ t ht _

theorem Furnished.advance (h : c.Furnished config) (ha : c.Advance canceled x c') : c'.Furnished config := by
  refine ⟨ha.config_eq.trans h.config, ha.types_eq ▸ h.types, fun l hmem => ?_⟩
  cases ha with
  | errand _ he | passed he => exact h.launches l (he ▸ List.mem_cons_of_mem _ hmem)
  | skipped _ he =>
    simp only [List.cons_append, List.nil_append, List.mem_cons, reduceCtorEq, false_or] at hmem
    exact h.launches l (he ▸ List.mem_cons_of_mem _ hmem)
  | started =>
    simp only [List.mem_cons, List.not_mem_nil, reduceCtorEq, false_or, or_false, Errand.launch.injEq] at hmem
    exact hmem ▸ orderly_launchOf h.types _ _
  | stopped | timedOut | succeeded | failed => simp at hmem
  | ended => simp [Coordinator.finish] at hmem
  | canceled | elsewhere => exact h.launches l hmem

theorem Turn.launch_eq {l : Launch} (h : c.Turn canceled (.step (some (.launch l))) c') :
    ∃ rest, c.errands = .launch l :: rest := by
  generalize hx : Happening.step (some (.launch l)) = x at h
  cases h with
  | @errand e rest now he hskip =>
    cases e with
    | launch =>
      cases hx
      exact ⟨rest, he⟩
    | saveNode id =>
      obtain ⟨r, -, h⟩ := Option.map_eq_some_iff.mp (Happening.step.inj hx).symm
      cases h
    | skip id => exact absurd rfl (hskip id)
    | save | emit | cancel | request | signalDone | leave => cases hx
  | _ => cases hx

end Coordinator

/-! ## Start calls -/

/-- The node types that a start call has taken. -/
def StartCall.types? : StartCall → Option Registry
  | .lock _ types _ | .find _ types _ | .prepare _ types => some types
  | .create p | .announce p | .enter p _ => some p.types
  | .lookUp _ _ _ | .takeTypes _ | .answered _ => none

section

variable {call next : StartCall} {e e' : Engine} {types : Registry} {id : String} {x : Happening}

theorem StartCall.Strides.settings_eq (h : Strides call e next e') : e'.config = e.config ∧ e'.registry = e.registry := by
  cases h with
  | uncreated | announced | refused => rw [unlock_eq]; exact ⟨rfl, rfl⟩
  | _ => exact ⟨rfl, rfl⟩

/-- A start call takes the node types that are registered, and keeps them. -/
theorem StartCall.Strides.taken (h : Strides call e next e') (htypes : next.types? = some types) :
    types = e.registry ∨ call.types? = some types := by
  cases h with
  | keyed | keyless =>
    cases htypes
    exact .inl rfl
  | locked | unused | prepared | created | announced => exact .inr htypes
  | lookedUp | unknown | unread | found | uncreated | refused | entered => cases htypes

/-! ## Engines -/

theorem Engine.settings_write (f : Store → Except Failure Store) :
    (e.write f).config = e.config ∧ (e.write f).registry = e.registry := by
  unfold write
  split <;> exact ⟨rfl, rfl⟩

theorem Engine.Moves.settings_eq (m : e.Moves id x e') (happens : x ≠ .elsewhere) :
    e'.config = e.config ∧ e'.registry = e.registry := by
  cases m with
  | @step _ effect h =>
    obtain ⟨run, c, -, -, rfl⟩ := stepRun?_eq_some h
    cases effect with
    | none => exact ⟨rfl, rfl⟩
    | some f =>
      cases f with
      | save record => exact settings_write (e := e.withCoordinator id c) (·.update record)
      | saveNode execution r => exact settings_write (e := e.withCoordinator id c) (·.putNode execution r)
      | emit | launch | cancel | request | signalDone | leave => exact ⟨rfl, rfl⟩
  | cancel | timeUp | finished => exact ⟨rfl, rfl⟩
  | elsewhere => exact absurd rfl happens

end

section

variable {e₀ : Engine} {past more : List Entry} {s s' : Desk}

theorem Desk.Goes.config_eq (g : s.Goes more s') : s'.engine.config = s.engine.config := by
  cases g with
  | asked | given | pruned => rfl
  | stride hc hstep => exact (StartCall.strides_of_step? hstep).settings_eq.1
  | turn m happens => exact (m.settings_eq happens).1
  | aside m =>
    obtain ⟨_, _, _, _, _, rfl, -⟩ := m.eq
    rfl

/-- Whoever is at work has node types that are in order, and every run the configuration of the engine. -/
structure Desk.Furnished (past : List Entry) (s : Desk) : Prop where
  registry : s.engine.registry.Orderly
  calls : ∀ c ∈ s.callers, ∀ types, c.call.types? = some types → types.Orderly
  made : ∀ p : Prepared, p.MadeIn past → p.types.Orderly
  runs : ∀ id run, s.engine.run? id = some run → run.coordinator.Furnished s.engine.config

namespace Desk.Furnished

theorem opens (h₀ : e₀.IsReady) (orderly : e₀.registry.Orderly) : Furnished [] ⟨e₀, []⟩ where
  registry := orderly
  calls := List.forall_mem_nil _
  made := by
    rintro p ⟨_, ht, -⟩
    cases ht
  runs := fun id run hr => by
    rw [Engine.run?, h₀.new.idle] at hr
    cases hr

theorem goes (h : s.Furnished past) (hchronicle : Chronicle e₀ past s) (hdistinct : Function.Injective e₀.ids.run)
    (g : s.Goes more s') (orderly : s'.engine.registry.Orderly) : s'.Furnished (past ++ more) := by
  have htaken : ∀ {i : Nat} {c : Caller} {next : StartCall} {e : Engine}, s.callers[i]? = some c →
      c.call.step? s.engine = some (next, e) → ∀ types, next.types? = some types → types.Orderly :=
    fun hc hstep types htypes => by
      rcases (StartCall.strides_of_step? hstep).taken htypes with rfl | hbefore
      · exact h.registry
      · exact h.calls _ (List.mem_of_getElem? hc) types hbefore
  refine ⟨orderly, ?_, ?_, fun id run hr => ?_⟩
  · cases g with
    | asked | given => exact List.forall_mem_append.mpr ⟨h.calls, List.forall_mem_singleton.mpr nofun⟩
    | turn | aside | pruned => exact h.calls
    | stride hc hstep =>
      intro c hmem types htypes
      rcases List.mem_or_eq_of_mem_set hmem with hmem | rfl
      · exact h.calls c hmem types htypes
      · exact htaken hc hstep types htypes
  · intro p hp
    cases g with
    | asked | given | aside | pruned => exact h.made p (List.append_nil past ▸ hp)
    | turn => exact h.made p (Prepared.madeIn_turn.mp hp)
    | stride hc hstep =>
      rcases Prepared.madeIn_stride.mp hp with hp | rfl
      · exact h.made p hp
      · exact htaken hc hstep p.types rfl
  · rw [g.config_eq]
    cases hbefore : s.engine.run? id with
    | none =>
      obtain ⟨p, plan, hp, -, -, rfl, -⟩ := hchronicle.entered_of_alive g hbefore hr
      exact ⟨rfl, h.made p hp, nofun⟩
    | some before =>
      obtain ⟨-, ⟨hspares, -⟩ | ⟨x, _, -, m, happens, -⟩⟩ := (hchronicle.living hbefore).1.goes hchronicle hdistinct g
      · exact h.runs id run (hspares.run.symm.trans hr)
      · obtain ⟨_, hrun, hturn, -⟩ := m.turn hr
        exact (h.runs id _ hrun).advance ((hchronicle.mirrored hrun).1.advance hturn)

end Desk.Furnished
end
end Workflows
