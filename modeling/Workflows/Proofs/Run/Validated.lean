/-
  Workflows.Proofs.Run.Validated — a run of a definition that was checked misses nothing in it.

  The check, the plan and the coordinator each look nodes, types and ports up for themselves.
  A definition that `prepare` lets pass is `Checked` under the types the run starts with, its
  plan lists its nodes, and the coordinator starts only nodes of the plan, on the same types
  to its end (`Advance.types_eq`). So whatever happens, every node it starts is found, and so is
  the type that carries it out (`Enters.wellPosed`), and every connection read for the inputs of
  a node joins ports that are declared.
-/

import Workflows.Proofs.Run.History

namespace Workflows

/-- The node is in the definition, its type is known, and it is carried out by its type. -/
def Launch.CarriedOutBy (l : Launch) (d : Definition) (types : Registry) (execution : String) : Prop :=
  ∃ n t inputs, d.node? l.nodeId = some n ∧ types.resolve? n.type = some t ∧
    l.activity = t.act ⟨execution, d.key, n.id, n.type, n.data, inputs, d.vars⟩

namespace Coordinator

variable {c c' : Coordinator} {canceled : Bool} {x : Happening}

/-- A run keeps the node types it started with. -/
theorem Advance.types_eq (h : c.Advance canceled x c') : c'.types = c.types := by
  cases h <;> rfl

end Coordinator

namespace Engine

variable {r : StartRequest} {p : Plan} {id : String} {e₀ e : Engine} {run : ActiveRun} {past : List Moment}

theorem Runs.workflow {c : Coordinator} (h : Runs r p id c) : c.execution.workflowId = r.definition.key :=
  congrArg Execution.Origin.workflowId h.origin

theorem Runs.carriedOutBy_launchOf {c : Coordinator} {x : String} {n : Node} {t : NodeType} (h : Runs r p id c)
    (hn : c.definition.node? x = some n) (ht : c.types.resolve? n.type = some t) (inputs : PortValues) :
    (c.launchOf n inputs).CarriedOutBy r.definition c.types id := by
  have hname : n.id = x := by simpa using List.find?_some hn
  refine ⟨n, t, inputs, ?_, ht, ?_⟩
  · rw [← h.definition, ← hn, ← hname]
    rfl
  · simp only [Coordinator.launchOf, ht, Coordinator.contextOf, h.definition, h.id_eq, h.workflow]

/-- Whatever the coordinator has yet to launch is carried out by a type. -/
def Carries (r : StartRequest) (types : Registry) (id : String) (c : Coordinator) : Prop :=
  ∀ l, .launch l ∈ c.errands → l.CarriedOutBy r.definition types id

/-- The coordinator looks nothing up in vain: it is on the types the run started with, a node it
may start is started, and what it launches is carried out by a type. -/
structure WellPosed (r : StartRequest) (snapshot : Registry) (id : String) (c : Coordinator) : Prop where
  definition : c.definition = r.definition
  types : c.types = snapshot
  starts : c.stopping = false → ∀ x ∈ c.ready, ∀ now, ∃ l, l.nodeId = x ∧ l.CarriedOutBy r.definition snapshot id ∧
    (c.startNode x now).inFlight = c.inFlight ++ [x] ∧
    (c.startNode x now).errands = [.saveNode x, .emit (.nodeStarted id x), .launch l]
  carries : Carries r snapshot id c

section

variable {c c' : Coordinator} {types : Registry} {canceled : Bool} {h : Happening}

/-- A ready node is found, and so is its type. -/
theorem Runs.found {x : String} (hc : Runs r p id c) (checked : r.definition.Checked types) (hgo : c.stopping = false)
    (hx : x ∈ c.ready) : ∃ n t, c.definition.node? x = some n ∧ n.id = x ∧ types.resolve? n.type = some t := by
  have hw := ((hc.sound.ready hgo x).mp hx).1
  obtain ⟨n, hn, hid⟩ := Plan.node?_isSome hc.sound.planned ((hc.sound.known x).mp (by rw [hw]; rfl))
  obtain ⟨t, ht⟩ := checked.known n (Definition.mem_nodes_of_node? (hc.definition ▸ hn))
  exact ⟨n, t, hn, hid, ht⟩

/-- Only a start puts a launch among the errands, that of a ready node. -/
theorem Runs.carries_advance (hc : Runs r p id c) (checked : r.definition.Checked c.types)
    (hl : Carries r c.types id c) (ha : c.Advance canceled h c') : Carries r c.types id c' := by
  intro l hmem
  cases ha with
  | errand now he hskip => exact hl l (he ▸ List.mem_cons_of_mem _ hmem)
  | passed he hs => exact hl l (he ▸ List.mem_cons_of_mem _ hmem)
  | skipped now he hr hw =>
    simp only [List.cons_append, List.nil_append, List.mem_cons, reduceCtorEq, false_or] at hmem
    exact hl l (he ▸ List.mem_cons_of_mem _ hmem)
  | started now idle going unasked slot first hn hr hw fed =>
    simp only [List.mem_cons, List.not_mem_nil, reduceCtorEq, false_or, or_false, Errand.launch.injEq] at hmem
    subst hmem
    obtain ⟨n, t, hn', hname, ht⟩ := hc.found checked going (first ▸ List.mem_cons_self)
    cases hn.symm.trans hn'
    exact hc.carriedOutBy_launchOf hn ht _
  | stopped | timedOut | succeeded => simp at hmem
  | ended => simp [Coordinator.finish] at hmem
  | failed => simp at hmem
  | canceled | elsewhere => exact hl l hmem

end

/-- Throughout its life a run is on the types it was entered with, and launches what they carry out. -/
theorem Lives.carries {types : Registry} {config : Config} {record : Execution} (h₀ : Enters r p id e₀)
    (h : Lives id e₀ past e) (hr : e.run? id = some run) (checked : r.definition.Checked types)
    (hrun : e₀.run? id = some { coordinator := .ofPlan r.definition p types config record }) :
    run.coordinator.types = types ∧ Carries r types id run.coordinator := by
  induction h generalizing run with
  | start =>
    cases hrun.symm.trans hr
    exact ⟨rfl, nofun⟩
  | next hlife m ih =>
    obtain ⟨before, hbefore, hturn, -, -⟩ := m.turn hr
    obtain ⟨rfl, hcarries⟩ := ih hbefore
    have hruns := hlife.runs h₀ hbefore
    have ha := hruns.sound.advance hturn
    exact ⟨ha.types_eq, hruns.carries_advance checked hcarries ha⟩

/-- A run that was entered is well posed throughout its life, under types for which its
definition could be prepared. -/
theorem Enters.wellPosed (h₀ : Enters r p id e₀) :
    ∃ types, prepare r.definition types = .ok p ∧ ∀ past e run, Lives id e₀ past e → e.run? id = some run →
      WellPosed r types id run.coordinator := by
  obtain ⟨types, config, record, hprepare, -, -, hrun, -⟩ := h₀.opened
  have checked := (prepare_eq_ok.mp hprepare).1
  refine ⟨types, hprepare, fun past e run h hr => ?_⟩
  have hruns := h.runs h₀ hr
  obtain ⟨rfl, hcarries⟩ := h.carries h₀ hr checked hrun
  refine ⟨hruns.definition, rfl, fun hgo x hx now => ?_, hcarries⟩
  obtain ⟨n, t, hn, hname, ht⟩ := hruns.found checked hgo hx
  let inputs := run.coordinator.bag.inputs run.coordinator.definition x run.coordinator.execution.triggerData
  refine ⟨run.coordinator.launchOf n inputs, hname, hruns.carriedOutBy_launchOf hn ht inputs, ?_, ?_⟩
  · rw [Coordinator.startNode_eq hn]
  · rw [Coordinator.startNode_eq hn, hruns.id_eq]

/-- The run-time lookups of a definition that was prepared never fail, and neither does planning
one that was checked, but for a circle: the connections into a node join ports that nodes declare
and have ids of their own, and every run there is starts and launches nodes that are found, by
types that are found. -/
theorem validatedRuns :
    (∀ d types p, prepare d types = .ok p → ∀ x, (∀ c ∈ d.incoming x, d.Joins types c) ∧
      ((d.incoming x).map (·.id)).Nodup) ∧
    (∀ r p id e₀, Enters r p id e₀ → ∃ types, prepare r.definition types = .ok p ∧
      ∀ past e run, Lives id e₀ past e → e.run? id = some run → WellPosed r types id run.coordinator) ∧
    ∀ d types, (d.check types).errors = [] → ∀ f, Plan.ofDefinition d = .error f → ∃ nodes, f = .cycle nodes := by
  refine ⟨fun d types p hp x => ?_, fun r p id e₀ h₀ => h₀.wellPosed, fun d types h f hf => ?_⟩
  · have hchecked := (prepare_eq_ok.mp hp).1
    exact ⟨fun c hc => hchecked.joins c (List.mem_filter.mp hc).1, hchecked.nodup_incoming x⟩
  · exact (Definition.errors_check_eq_nil.mp h).isCycle_of_error hf

/-- The two nodes that the first feeds feed each other. -/
def Fork.round : Definition :=
  { Fork.definition with
    connections := Fork.definition.connections ++
      [{ id := "3", source := "b", target := "c" }, { id := "4", source := "c", target := "b" }] }

/-- The run of three nodes, when its first node has been launched; with a circle there is no run of
them, though nothing is wrong with them otherwise. -/
theorem validatedRuns_fork :
    (∀ c ∈ Fork.definition.incoming "b", Fork.definition.Joins Fork.types c) ∧
      (∃ types run, (Fork.opened {}).run? "run" = some run ∧ run.coordinator.inFlight = ["a"] ∧
        WellPosed Fork.request types "run" run.coordinator) ∧
      (Fork.round.check Fork.types).errors = [] ∧
        ∃ f, Plan.ofDefinition Fork.round = .error f ∧ ∃ nodes, f = .cycle nodes := by
  have hjoins := (validatedRuns.1 Fork.definition Fork.types Fork.plan rfl "b").1
  obtain ⟨types, -, hposed⟩ := validatedRuns.2.1 _ _ _ _ (Fork.enters {})
  have hchecked : (Fork.round.check Fork.types).errors = [] := rfl
  exact ⟨hjoins, ⟨types, _, rfl, rfl, hposed _ _ _ (Fork.lives_opened {}) rfl⟩, hchecked, _, rfl,
    validatedRuns.2.2 _ _ hchecked _ rfl⟩

end Engine
end Workflows
