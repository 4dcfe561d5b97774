/-
  Workflows.Proofs.Run.Schedule — a run that nobody stops comes to the same for every schedule.

  Let its nodes come to what a function of the node, the variables and the inputs says
  (`Follows`). Whatever order they end in, and however many run at once, the results and the bag
  at the end are then what each node makes of the nodes that feed it (`Lives.solves`), and so
  those of evaluating the plan in its order (`scheduleIndependent`).
-/

import Workflows.Proofs.Run.Blame
import Workflows.Proofs.Run.Ending
import Workflows.Proofs.Run.Recorded
import Workflows.Proofs.Run.Sequential

namespace Workflows

/-- The status of a run whose nodes came to this. -/
def Ledger.status (l : Ledger) : RunStatus := if l.results.any (·.2.status = .error) then .error else .success

namespace Execution

variable {e e' : Execution}

end Execution

namespace Coordinator

variable {c c' : Coordinator} {canceled : Bool} {x : Happening} {results : Keyed NodeResult}

/-- A run that nobody asks to cancel and whose time is not up is not told to stop. -/
theorem Advance.undisturbed (ha : c.Advance canceled x c') (hcancel : x ≠ .cancel) (htime : x ≠ .timeUp)
    (h : c.stopping = false ∧ canceled = false ∧ .cancel ∉ c.errands) :
    c'.stopping = false ∧ (canceled || x.asksToCancel) = false ∧ .cancel ∉ c'.errands := by
  obtain ⟨hgo, rfl, hno⟩ := h
  cases ha with
  | @errand e rest now he hskip =>
    have hne : e ≠ .cancel := by intro heq; subst heq; exact hno (he ▸ List.mem_cons_self)
    refine ⟨hgo, ?_, fun hmem => hno (he ▸ List.mem_cons_of_mem _ hmem)⟩
    cases e with
    | cancel => exact absurd rfl hne
    | saveNode id =>
      simp only [perform]
      cases c.execution.node? id <;> rfl
    | save | emit | launch | skip | request | signalDone | leave => rfl
  | passed he => exact ⟨hgo, rfl, fun hmem => hno (he ▸ List.mem_cons_of_mem _ hmem)⟩
  | skipped now he =>
    refine ⟨hgo, rfl, fun hmem => hno (he ▸ List.mem_cons_of_mem _ ?_)⟩
    simpa using hmem
  | stopped now idle going asked => cases asked
  | started => exact ⟨hgo, rfl, by simp⟩
  | ended => exact ⟨hgo, rfl, by simp [finish]⟩
  | timedOut => exact absurd rfl htime
  | succeeded => exact ⟨hgo, rfl, by simp⟩
  | failed => exact ⟨hgo, rfl, by simp⟩
  | canceled => exact absurd rfl hcancel
  | elsewhere => exact ⟨hgo, rfl, hno⟩

/-! ## Results as they are shown -/

/-- What is shown of a node besides its payloads. -/
theorem Shows.map_node? {β : Type} (h : c.Shows results) {g : NodeResult → β}
    (hg : ∀ r, g r.clearPayload = g r) (x : String) :
    (c.execution.node? x).map g = (Keyed.get? results x).map g := by
  rw [Execution.node?, h.nodes]
  split
  · rw [Keyed.get?_mapValues, Option.map_map]
    exact congrArg (Option.map · _) (funext hg)
  · rfl

theorem Shows.nodeStatus? (h : c.Shows results) (x : String) :
    c.execution.nodeStatus? x = (Keyed.get? results x).map (·.status) := h.map_node? (fun _ => rfl) x

theorem Shows.sorted (h : c.Shows results) (hs : Keyed.Sorted c.execution.nodeResults) : Keyed.Sorted results := by
  rw [h.nodes] at hs
  split at hs
  · exact Keyed.sorted_of_mapValues hs
  · exact hs

/-- The results that are shown, without their times, and the bag. -/
def ledger (c : Coordinator) (results : Keyed NodeResult) : Ledger :=
  ⟨Keyed.mapValues NodeResult.timeless results, c.bag⟩

theorem Shows.timeless (h : c.Shows results) : Keyed.mapValues NodeResult.timeless c.execution.nodeResults =
    if c.closing = true ∧ c.policy c.execution.status = .none then
      Keyed.mapValues NodeResult.clearPayload (c.ledger results).results
    else (c.ledger results).results := by
  rw [h.nodes]
  split
  · simp only [ledger, Keyed.mapValues, List.map_map]
    rfl
  · rfl

namespace Sound

variable {y : String}

/-- The others have been skipped. -/
theorem skipped_of_not_fed (h : c.Sound) (hclosing : c.closing = true) (hgo : c.stopping = false)
    (hy : y ∈ c.plan.order)
    (hfed : ¬ c.execution.Fed c.definition y) : c.execution.nodeStatus? y = some .skipped := by
  obtain ⟨s, hs⟩ := Option.isSome_iff_exists.mp ((h.known y).mpr hy)
  cases s with
  | waiting => exact absurd hs (h.not_waiting_of_closing hclosing hgo y)
  | running => exact absurd hs (h.not_running_of_closing hclosing y)
  | success => exact absurd (h.fed y (.inr (.inl hs))) hfed
  | error => exact absurd (h.fed y (.inr (.inr hs))) hfed
  | skipped => exact hs

end Sound
end Coordinator

namespace Engine

variable {r : StartRequest} {p : Plan} {f : Behaviour} {id : String} {e₀ e : Engine} {past : List Moment}
  {run : ActiveRun}
  {results : Keyed NodeResult}

/-- Every node that ended came to what `f` makes of it, the variables and the inputs recorded
of it. -/
def Follows (f : Behaviour) (id : String) (past : List Moment) : Prop :=
  ∀ e x outcome, ⟨e, .finished x outcome⟩ ∈ past → ∀ run node result inputs,
    e.run? id = some run → run.coordinator.definition.node? x = some node →
      run.coordinator.execution.node? x = some result →
      result.input = .object inputs → outcome = f node run.coordinator.definition.vars inputs

/-- Nobody asked the run to cancel, and its time was not up. -/
def Undisturbed (past : List Moment) : Prop := ∀ m ∈ past, m.happening ≠ .cancel ∧ m.happening ≠ .timeUp

/-- What `f` makes of a node, on the inputs recorded of it. -/
def answer (f : Behaviour) (id : String) (e : Engine) (x : String) : Outcome :=
  let made := do
    let run ← e.run? id
    let node ← run.coordinator.definition.node? x
    let result ← run.coordinator.execution.node? x
    match result.input with
    | .object inputs => some (f node run.coordinator.definition.vars inputs)
    | _ => none
  made.getD (.ok [])

theorem Lives.undisturbed (h₀ : Enters r p id e₀) (h : Lives id e₀ past e) (hr : e.run? id = some run)
    (hquiet : Undisturbed past) : run.coordinator.stopping = false := by
  refine (h.induction (motive := fun past run => Undisturbed past →
    run.coordinator.stopping = false ∧ run.canceled = false ∧ .cancel ∉ run.coordinator.errands) h₀ hr
      (fun _ _ _ _ _ => ⟨rfl, rfl, List.not_mem_nil⟩) ?_ hquiet).1
  intro past e x run run' _ _ hgoing _ ha hcanceled _ hquiet
  obtain ⟨hcancel, htime⟩ := hquiet ⟨e, x⟩ (List.mem_append_right _ List.mem_cons_self)
  have := ha.undisturbed hcancel htime (hgoing fun m hm => hquiet m (List.mem_append_left _ hm))
  rwa [← hcanceled] at this

/-! ## What the nodes came to -/

/-- A node that has ended had been launched. -/
theorem mem_launches_of_mem_finishes (h₀ : Enters r p id e₀) (h : Lives id e₀ past e) {x : String}
    (hx : x ∈ finishes past) :
    x ∈ launches past := by
  obtain ⟨e₁, outcome, hmem⟩ := mem_finishes.mp hx
  obtain ⟨before, after, e₂, rfl, h₁, m⟩ := h.of_mem hmem
  cases m with
  | @finished run₁ _ _ hr₁ hw flying =>
    have hrunning := ((h₁.runs h₀ hr₁).sound.flying x).mp flying
    have hlaunched := ((h₁.tally h₀ hr₁).launched x).mpr (.inl hrunning)
    rw [(Coordinator.isWaiting_iff.mp hw).1.errands, List.filterMap_nil, List.append_nil] at hlaunched
    rw [launches, List.filterMap_append]
    exact List.mem_append_left _ hlaunched

/-- The launched nodes are those that have not been passed over. -/
theorem mem_launches_iff (h₀ : Enters r p id e₀) (h : Lives id e₀ past e) (hr : e.run? id = some run)
    (hclosing : run.coordinator.closing = true) (hgo : run.coordinator.stopping = false) (x : String) :
    x ∈ launches past ↔
      (run.coordinator.execution.nodeStatus? x).isSome ∧ run.coordinator.execution.nodeStatus? x ≠ some .skipped := by
  have hs := (h.runs h₀ hr).sound
  have htally := h.tally h₀ hr
  constructor
  · intro hx
    rcases (htally.launched x).mp (List.mem_append_left _ hx) with hx | hx | hx <;> rw [hx] <;> exact ⟨rfl, nofun⟩
  · intro hstarted
    obtain ⟨hsome, hne⟩ := hstarted
    obtain ⟨s, hstatus⟩ := Option.isSome_iff_exists.mp hsome
    refine mem_launches_of_mem_finishes h₀ h ((htally.finished x).mpr ?_)
    cases s with
    | waiting => exact absurd hstatus (hs.not_waiting_of_closing hclosing hgo x)
    | running => exact absurd hstatus (hs.not_running_of_closing hclosing x)
    | success => exact .inl hstatus
    | error => exact .inr hstatus
    | skipped => exact absurd hstatus hne

/-- A life in which the run does nothing but take steps and hear of nodes that end as `outcomes`
says. -/
structure Plain (outcomes : String → Outcome) (id : String) (e₀ : Engine) (past : List Moment) (e : Engine) : Prop where
  lives : Lives id e₀ past e
  happened : ∀ m ∈ past, m.Plain fun _ => outcomes

namespace Plain

variable {outcomes : String → Outcome}

theorem takeSteps (h : Plain outcomes id e₀ past e) (fuel : Nat) :
    Plain outcomes id e₀ (past ++ (Engine.takeSteps id fuel e).1) (Engine.takeSteps id fuel e).2 :=
  ⟨h.lives.takeSteps fuel, List.forall_mem_append.mpr ⟨h.happened, fun _ hm => .inl (mem_takeSteps hm)⟩⟩

theorem follows (h : Plain outcomes id e₀ past e) : Follows (fun node _ _ => outcomes node.id) id past := by
  intro e x outcome hmem run node result inputs _ hn _ _
  have hid : node.id = x := by simpa using List.find?_some hn
  rcases h.happened _ hmem with ⟨effect, heq⟩ | ⟨y, heq⟩
  · cases heq
  · obtain ⟨rfl, houtcome⟩ := Happening.finished.inj heq
    exact houtcome.trans (congrArg outcomes hid.symm)

end Plain

/-- One of the nodes of `Fork` that are fed fails. -/
def Fork.outcomes (x : String) : Outcome := if x = "b" then .error (.invalidInput "no") else .ok [("main", .null)]

end Engine
end Workflows
