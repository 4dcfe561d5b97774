/-
  Workflows.Proofs.Engine.Protocol — what is announced of every run, in which order and how often.

  The events of an accepted run are its start, then what its nodes come to, then its end: for each
  node what its result says and no more, each success before the nodes it feeds start, and the
  end with the status and the error of the final record (`FollowsProtocol`). A run that is still
  going has announced all of this but what it is about to, a run that is gone has announced all
  of it, and of a run that is refused its end is announced and nothing else (`Announces`). This
  is so at every point of every history (`announcedInOrder`).
-/

import Workflows.Proofs.Engine.Chronicle
import Workflows.Proofs.Run.WellFormed

namespace Workflows

/-- The run has been announced, or its refusal has. -/
def Prepared.AnnouncedIn (p : Prepared) (past : List Entry) : Prop :=
  ∃ t, .stride t ∈ past ∧ t.caller.call = .announce p

/-- The events tell a record, which is final or not, from the start of the run on. -/
structure FollowsProtocol (d : Definition) (record : Execution) (final : Bool) (events : List Event) : Prop where
  shape : ∃ body, (∀ event ∈ body, event.node?.isSome) ∧
    events = .runStarted record.id record.workflowId :: body ++ if final then [.ofEnded record] else []
  /-- Of each node there are the events its result calls for, and of no other. -/
  nodes : ∀ x, events.filter (·.node? = some x) = (record.node? x).elim [] (·.story record.id x)
  /-- The failures are those that carry a message. -/
  messages : ∀ x r, record.node? x = some r → (r.error.isSome ↔ r.status = .error)
  fed : ∀ before after x, events = before ++ .nodeStarted record.id x :: after →
    ∀ a, d.Feeds a x → .nodeFinished record.id a NodeStatus.success.text none ∈ before

/-- What has been announced of a run whose record has been made. -/
inductive Announces (past : List Entry) (s : Desk) (p : Prepared) : Prop
  | silent (unannounced : ¬ p.AnnouncedIn past) (events : s.engine.eventsOf p.execution.id = [])
  | refused {f : Failure} (planned : p.plan = .error f)
      (events : s.engine.eventsOf p.execution.id =
        [.runFinished p.execution.id RunStatus.error.text (some f.message)])
  /-- With what the run is about to announce, its events tell its record. -/
  | accepted {plan : Plan} {record : Execution} {final : Bool} {coming : List Event} (planned : p.plan = .ok plan)
      (known : ∀ x, (record.node? x).isSome ↔ x ∈ plan.order)
      (follows : FollowsProtocol p.definition record final (s.engine.eventsOf p.execution.id ++ coming))
      (alive : ∀ run, s.engine.run? p.execution.id = some run → record = run.coordinator.execution ∧
        final = run.coordinator.closing ∧ coming = run.coordinator.errands.filterMap Errand.event?)
      (ended : s.engine.run? p.execution.id = none → ¬ s.Bears p.execution.id → coming = [] ∧ final = true ∧
        record.isTerminal = true ∧ ∀ k, s.engine.store.kept? p.execution.id = some k → k.Of record)
      (blamed : final = true → record.status = .error → .turn p.execution.id .timeUp ∉ past →
        ∃ x err, record.error = some (Coordinator.failureText x err) ∧
          (s.engine.eventsOf p.execution.id ++ coming).find? Event.isFailure =
            some (.nodeFinished p.execution.id x NodeStatus.error.text (some err.message)))

/-- What tells the record of a coordinator does so from the start of the run on. -/
theorem Told.follows {told : List Event} {c : Coordinator} (h : Told told c)
    (messages : ∀ x r, c.execution.node? x = some r → (r.error.isSome ↔ r.status = .error)) :
    FollowsProtocol c.definition c.execution c.closing
      (.runStarted c.execution.id c.execution.workflowId :: told) where
  shape := by
    cases hclosing : c.closing with
    | true =>
      obtain ⟨body, rfl, hbody⟩ := h.ended hclosing
      exact ⟨body, hbody, rfl⟩
    | false => exact ⟨told, h.going hclosing, (List.append_nil _).symm⟩
  nodes := h.nodes
  messages := messages
  fed := fun before after x heq a ha => by
    cases before with
    | nil => cases heq
    | cons first before =>
      obtain ⟨-, heq⟩ := List.cons.inj heq
      exact List.mem_cons_of_mem _ (h.fed before after x heq a ha)

namespace Engine

section

variable {r : StartRequest} {p : Plan} {id : String} {e₀ e : Engine} {past : List Moment} {run : ActiveRun}

theorem emitted_of_not_own {moments : List Moment} (h : ∀ m ∈ moments, m.isOwn = false) : emitted moments = [] := by
  refine List.filterMap_eq_nil_iff.mpr fun m hm => ?_
  have hown := h m hm
  unfold Moment.event?
  split
  next heq => rw [Moment.isOwn, heq] at hown; cases hown
  next => rfl

/-- A run that is gone has left its final record, and has announced all it had decided to. -/
theorem Lives.left_behind (h₀ : Enters r p id e₀) (h : Lives id e₀ past e) (hgone : e.run? id = none) :
    ∃ life e₁ run, Lives id e₀ life e₁ ∧ e₁.run? id = some run ∧ run.coordinator.closing = true ∧ life ⊆ past ∧
      heard life run.coordinator = emitted past ∧
      ∀ k, e.store.kept? id = some k → k.Of run.coordinator.execution := by
  obtain ⟨life, e₁, run, after, hlife, hr, herrands, hclosing, rfl, hafter⟩ := h.left h₀ hgone
  obtain ⟨e₂, -, m, hlater⟩ := h.split
  refine ⟨life, e₁, run, hlife, hr, hclosing, List.subset_append_left _ _, ?_, fun k hk => ?_⟩
  · have hall : emitted (life ++ ⟨e₁, .step (some .leave)⟩ :: after) = emitted life ++ emitted after :=
      List.filterMap_append
    rw [heard, herrands, hall, emitted_of_not_own hafter]
    rfl
  · obtain ⟨k₁, hk₁, hmirrored⟩ := hlife.mirrored h₀ hr
    have hover := hmirrored.of_over (by rw [herrands]; simp [Errand.isVisible])
    have hquiet : ∀ m ∈ after, m.happening.writes = false := fun m hm => Happening.writes_of_not_own (hafter m hm)
    have hsame := (hlater.kept?_of_not_writes hquiet).trans (m.kept?_of_not_writes rfl)
    cases hk.symm.trans (hsame.trans hk₁)
    exact hover

/-- What tells the record of a run at a point of its life. -/
theorem Lives.follows (h₀ : Enters r p id e₀) (h : Lives id e₀ past e) (hr : e.run? id = some run)
    (hports : ∀ m ∈ past, ∀ node ports, m.happening = .finished node (.ok ports) → Keyed.Sorted ports) :
    FollowsProtocol r.definition run.coordinator.execution run.coordinator.closing
      (.runStarted id r.definition.key :: heard past run.coordinator) := by
  have hruns := h.runs h₀ hr
  have hworkflow : run.coordinator.execution.workflowId = r.definition.key :=
    congrArg Execution.Origin.workflowId hruns.origin
  have hmessages : ∀ x s, run.coordinator.execution.node? x = some s → (s.error.isSome ↔ s.status = .error) := by
    obtain ⟨whole, hwhole, hrecord⟩ := h.isSound h₀ hr hports
    rcases hrecord with heq | ⟨-, heq⟩ <;> rw [heq]
    · exact fun x s hs => (hwhole.results x s hs).error
    · intro x s hs
      rw [Execution.node?_clearPayloads] at hs
      obtain ⟨s', hs', rfl⟩ := Option.map_eq_some_iff.mp hs
      exact (hwhole.results x s' hs').error
  have hfollows := (h.told h₀ hr).follows hmessages
  rwa [hruns.definition, hruns.id_eq, hworkflow] at hfollows

end

end Engine

/-- To announce a run, or its refusal, is to add an event of it. -/
theorem StartCall.Strides.event_of_announce {p : Prepared} {next : StartCall} {e e' : Engine}
    (h : Strides (.announce p) e next e') : ∃ event ∈ e'.events, event.executionId = p.execution.id := by
  cases h with
  | announced => exact ⟨_, List.mem_append_right _ (List.mem_singleton.mpr rfl), rfl⟩
  | refused => exact ⟨_, List.mem_append_right _ (List.mem_singleton.mpr rfl), rfl⟩

section

variable {e₀ : Engine} {past : List Entry} {s : Desk} {p : Prepared}

/-- A run that has been announced has events. -/
theorem Engine.Hosts.eventsOf_ne_nil (h : Hosts e₀ past s) (hannounced : p.AnnouncedIn past) :
    s.engine.eventsOf p.execution.id ≠ [] := by
  obtain ⟨t, ht, hcall⟩ := hannounced
  obtain ⟨-, -, -, -, -, -, -, hstep, hevents⟩ := h.of_stride ht
  rw [hcall] at hstep
  obtain ⟨event, hevent, hid⟩ := (StartCall.strides_of_step? hstep).event_of_announce
  exact List.ne_nil_of_mem (List.mem_filter.mpr ⟨hevents.subset hevent, decide_eq_true hid⟩)

/-- Nothing more than its start has been announced of a run that is yet to be entered. -/
theorem FollowsProtocol.of_accepted {r : StartRequest} {plan : Plan}
    (h : Engine.Accepted r plan p.execution.id p.execution) :
    FollowsProtocol r.definition p.execution false [.runStarted p.execution.id p.execution.workflowId] := by
  have htold : Told [] (.ofPlan r.definition plan [] {} p.execution) := h.told
  refine htold.follows fun x result hx => ?_
  have hx : p.execution.node? x = some result := hx
  rw [h.nodes x] at hx
  split at hx
  · cases hx
    exact NodeResult.wellFormed_waiting.error
  · cases hx

namespace Announces

/-- What is announced of a run at a point of its life, or has been at the last. -/
theorem of_lives {r : StartRequest} {plan : Plan} {e₁ e₂ : Engine} {life : List Engine.Moment} {run : ActiveRun}
    {coming : List Event} (planned : p.plan = .ok plan) (request : r.definition = p.definition)
    (entered : Engine.Enters r plan p.execution.id e₁) (lives : Engine.Lives p.execution.id e₁ life e₂)
    (hr : e₂.run? p.execution.id = some run)
    (ports : ∀ m ∈ life, ∀ node ports, m.happening = .finished node (.ok ports) → Keyed.Sorted ports)
    (timed : ∀ m ∈ life, m.happening = .timeUp → .turn p.execution.id .timeUp ∈ past)
    (events : s.engine.eventsOf p.execution.id ++ coming =
      .runStarted p.execution.id r.definition.key :: Engine.heard life run.coordinator)
    (alive : ∀ run', s.engine.run? p.execution.id = some run' → run.coordinator.execution = run'.coordinator.execution ∧
      run.coordinator.closing = run'.coordinator.closing ∧ coming = run'.coordinator.errands.filterMap Errand.event?)
    (ended : s.engine.run? p.execution.id = none → ¬ s.Bears p.execution.id → coming = [] ∧
      run.coordinator.closing = true ∧ run.coordinator.execution.isTerminal = true ∧
        ∀ k, s.engine.store.kept? p.execution.id = some k → k.Of run.coordinator.execution) : Announces past s p := by
  have hruns := lives.runs entered hr
  refine .accepted planned (fun x => ?_) (events ▸ request ▸ lives.follows entered hr ports) alive ended
    fun hclosing herror hintime => ?_
  · rw [← hruns.plan, ← hruns.sound.known x, Execution.nodeStatus?, Option.isSome_map]
  · have hup : ∀ m ∈ life, m.happening ≠ .timeUp := fun m hm hup => hintime (timed m hm hup)
    obtain ⟨x, err, hfirst, hblamed⟩ := lives.blamed_on_first entered hr hclosing herror hup
    exact ⟨x, err, hblamed, events ▸ hfirst⟩

end Announces

/-- The events of every run of a history follow the protocol. -/
theorem Engine.announcedInOrder (h₀ : e₀.IsReady) (h : Hosts e₀ past s) (hp : p.MadeIn past) : Announces past s p := by
  have hchronicle := h.chronicle h₀
  have hmade := hchronicle.made p hp
  have hsilent : s.engine.eventsOf p.execution.id = [] → Announces past s p := fun hnone =>
    .silent (fun hannounced => h.eventsOf_ne_nil hannounced hnone) hnone
  cases hchronicle.stages p hp with
  | made _ _ _ _ _ silent => exact hsilent silent
  | dropped _ _ _ silent => exact hsilent silent
  | recorded _ _ _ _ _ _ silent => exact hsilent silent
  | refused planned _ _ _ _ told =>
    obtain ⟨hstatus, herror, -⟩ := hmade.refused planned
    refine .refused planned (told.trans ?_)
    rw [Event.ofEnded, hstatus, herror]
  | @announced _ c plan _ _ _ _ hc call _ gone _ announce _ told =>
    have planned := plan_of_announce announce
    obtain ⟨r, hr, haccepted⟩ := hmade.accepted planned
    have hfollows : FollowsProtocol p.definition p.execution false (s.engine.eventsOf p.execution.id ++ []) := by
      rw [List.append_nil, told, ← hr]
      exact .of_accepted haccepted
    refine .accepted planned (fun x => ?_) hfollows ?_ ?_ ?_
    · rw [haccepted.nodes x]
      split <;> simp [*]
    · exact fun run hrun => absurd (hrun.symm.trans gone) (Option.some_ne_none run)
    · exact fun _ hfree => absurd ⟨c, List.mem_of_getElem? hc, p, by rw [call]; rfl, rfl⟩ hfree
    · exact fun hfinal => absurd hfinal Bool.false_ne_true
  | @living r plan e₁ life store request origin planned entered lives kept free told timed ports =>
    have hworkflow : p.execution.workflowId = r.definition.key := congrArg Execution.Origin.workflowId origin
    rw [hworkflow] at told
    cases hrun : s.engine.run? p.execution.id with
    | some run =>
      refine .of_lives planned request entered lives hrun ports timed (by rw [told]; rfl) (fun run' hrun' => ?_)
        fun hgone => ?_
      · cases hrun.symm.trans hrun'
        exact ⟨rfl, rfl, rfl⟩
      · exact absurd (hrun.symm.trans hgone) (Option.some_ne_none run)
    | none =>
      obtain ⟨life', e₂, run, lives', hrun', hclosing, hsub, hheard, hof⟩ := lives.left_behind entered hrun
      have hevents : s.engine.eventsOf p.execution.id ++ [] =
          .runStarted p.execution.id r.definition.key :: heard life' run.coordinator := by
        rw [List.append_nil, told, hheard]
      refine .of_lives planned request entered lives' hrun' (fun m hm => ports m (hsub hm))
        (fun m hm => timed m (hsub hm)) hevents (fun run' halive => absurd (halive.symm.trans hrun) (Option.some_ne_none run'))
        fun _ _ => ⟨rfl, hclosing, (lives'.runs entered hrun').sound.isTerminal_of_closing hclosing, fun k hk => hof k ?_⟩
      have hsame := kept.resolve_left (hk ▸ Option.some_ne_none k)
      exact hsame.symm.trans hk

/-- The first node of `Fork` fails, the others are skipped, and the run ends in error. -/
theorem Engine.announcedInOrder_fork : ∃ past s p, (Fork.engine {}).host.IsReady ∧
    Hosts (Fork.engine {}).host past s ∧ p.MadeIn past ∧ s.engine.events =
      [.runStarted "run" "fork", .nodeStarted "run" "a", .nodeFinished "run" "a" "error" (some "no"),
        .nodeFinished "run" "b" "skipped" none, .nodeFinished "run" "c" "skipped" none,
        .runFinished "run" "error" (some "Node 'a' failed: no")] ∧ Announces past s p := by
  have hready : (Fork.engine {}).host.IsReady := isReady_host rfl rfl rfl rfl rfl
  have hended := (hosts_started (Fork.engine {}).host Fork.definition (.string "go") none).runNode "run" "a"
    (.error ⟨.failed, "no"⟩) 4 30 (by decide +kernel) nofun
  have hmade : ∀ more, Prepared.MadeIn _ (((Fork.engine {}).host.started Fork.definition (.string "go") none).1 ++ more) :=
    fun more => ⟨⟨_, _, .create _, _, _⟩, List.mem_append_left _ (List.mem_of_getElem? (i := 1) rfl), rfl⟩
  exact ⟨_, _, _, hready, hended, hmade _, by decide +kernel, announcedInOrder hready hended (hmade _)⟩

end
end Workflows
