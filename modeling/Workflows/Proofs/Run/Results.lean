/-
  Workflows.Proofs.Run.Results — the results a run writes, and the data bag beside them.

  A result is one of four kinds: a waiting node's holds nothing, a skipped node's only when it
  was skipped, a running node's the inputs the bag made for it, and an ended node's those inputs
  and what the run was told of its end (`Accounted`). The bag holds what the nodes in success put
  out, each under its id. The final record shows the same results, cleared of their payloads
  when the definition asks for that (`Shows`).
-/

import Workflows.Proofs.Run.Tally

namespace Workflows

namespace NodeResult

def skippedAt (id : String) (t : Instant) : NodeResult := { waiting id with status := .skipped, stoppedAt := some t }

def runningOn (id : String) (inputs : PortValues) (t : Instant) : NodeResult :=
  { waiting id with status := .running, input := .object inputs, startedAt := some t }

/-- The result of a node that has ended with an outcome. -/
def endedWith (id : String) (inputs : PortValues) (outcome : Outcome) (t t' : Instant) : NodeResult :=
  match outcome with
  | .ok ports => { runningOn id inputs t with status := .success, output := .object ports, stoppedAt := some t' }
  | .error e => { runningOn id inputs t with status := .error, error := some e, stoppedAt := some t' }

end NodeResult

/-! ## Inputs -/

namespace DataBag

variable {bag bag' : DataBag} {d : Definition} {x : String} {trigger : Json}

theorem mem_insertById {c c' : Connection} {cs : List Connection} : c' ∈ insertById c cs ↔ c' = c ∨ c' ∈ cs := by
  induction cs with
  | nil => simp [insertById]
  | cons d rest ih =>
    unfold insertById
    split
    · rw [List.mem_cons]
    · rw [List.mem_cons, ih, List.mem_cons, or_left_comm]

theorem mem_byId {c : Connection} {cs : List Connection} : c ∈ byId cs ↔ c ∈ cs := by
  have grow : ∀ (acc : List Connection), c ∈ cs.foldl (fun acc c => insertById c acc) acc ↔ c ∈ acc ∨ c ∈ cs := by
    induction cs with
    | nil => intro acc; simp
    | cons d rest ih =>
      intro acc
      rw [List.foldl_cons, ih, mem_insertById, List.mem_cons, or_assoc, or_left_comm]
  exact (grow []).trans (or_iff_right List.not_mem_nil)

theorem joined_congr {cs : List Connection} (h : ∀ c ∈ cs, bag'.brought c = bag.brought c) :
    bag'.joined cs = bag.joined cs := by
  have hmap : cs.map bag'.brought = cs.map bag.brought := List.map_congr_left h
  unfold joined
  split
  next c => exact h c List.mem_cons_self
  next => rw [hmap]

/-- The inputs of a node come from the nodes that feed it. -/
theorem inputs_congr (h : ∀ a, d.Feeds a x → Keyed.get? bag' a = Keyed.get? bag a) :
    bag'.inputs d x trigger = bag.inputs d x trigger := by
  have hbrought : ∀ c ∈ byId (d.incoming x), bag'.brought c = bag.brought c := by
    intro c hc
    obtain ⟨hc, htarget⟩ := List.mem_filter.mp (mem_byId.mp hc)
    rw [brought, brought, value?, value?, h c.source ⟨c, hc, rfl, by simpa using htarget⟩]
  unfold inputs
  split
  · rfl
  next feeds hfeeds =>
    refine List.map_congr_left fun port _ => ?_
    rw [joined_congr fun c hc => hbrought c (List.mem_filter.mp hc).1]

end DataBag

/-- The data of a run of the definition `d` after all that has happened. -/
structure Accounted (d : Definition) (trigger : Json) (past : List Engine.Moment) (results : Keyed NodeResult)
    (bag : DataBag) : Prop where
  waiting : ∀ x r, Keyed.get? results x = some r → r.status = .waiting → r = .waiting x
  skipped : ∀ x r, Keyed.get? results x = some r → r.status = .skipped → ∃ t, r = .skippedAt x t
  running : ∀ x r, Keyed.get? results x = some r → r.status = .running →
    ∃ t, r = .runningOn x (bag.inputs d x trigger) t
  /-- What the run was told of the end of a node is what is recorded of it. -/
  finished : ∀ e x outcome, ⟨e, .finished x outcome⟩ ∈ past →
    (∃ t t', Keyed.get? results x = some (.endedWith x (bag.inputs d x trigger) outcome t t')) ∧
      Keyed.get? bag x = outcome.toOption.map Keyed.ofList
  bagged : ∀ x, (Keyed.get? bag x).isSome → ∃ r, Keyed.get? results x = some r ∧ r.status = .success
  sorted : Keyed.Sorted bag

namespace Accounted

variable {d : Definition} {trigger : Json} {past : List Engine.Moment} {m : Engine.Moment} {results : Keyed NodeResult}
  {bag bag' : DataBag} {id : String} {r new : NodeResult} {outcome : Outcome} {t : Instant}

theorem mem_of_mem_append {e : Engine} {y : Happening} (hm : m.happening ≠ y) (h : ⟨e, y⟩ ∈ past ++ [m]) :
    ⟨e, y⟩ ∈ past := by
  rcases List.mem_append.mp h with h | h
  · exact h
  · exact absurd (List.mem_singleton.mp h ▸ rfl) hm

/-- The result of a node that has been told to have ended is one in success or in error. -/
theorem ended_of_finished (h : Accounted d trigger past results bag) {e : Engine}
    (hmem : ⟨e, .finished id outcome⟩ ∈ past) (hr : Keyed.get? results id = some r) :
    r.status = .success ∨ r.status = .error := by
  obtain ⟨⟨t, t', hr'⟩, -⟩ := h.finished e id outcome hmem
  cases hr.symm.trans hr'
  cases outcome with
  | ok ports => exact .inl rfl
  | error e => exact .inr rfl

/-- A node that has not started has no payloads to clear and no time of a start. -/
theorem of_not_started (h : Accounted d trigger past results bag) (hr : Keyed.get? results id = some r)
    (hs : r.status = .waiting ∨ r.status = .skipped) : r.clearPayload = r ∧ r.startedAt = none := by
  rcases hs with hs | hs
  · obtain rfl := h.waiting id r hr hs
    exact ⟨rfl, rfl⟩
  · obtain ⟨t, rfl⟩ := h.skipped id r hr hs
    exact ⟨rfl, rfl⟩

/-- The bag holds nothing of a node that is not in success. -/
theorem get?_bag_eq_none (h : Accounted d trigger past results bag) (hr : Keyed.get? results id = some r)
    (hs : r.status ≠ .success) : Keyed.get? bag id = none := by
  cases hb : Keyed.get? bag id with
  | none => rfl
  | some ports =>
    obtain ⟨r', hr', hs'⟩ := h.bagged id (by rw [hb]; rfl)
    cases hr.symm.trans hr'
    exact absurd hs' hs

theorem quiet (h : Accounted d trigger past results bag) (hm : m.finished? = none) :
    Accounted d trigger (past ++ [m]) results bag :=
  { h with
    finished := fun e x outcome hmem => h.finished e x outcome <|
      mem_of_mem_append (fun hy => by rw [Engine.Moment.finished?, hy] at hm; cases hm) hmem }

/-- The result of a node that had not ended changes, and with it what the bag holds of it. -/
theorem insert (h : Accounted d trigger past results bag) (hold : Keyed.get? results id = some r)
    (hopen : r.status ≠ .success ∧ r.status ≠ .error)
    (hother : ∀ x, x ≠ id → Keyed.get? bag' x = Keyed.get? bag x)
    (hinputs : ∀ x r, Keyed.get? (Keyed.insert results id new) x = some r → r.status ≠ .waiting →
      r.status ≠ .skipped → bag'.inputs d x trigger = bag.inputs d x trigger)
    (hwaiting : new.status ≠ .waiting) (hskipped : new.status = .skipped → ∃ t, new = .skippedAt id t)
    (hrunning : new.status = .running → ∃ t, new = .runningOn id (bag.inputs d id trigger) t)
    (hfinished : ∀ e x o, m = ⟨e, .finished x o⟩ → x = id ∧
      (∃ t t', new = .endedWith id (bag.inputs d id trigger) o t t') ∧
      Keyed.get? bag' id = o.toOption.map Keyed.ofList)
    (hbagged : (Keyed.get? bag' id).isSome → new.status = .success) (hsorted : Keyed.Sorted bag') :
    Accounted d trigger (past ++ [m]) (Keyed.insert results id new) bag' := by
  have hthis : Keyed.get? (Keyed.insert results id new) id = some new := Keyed.get?_insert_self _ _ _
  have hsame : ∀ x, x ≠ id → Keyed.get? (Keyed.insert results id new) x = Keyed.get? results x :=
    fun x hx => Keyed.get?_insert_ne results new hx
  have hwhich : ∀ {x r'}, Keyed.get? (Keyed.insert results id new) x = some r' →
      x = id ∧ r' = new ∨ x ≠ id ∧ Keyed.get? results x = some r' := by
    intro x r' hr'
    by_cases hx : x = id
    · subst hx
      exact .inl ⟨rfl, Option.some.inj (hr'.symm.trans hthis)⟩
    · exact .inr ⟨hx, (hsame x hx).symm.trans hr'⟩
  refine
    { waiting := fun x r' hr' hs => ?waiting
      skipped := fun x r' hr' hs => ?skipped
      running := fun x r' hr' hs => ?running
      finished := fun e x o hmem => ?finished
      bagged := fun x hx => ?bagged
      sorted := hsorted }
  case waiting =>
    rcases hwhich hr' with ⟨rfl, rfl⟩ | ⟨-, hr'⟩
    · exact absurd hs hwaiting
    · exact h.waiting x r' hr' hs
  case skipped =>
    rcases hwhich hr' with ⟨rfl, rfl⟩ | ⟨-, hr'⟩
    · exact hskipped hs
    · exact h.skipped x r' hr' hs
  case running =>
    rw [hinputs x r' hr' (by rw [hs]; nofun) (by rw [hs]; nofun)]
    rcases hwhich hr' with ⟨rfl, rfl⟩ | ⟨-, hr'⟩
    · exact hrunning hs
    · exact h.running x r' hr' hs
  case finished =>
    have hbegun : ∀ {s : NodeStatus}, s = .success ∨ s = .error → s ≠ .waiting ∧ s ≠ .skipped := by
      intro s hs
      rcases hs with rfl | rfl <;> exact ⟨nofun, nofun⟩
    rcases List.mem_append.mp hmem with hmem | hmem
    · have hx : x ≠ id := by
        intro heq
        subst heq
        exact (h.ended_of_finished hmem hold).elim hopen.1 hopen.2
      obtain ⟨⟨t, t', hr⟩, hb⟩ := h.finished e x o hmem
      have hs := hbegun (h.ended_of_finished hmem hr)
      have hr' := (hsame x hx).trans hr
      rw [hinputs x _ hr' hs.1 hs.2]
      exact ⟨⟨t, t', hr'⟩, (hother x hx).trans hb⟩
    · obtain ⟨rfl, ⟨t, t', hnew⟩, hb⟩ := hfinished e x o (List.mem_singleton.mp hmem).symm
      have hs : new.status = .success ∨ new.status = .error := by
        rw [hnew]
        cases o with
        | ok ports => exact .inl rfl
        | error err => exact .inr rfl
      rw [hinputs x _ hthis (hbegun hs).1 (hbegun hs).2]
      exact ⟨⟨t, t', hnew ▸ hthis⟩, hb⟩
  case bagged =>
    by_cases hxid : x = id
    · subst hxid
      exact ⟨new, hthis, hbagged hx⟩
    · rw [hother x hxid] at hx
      rw [hsame x hxid]
      exact h.bagged x hx

/-- A waiting node is skipped or started. -/
theorem change (h : Accounted d trigger past results bag) (hm : m.finished? = none)
    (hold : Keyed.get? results id = some r) (hw : r.status = .waiting)
    (hnew : (∃ t, new = .skippedAt id t) ∨ ∃ t, new = .runningOn id (bag.inputs d id trigger) t) :
    Accounted d trigger (past ++ [m]) (Keyed.insert results id new) bag := by
  refine h.insert hold (by rw [hw]; exact ⟨nofun, nofun⟩) (fun _ _ => rfl) (fun _ _ _ _ _ => rfl) ?_ ?_ ?_ ?_ ?_
    h.sorted
  · rcases hnew with ⟨t, rfl⟩ | ⟨t, rfl⟩ <;> exact nofun
  · intro hs
    rcases hnew with hnew | ⟨t, rfl⟩
    · exact hnew
    · cases hs
  · intro hs
    rcases hnew with ⟨t, rfl⟩ | hnew
    · cases hs
    · exact hnew
  · intro e x o heq
    subst heq
    cases hm
  · intro hb
    rw [h.get?_bag_eq_none hold (by rw [hw]; nofun)] at hb
    cases hb

/-- A running node has ended, and what it put out is in the bag. -/
theorem ends (h : Accounted d trigger past results bag) {e : Engine} (outcome : Outcome) (t' : Instant)
    (hold : Keyed.get? results id = some (.runningOn id (bag.inputs d id trigger) t))
    (hfeeds : ∀ x r, Keyed.get? results x = some r → r.status ≠ .waiting → r.status ≠ .skipped → ¬ d.Feeds id x)
    (hbag : ∀ x, Keyed.get? bag' x = if x = id then outcome.toOption.map Keyed.ofList else Keyed.get? bag x)
    (hsorted : Keyed.Sorted bag') :
    Accounted d trigger (past ++ [⟨e, .finished id outcome⟩])
      (Keyed.insert results id (.endedWith id (bag.inputs d id trigger) outcome t t')) bag' := by
  have hthis : Keyed.get? bag' id = outcome.toOption.map Keyed.ofList := (hbag id).trans (if_pos rfl)
  -- what the node puts out goes to nodes that have not started
  have hunfed : ∀ x r, Keyed.get? (Keyed.insert results id (.endedWith id (bag.inputs d id trigger) outcome t t')) x =
      some r → r.status ≠ .waiting → r.status ≠ .skipped → ¬ d.Feeds id x := by
    intro x r hr h₁ h₂
    by_cases hx : x = id
    · subst hx
      exact hfeeds x _ hold nofun nofun
    · exact hfeeds x r (Keyed.get?_insert_ne results _ hx ▸ hr) h₁ h₂
  refine h.insert hold ⟨nofun, nofun⟩ (fun x hx => (hbag x).trans (if_neg hx)) (fun x r hr h₁ h₂ => ?_) ?_ ?_ ?_ ?_ ?_
    hsorted
  · refine DataBag.inputs_congr fun a ha => ?_
    have hne : a ≠ id := by
      intro heq
      subst heq
      exact hunfed x r hr h₁ h₂ ha
    rw [hbag a, if_neg hne]
  · cases outcome <;> exact nofun
  · cases outcome <;> exact nofun
  · cases outcome <;> exact nofun
  · intro e' x o heq
    cases heq
    exact ⟨rfl, ⟨t, t', rfl⟩, hthis⟩
  · intro hb
    rw [hthis] at hb
    cases outcome with
    | ok ports => rfl
    | error err => cases hb

end Accounted

namespace Coordinator

variable {c c' : Coordinator} {canceled : Bool} {x : Happening} {results : Keyed NodeResult}

/-- The record shows these results and the bag, in the final record without the payloads if the
definition asks for that. -/
structure Shows (c : Coordinator) (results : Keyed NodeResult) : Prop where
  nodes : c.execution.nodeResults =
    if c.closing = true ∧ c.policy c.execution.status = .none then
      Keyed.mapValues NodeResult.clearPayload results
    else results
  data : c.execution.data =
    if c.closing = true ∧ c.policy c.execution.status = .none then .object [] else c.bag.toJson

theorem shows_of_open (h : c.closing = false) (hdata : c.execution.data = c.bag.toJson) :
    c.Shows c.execution.nodeResults := by
  have hopen : ¬ (c.closing = true ∧ c.policy c.execution.status = .none) := by rw [h]; nofun
  exact ⟨(if_neg hopen).symm, hdata.trans (if_neg hopen).symm⟩

theorem Shows.eq_of_open (hshows : c.Shows results) (h : c.closing = false) :
    c.execution.nodeResults = results ∧ c.execution.data = c.bag.toJson := by
  have hopen : ¬ (c.closing = true ∧ c.policy c.execution.status = .none) := by rw [h]; nofun
  exact ⟨hshows.nodes.trans (if_neg hopen), hshows.data.trans (if_neg hopen)⟩

theorem shows_finish (now : Instant) : (c.finish now).Shows c.execution.nodeResults := by
  refine ⟨(nodeResults_finalRecord c now).trans ?_, (data_finalRecord c now).trans ?_⟩
  · simp only [finish, true_and]
    rfl
  · simp only [finish, true_and]
    rfl

/-- A running node feeds none that has started. -/
theorem Sound.not_feeds_of_running (hs : c.Sound) {id y : String} {r r' : NodeResult}
    (hr : c.execution.node? id = some r)
    (hrun : r.status = .running) (hr' : c.execution.node? y = some r') (hw : r'.status ≠ .waiting)
    (hskipped : r'.status ≠ .skipped) : ¬ c.definition.Feeds id y := by
  intro hf
  have hstatus : c.execution.nodeStatus? y = some r'.status := Execution.nodeStatus?_eq_some.mpr ⟨r', hr', rfl⟩
  have hstarted : c.execution.HasStarted y := by
    cases hs' : r'.status with
    | waiting => exact absurd hs' hw
    | skipped => exact absurd hs' hskipped
    | running => exact .inl (hs' ▸ hstatus)
    | success => exact .inr (.inl (hs' ▸ hstatus))
    | error => exact .inr (.inr (hs' ▸ hstatus))
  have hsuccess := hs.fed y hstarted id hf
  have hrunning : c.execution.nodeStatus? id = some .running := Execution.nodeStatus?_eq_some.mpr ⟨r, hr, hrun⟩
  exact absurd (hrunning.symm.trans hsuccess) nofun

/-- Everything that can happen is accounted for. -/
theorem accounted_advance {past : List Engine.Moment} {e : Engine} (hs : c.Sound) (hshows : c.Shows results)
    (h : Accounted c.definition c.execution.triggerData past results c.bag) (ha : c.Advance canceled x c') :
    ∃ results', c'.Shows results' ∧
      Accounted c'.definition c'.execution.triggerData (past ++ [⟨e, x⟩]) results' c'.bag := by
  have hopen := hshows.eq_of_open
  cases ha with
  | errand now he hskip => exact ⟨results, ⟨hshows.nodes, hshows.data⟩, h.quiet rfl⟩
  | passed he hskipped => exact ⟨results, ⟨hshows.nodes, hshows.data⟩, h.quiet rfl⟩
  | @skipped id rest r now he hr hw =>
    have hclosing : c.closing = false := (hs.toSkip id (he ▸ List.mem_cons_self)).2.2
    obtain ⟨rfl, hdata⟩ := hopen hclosing
    obtain rfl := h.waiting id r hr hw
    exact ⟨_, shows_of_open hclosing hdata, h.change rfl hr hw (.inl ⟨now, rfl⟩)⟩
  | stopped now idle going asked =>
    obtain ⟨rfl, hdata⟩ := hopen idle.closing
    exact ⟨_, shows_of_open idle.closing hdata, h.quiet rfl⟩
  | @started id rest node r now idle going unasked slot first hn hr hw fed =>
    obtain ⟨rfl, hdata⟩ := hopen idle.closing
    obtain rfl := h.waiting id r hr hw
    exact ⟨_, shows_of_open idle.closing hdata, h.change rfl hr hw (.inr ⟨now, rfl⟩)⟩
  | ended now idle landed hend =>
    obtain ⟨rfl, -⟩ := hopen idle.closing
    refine ⟨c.execution.nodeResults, shows_finish now, ?_⟩
    rw [(sameRun_finish c now).definition, (sameRun_finish c now).trigger]
    exact h.quiet rfl
  | timedOut now idle flying going unasked limit =>
    obtain ⟨rfl, hdata⟩ := hopen idle.closing
    exact ⟨_, shows_of_open idle.closing hdata, h.quiet rfl⟩
  | @succeeded id ports r pending ready now idle hr hrun =>
    obtain ⟨rfl, -⟩ := hopen idle.closing
    obtain ⟨t, rfl⟩ := h.running id r hr hrun
    have hnone := h.get?_bag_eq_none hr (by rw [hrun]; nofun)
    refine ⟨_, shows_of_open idle.closing rfl, h.ends (.ok ports) now hr
      (fun y r' hr' => hs.not_feeds_of_running hr rfl hr') (fun y => ?_) ?_⟩
    · rw [DataBag.record, hnone, Keyed.get?_insert]
      rfl
    · exact Keyed.sorted_insert h.sorted _ _
  | @failed id err r now idle hr hrun =>
    obtain ⟨rfl, hdata⟩ := hopen idle.closing
    obtain ⟨t, rfl⟩ := h.running id r hr hrun
    have hnone := h.get?_bag_eq_none hr (by rw [hrun]; nofun)
    refine ⟨_, shows_of_open idle.closing hdata, h.ends (.error err) now hr
      (fun y r' hr' => hs.not_feeds_of_running hr rfl hr') (fun y => ?_) h.sorted⟩
    by_cases hy : y = id
    · rw [if_pos hy, hy, hnone]
      rfl
    · rw [if_neg hy]
  | canceled | elsewhere => exact ⟨results, hshows, h.quiet rfl⟩

end Coordinator

namespace Engine

variable {r : StartRequest} {p : Plan} {id : String} {e₀ e : Engine} {past : List Moment} {run : ActiveRun}

theorem Accepted.accounted {record : Execution} (h : Accepted r p id record) :
    Accounted r.definition record.triggerData [] record.nodeResults [] := by
  have hw : ∀ x s, Keyed.get? record.nodeResults x = some s → s = .waiting x := by
    intro x s hs
    have hx := (h.nodes x).symm.trans hs
    split at hx
    · exact (Option.some.inj hx).symm
    · cases hx
  exact
    { waiting := fun x s hs _ => hw x s hs
      skipped := fun x s hs hst => by rw [hw x s hs] at hst; cases hst
      running := fun x s hs hst => by rw [hw x s hs] at hst; cases hst
      finished := fun _ _ _ hmem => absurd hmem List.not_mem_nil
      bagged := nofun
      sorted := Keyed.sorted_nil }

/-- Throughout its life the record of a run shows results that are accounted for. -/
theorem Lives.accounted (h₀ : Enters r p id e₀) (h : Lives id e₀ past e) (hr : e.run? id = some run) :
    ∃ results, run.coordinator.Shows results ∧ Accounted r.definition r.trigger past results run.coordinator.bag := by
  have haccounted := h.induction (motive := fun past run => ∃ results, run.coordinator.Shows results ∧
      Accounted run.coordinator.definition run.coordinator.execution.triggerData past results run.coordinator.bag) h₀ hr
    (fun types config record hrecord =>
      ⟨record.nodeResults, Coordinator.shows_of_open rfl hrecord.data, hrecord.accounted⟩)
    fun _ _ _ _ _ _ _ ⟨_, hshows, haccounted⟩ hs ha _ _ => Coordinator.accounted_advance hs hshows haccounted ha
  have hruns := h.runs h₀ hr
  rwa [hruns.definition, hruns.trigger] at haccounted

end Engine
end Workflows
