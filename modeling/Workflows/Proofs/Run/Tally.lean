/-
  Workflows.Proofs.Run.Tally — the nodes that have been launched and those that have ended.

  Both are read off what has happened to a run. At every point the nodes launched, with the one
  that is about to be, are those that have started, and the nodes that have ended are those in
  success or in error; no node is in either list twice.
-/

import Workflows.Proofs.Run.History

namespace Workflows

/-- The node that carrying out this errand launches. -/
def Errand.launched? : Errand → Option String
  | .launch l => some l.nodeId
  | _ => none

def Effect.launched? : Effect → Option String
  | .launch l => some l.nodeId
  | _ => none

/-- The node has ended by itself. -/
def Execution.HasEnded (e : Execution) (id : String) : Prop :=
  e.nodeStatus? id = some .success ∨ e.nodeStatus? id = some .error

theorem Execution.hasEnded_congr {e e' : Execution} {x : String} (h : e'.nodeStatus? x = e.nodeStatus? x) :
    e'.HasEnded x ↔ e.HasEnded x := by
  unfold HasEnded
  rw [h]

namespace Engine

def Moment.launched? (m : Moment) : Option String :=
  match m.happening with
  | .step (some f) => f.launched?
  | _ => none

def Moment.finished? (m : Moment) : Option String :=
  match m.happening with
  | .finished id _ => some id
  | _ => none

/-- The nodes launched, in order. -/
def launches (past : List Moment) : List String := past.filterMap Moment.launched?

/-- The nodes that have ended, in the order they did. -/
def finishes (past : List Moment) : List String := past.filterMap Moment.finished?

variable {past : List Moment} {m : Moment} {c : Coordinator} {id : String}

theorem launches_append : launches (past ++ [m]) = launches past ++ m.launched?.toList := by
  simp only [launches, List.filterMap_append]
  cases h : m.launched? <;> simp [h]

theorem finishes_append : finishes (past ++ [m]) = finishes past ++ m.finished?.toList := by
  simp only [finishes, List.filterMap_append]
  cases h : m.finished? <;> simp [h]

theorem mem_finishes {x : String} : x ∈ finishes past ↔ ∃ e outcome, ⟨e, .finished x outcome⟩ ∈ past := by
  constructor
  · intro hx
    obtain ⟨⟨e, y⟩, hmem, hy⟩ := List.mem_filterMap.mp hx
    cases y with
    | finished node outcome =>
      cases hy
      exact ⟨e, outcome, hmem⟩
    | step | cancel | timeUp | elsewhere => cases hy
  · intro hex
    obtain ⟨e, outcome, hmem⟩ := hex
    exact List.mem_filterMap.mpr ⟨_, hmem, rfl⟩

/-- Carrying out an errand launches the node it is about to launch, if any. -/
theorem launched?_perform (c : Coordinator) (e : Engine) (now : Instant) (errand : Errand) :
    Moment.launched? ⟨e, .step (c.perform now errand).2⟩ = errand.launched? := by
  cases errand with
  | saveNode id =>
    simp only [Coordinator.perform, Moment.launched?]
    cases c.execution.node? id <;> rfl
  | save | emit | launch | skip | cancel | request | signalDone | leave => rfl

/-- The lists agree with the statuses of the nodes. -/
structure Tally (past : List Moment) (c : Coordinator) : Prop where
  launchedOnce : (launches past ++ c.errands.filterMap Errand.launched?).Nodup
  launched : ∀ x, x ∈ launches past ++ c.errands.filterMap Errand.launched? ↔ c.execution.HasStarted x
  finishedOnce : (finishes past).Nodup
  finished : ∀ x, x ∈ finishes past ↔ c.execution.HasEnded x

namespace Tally

theorem begins {d : Definition} {p : Plan} {types : Registry} {config : Config} {e : Execution}
    (hnodes : ∀ x, e.nodeStatus? x = if x ∈ p.order then some .waiting else none) :
    Tally [] (.ofPlan d p types config e) := by
  have hnone : ∀ x s, s ≠ .waiting → e.nodeStatus? x ≠ some s := fun _ _ hs hx =>
    hs (Execution.eq_waiting_of_waits hnodes hx)
  refine ⟨List.nodup_nil, fun x => iff_of_false List.not_mem_nil ?_, List.nodup_nil,
    fun x => iff_of_false List.not_mem_nil ?_⟩
  · intro hx
    rcases hx with hx | hx | hx
    · exact hnone x .running nofun hx
    · exact hnone x .success nofun hx
    · exact hnone x .error nofun hx
  · intro hx
    rcases hx with hx | hx
    · exact hnone x .success nofun hx
    · exact hnone x .error nofun hx

/-- Nothing is launched and no node starts or ends. -/
theorem quiet {c' : Coordinator} (h : Tally past c) (hm : m.launched? = none) (hf : m.finished? = none)
    (hlaunch : c'.errands.filterMap Errand.launched? = c.errands.filterMap Errand.launched?)
    (hs : ∀ x, c'.execution.HasStarted x ↔ c.execution.HasStarted x)
    (he : ∀ x, c'.execution.HasEnded x ↔ c.execution.HasEnded x) : Tally (past ++ [m]) c' := by
  refine ⟨?_, fun x => ?_, ?_, fun x => ?_⟩
  · rw [launches_append, hm, hlaunch, Option.toList_none, List.append_nil]
    exact h.launchedOnce
  · rw [launches_append, hm, hlaunch, Option.toList_none, List.append_nil, hs x]
    exact h.launched x
  · rw [finishes_append, hf, Option.toList_none, List.append_nil]
    exact h.finishedOnce
  · rw [finishes_append, hf, Option.toList_none, List.append_nil, he x]
    exact h.finished x

theorem errand {e : Engine} {errand : Errand} {rest : List Errand} {now : Instant} (h : Tally past c)
    (he : c.errands = errand :: rest) :
    Tally (past ++ [⟨e, .step ({ c with errands := rest }.perform now errand).2⟩]) { c with errands := rest } := by
  have hm := launched?_perform { c with errands := rest } e now errand
  have hlist : launches past ++ errand.launched?.toList ++ rest.filterMap Errand.launched? =
      launches past ++ c.errands.filterMap Errand.launched? := by
    rw [he, List.filterMap_cons, List.append_assoc]
    cases errand.launched? <;> rfl
  refine ⟨?_, fun x => ?_, ?_, fun x => ?_⟩
  · rw [launches_append, hm, hlist]
    exact h.launchedOnce
  · rw [launches_append, hm, hlist]
    exact h.launched x
  · rw [finishes_append]
    exact (List.append_nil _).symm ▸ h.finishedOnce
  · rw [finishes_append]
    exact (List.append_nil _).symm ▸ h.finished x

theorem starts {c' : Coordinator} {e : Engine} (h : Tally past c) (idle : c.Idle)
    (hc : c.execution.Changes c'.execution id .waiting .running)
    (hlaunch : c'.errands.filterMap Errand.launched? = [id]) :
    Tally (past ++ [⟨e, .step none⟩]) c' := by
  have hold : ∀ x, x ∈ launches past ↔ c.execution.HasStarted x := by
    simpa [idle.errands] using h.launched
  have hnew : id ∉ launches past := by
    rw [hold]
    intro hs
    rcases hs with hs | hs | hs <;> exact absurd (hc.before.symm.trans hs) nofun
  refine ⟨?_, fun x => ?_, ?_, fun x => ?_⟩
  · rw [launches_append, hlaunch]
    refine List.nodup_append.mpr ⟨?_, List.nodup_singleton id, fun y hy z hz e => ?_⟩
    · simpa [idle.errands, Moment.launched?] using h.launchedOnce
    · rw [List.mem_singleton] at hz
      have hy : y ∈ launches past := by simpa [Moment.launched?] using hy
      exact hnew (hz ▸ e ▸ hy)
  · have hlist : x ∈ launches (past ++ [⟨e, .step none⟩]) ++ c'.errands.filterMap Errand.launched? ↔
        x ∈ launches past ∨ x = id := by
      rw [launches_append, hlaunch]
      simp [Moment.launched?]
    rw [hlist, hold x]
    by_cases hx : x = id
    · exact iff_of_true (.inr hx) (.inl (hx ▸ hc.after))
    · rw [Execution.hasStarted_congr (hc.other x hx)]
      exact or_iff_left hx
  · rw [finishes_append]
    exact (List.append_nil _).symm ▸ h.finishedOnce
  · have hlist : x ∈ finishes (past ++ [⟨e, .step none⟩]) ↔ x ∈ finishes past := by
      rw [finishes_append]
      simp [Moment.finished?]
    rw [hlist, h.finished x]
    by_cases hx : x = id
    · subst hx
      refine iff_of_false ?_ ?_
      · intro hs
        rcases hs with hs | hs <;> exact absurd (hc.before.symm.trans hs) nofun
      · intro hs
        rcases hs with hs | hs <;> exact absurd (hc.after.symm.trans hs) nofun
    · exact (Execution.hasEnded_congr (hc.other x hx)).symm

theorem ends {c' : Coordinator} {outcome : Outcome} {e : Engine} {new : NodeStatus} (h : Tally past c) (idle : c.Idle)
    (hc : c.execution.Changes c'.execution id .running new) (hnew : new = .success ∨ new = .error)
    (hlaunch : c'.errands.filterMap Errand.launched? = []) :
    Tally (past ++ [⟨e, .finished id outcome⟩]) c' := by
  have hthis : c'.execution.HasEnded id := by
    rcases hnew with rfl | rfl
    · exact .inl hc.after
    · exact .inr hc.after
  have hfirst : id ∉ finishes past := by
    rw [h.finished id]
    intro hs
    rcases hs with hs | hs <;> exact absurd (hc.before.symm.trans hs) nofun
  have hlist : launches (past ++ [⟨e, .finished id outcome⟩]) ++ c'.errands.filterMap Errand.launched? =
      launches past ++ c.errands.filterMap Errand.launched? := by
    rw [launches_append, hlaunch, idle.errands]
    simp [Moment.launched?]
  refine ⟨?_, fun x => ?_, ?_, fun x => ?_⟩
  · rw [hlist]
    exact h.launchedOnce
  · rw [hlist, h.launched x]
    exact (hc.hasStarted_of_ended hnew).symm
  · rw [finishes_append]
    refine List.nodup_append.mpr ⟨h.finishedOnce, List.nodup_singleton id, fun y hy z hz e => ?_⟩
    have hz : z = id := List.mem_singleton.mp hz
    exact hfirst (hz ▸ e ▸ hy)
  · have hlist : x ∈ finishes (past ++ [⟨e, .finished id outcome⟩]) ↔ x ∈ finishes past ∨ x = id := by
      rw [finishes_append]
      simp [Moment.finished?]
    rw [hlist, h.finished x]
    by_cases hx : x = id
    · exact iff_of_true (.inr hx) (hx ▸ hthis)
    · rw [Execution.hasEnded_congr (hc.other x hx)]
      exact or_iff_left hx

/-- Everything that can happen keeps the lists in agreement. -/
theorem advance {c' : Coordinator} {canceled : Bool} {x : Happening} {e : Engine} (h : Tally past c)
    (ha : c.Advance canceled x c') : Tally (past ++ [⟨e, x⟩]) c' := by
  cases ha with
  | errand now he hskip => exact h.errand he
  | passed he hs =>
    exact h.quiet rfl rfl (by rw [he]; rfl) (fun _ => Iff.rfl) fun _ => Iff.rfl
  | @skipped id rest r now he hr hw =>
    have hc : c.execution.Changes _ id .waiting .skipped :=
      Execution.changes_setNode (r := { r with status := .skipped, stoppedAt := some now })
        (Execution.nodeStatus?_eq_some.mpr ⟨r, hr, hw⟩)
    have hrunning := hc.same (s := .running) nofun nofun
    have hsuccess := hc.same (s := .success) nofun nofun
    have herror := hc.same (s := .error) nofun nofun
    refine h.quiet rfl rfl (by rw [he]; rfl) (fun x => ?_) fun x => ?_
    · exact or_congr (hrunning x) (or_congr (hsuccess x) (herror x))
    · exact or_congr (hsuccess x) (herror x)
  | stopped now idle going asked =>
    exact h.quiet rfl rfl (by rw [idle.errands]; rfl) (fun _ => Iff.rfl) fun _ => Iff.rfl
  | @started id rest node r now idle going unasked slot first hn hr hw fed =>
    have hid : node.id = id := by simpa using List.find?_some hn
    exact h.starts idle (Execution.changes_setNode (Execution.nodeStatus?_eq_some.mpr ⟨r, hr, hw⟩))
      (congrArg (fun id => [id]) hid)
  | ended now idle landed hend =>
    refine h.quiet rfl rfl ?_ (fun x => ?_) fun x => ?_
    · rw [idle.errands, Coordinator.finish]
      simp only [List.filterMap_append]
      cases Coordinator.errorRequest? _ <;> rfl
    · exact Execution.hasStarted_congr Coordinator.nodeStatus?_finalRecord
    · exact Execution.hasEnded_congr Coordinator.nodeStatus?_finalRecord
  | timedOut now idle flying going unasked limit =>
    exact h.quiet rfl rfl (by rw [idle.errands]; rfl) (fun _ => Iff.rfl) fun _ => Iff.rfl
  | @succeeded id ports r pending ready now idle hr hrun =>
    have hc := Execution.changes_setNode
      (r := { r with status := .success, output := .object ports, stoppedAt := some now })
      (Execution.nodeStatus?_eq_some.mpr ⟨r, hr, hrun⟩)
    exact h.ends idle (hc.congr rfl) (.inl rfl) rfl
  | @failed id err r now idle hr hrun =>
    refine h.ends idle (Execution.changes_setNode (Execution.nodeStatus?_eq_some.mpr ⟨r, hr, hrun⟩)) (.inr rfl) ?_
    refine List.filterMap_eq_nil_iff.mpr fun errand hmem => ?_
    rcases List.mem_append.mp hmem with hmem | hmem
    · rcases List.mem_cons.mp hmem with rfl | hmem
      · rfl
      · rw [List.mem_singleton.mp hmem]; rfl
    · obtain ⟨x, -, rfl⟩ := List.mem_map.mp hmem
      rfl
  | canceled | elsewhere => exact h.quiet rfl rfl rfl (fun _ => Iff.rfl) fun _ => Iff.rfl

end Tally

theorem Lives.tally {e₀ e : Engine} {run : ActiveRun} {r : StartRequest} {p : Plan} (h₀ : Enters r p id e₀)
    (h : Lives id e₀ past e) (hr : e.run? id = some run) : Tally past run.coordinator :=
  h.induction (motive := fun past run => Tally past run.coordinator) h₀ hr
    (fun _ _ _ hrecord => .begins hrecord.nodeStatus?) fun _ _ _ _ _ _ _ htally _ ha _ _ => htally.advance ha

end Engine
end Workflows
