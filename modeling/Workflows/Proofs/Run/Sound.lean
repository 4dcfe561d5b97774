/-
  Workflows.Proofs.Run.Sound — what holds of a coordinator between any two turns.

  `Sound` ties the counts, the ready nodes and the nodes in flight to the statuses of the
  nodes, the skipped nodes to the failures before them, and the status of the run to how it
  was told to stop or came to its end. A coordinator made from a plan is sound, and every turn
  keeps it so, whatever order the nodes end in and wherever a request to cancel or the timeout
  falls.
-/

import Workflows.Proofs.Plan.Closure
import Workflows.Proofs.Run.Turn

namespace Workflows
namespace Execution

variable {e e' : Execution} {d : Definition} {x : String}

def succeeded (e : Execution) (id : String) : Bool := e.nodeStatus? id = some .success

/-- The node has been started, and may have ended. -/
def HasStarted (e : Execution) (id : String) : Prop :=
  e.nodeStatus? id = some .running ∨ e.nodeStatus? id = some .success ∨ e.nodeStatus? id = some .error

/-- Every node that feeds this one has succeeded. -/
def Fed (e : Execution) (d : Definition) (id : String) : Prop :=
  ∀ a, d.Feeds a id → e.nodeStatus? a = some .success

/-- Some node that leads to this one has failed. -/
def Doomed (e : Execution) (d : Definition) (id : String) : Prop :=
  ∃ x, e.nodeStatus? x = some .error ∧ d.LeadsTo x id

theorem fed_congr (h : ∀ a, e'.nodeStatus? a = some .success ↔ e.nodeStatus? a = some .success) :
    e'.Fed d x ↔ e.Fed d x := forall_congr' fun a => imp_congr_right fun _ => h a

theorem succeeded_congr (h : ∀ a, e'.nodeStatus? a = some .success ↔ e.nodeStatus? a = some .success) :
    e'.succeeded = e.succeeded := funext fun a => decide_eq_decide.mpr (h a)

theorem doomed_congr (h : ∀ a, e'.nodeStatus? a = some .error ↔ e.nodeStatus? a = some .error) :
    e'.Doomed d x ↔ e.Doomed d x := exists_congr fun a => and_congr_left' (h a)

theorem hasStarted_congr (h : e'.nodeStatus? x = e.nodeStatus? x) : e'.HasStarted x ↔ e.HasStarted x := by
  unfold HasStarted
  rw [h]

/-- A node that ends had started. -/
theorem Changes.hasStarted_of_ended {id : String} {new : NodeStatus} (h : e.Changes e' id .running new)
    (hnew : new = .success ∨ new = .error) : e'.HasStarted x ↔ e.HasStarted x := by
  by_cases hx : x = id
  · subst hx
    refine iff_of_true (.inr ?_) (.inl h.before)
    rcases hnew with rfl | rfl
    · exact .inl h.after
    · exact .inr h.after
  · exact hasStarted_congr (h.other x hx)

/-- Who was fed is so when another node has succeeded. -/
theorem Changes.fed_of_succeeded {id : String} (h : e.Changes e' id .running .success) (hx : e.Fed d x) :
    e'.Fed d x := by
  intro a ha
  by_cases hid : a = id
  · exact hid ▸ h.after
  · exact (h.other a hid).trans (hx a ha)

theorem lacking_eq_zero {p : Plan} (h : Plan.ofDefinition d = .ok p) :
    p.producers.lacking e.succeeded x = 0 ↔ e.Fed d x := by
  rw [Adjacency.lacking_eq_zero]
  exact forall_congr' fun a => by rw [succeeded, decide_eq_true_eq]; exact imp_congr_left (Plan.mem_dependencies h)

end Execution

namespace Coordinator

structure Sound (c : Coordinator) : Prop where
  planned : Plan.ofDefinition c.definition = .ok c.plan
  known : ∀ id, (c.execution.nodeStatus? id).isSome ↔ id ∈ c.plan.order
  fed : ∀ id, c.execution.HasStarted id → c.execution.Fed c.definition id
  counted : ∀ id ∈ c.plan.order, Keyed.get? c.pending id = some (c.plan.producers.lacking c.execution.succeeded id)
  flying : ∀ id, id ∈ c.inFlight ↔ c.execution.nodeStatus? id = some .running
  flyingOnce : c.inFlight.Nodup
  slots : c.inFlight.length ≤ c.slots
  ready : c.stopping = false → ∀ id, id ∈ c.ready ↔ c.execution.nodeStatus? id = some .waiting ∧
    c.execution.Fed c.definition id
  ascending : c.ready.Pairwise (· < ·)
  toSkip : ∀ id, .skip id ∈ c.errands → c.execution.Doomed c.definition id ∧ c.stopping = false ∧ c.closing = false
  skipped : ∀ id, c.execution.nodeStatus? id = some .skipped → c.execution.Doomed c.definition id
  /-- A node behind a failure is skipped, or is about to be. -/
  doomed : c.stopping = false → ∀ id, c.execution.Doomed c.definition id →
    c.execution.nodeStatus? id = some .skipped ∨ .skip id ∈ c.errands
  going : c.stopping = false → c.closing = false → c.execution.status = .running ∧ c.execution.error = none
  ended : c.stopping = true → c.execution.isTerminal = true
  closed : c.closing = true → c.inFlight = [] ∧ (c.stopping = true ∨ c.ready = [])
  verdict : c.closing = true → c.stopping = false →
    c.execution.status = if c.firstFailure.isSome then .error else .success
  blamed : c.firstFailure.isSome = true ↔ ∃ id, c.execution.nodeStatus? id = some .error

namespace Sound

variable {c : Coordinator} {id x : String} {now : Instant}

/-! ## Behind a failure -/

/-- Whatever leads to a node that has started has succeeded. -/
theorem success_of_leadsTo (h : Sound c) (hs : c.execution.HasStarted id) (hl : c.definition.LeadsTo x id) :
    c.execution.nodeStatus? x = some .success := by
  induction hl with
  | single hf => exact h.fed _ hs x hf
  | tail _ hf ih => exact ih (.inr (.inl (h.fed _ hs _ hf)))

theorem not_started_of_doomed (h : Sound c) (hd : c.execution.Doomed c.definition id) :
    ¬ c.execution.HasStarted id := by
  intro hs
  obtain ⟨x, hx, hl⟩ := hd
  rw [h.success_of_leadsTo hs hl] at hx
  cases hx

theorem not_fed_of_doomed (h : Sound c) (hd : c.execution.Doomed c.definition id) :
    ¬ c.execution.Fed c.definition id := by
  intro hfed
  obtain ⟨x, hx, hl⟩ := hd
  cases hl with
  | single hf => rw [hfed x hf] at hx; cases hx
  | tail hl hf =>
    rw [h.success_of_leadsTo (.inr (.inl (hfed _ hf))) hl] at hx
    cases hx

/-! ## When the status of one node changes -/

section

variable {e : Execution} {old new : NodeStatus}

/-- The counts stand when no other node has succeeded. -/
theorem counted_congr (h : Sound c)
    (hsuccess : ∀ a, e.nodeStatus? a = some .success ↔ c.execution.nodeStatus? a = some .success)
    (hx : x ∈ c.plan.order) : Keyed.get? c.pending x = some (c.plan.producers.lacking e.succeeded x) := by
  rw [Execution.succeeded_congr hsuccess]
  exact h.counted x hx

/-- When a running node ends, the others are still in flight. -/
theorem flying_of_ended (h : Sound c) (hc : c.execution.Changes e id .running new) (hnew : new ≠ .running) :
    x ∈ c.inFlight.filter (· ≠ id) ↔ e.nodeStatus? x = some .running := by
  rw [List.mem_filter, h.flying x, decide_eq_true_eq]
  by_cases hx : x = id
  · subst hx
    exact iff_of_false (fun hflying => hflying.2 rfl) fun hrun => hnew (Option.some.inj (hc.after.symm.trans hrun))
  · rw [hc.other x hx]
    exact and_iff_left hx

/-- Who has started after a running node ended had been fed. -/
theorem fed_of_ended (h : Sound c) (hc : c.execution.Changes e id .running new) (hx : e.HasStarted x) :
    c.execution.Fed c.definition x := by
  by_cases hxid : x = id
  · exact h.fed x (.inl (hxid ▸ hc.before))
  · exact h.fed x ((Execution.hasStarted_congr (hc.other x hxid)).mp hx)

end

/-! ## Errands -/

theorem errand (h : Sound c) {e : Errand} {rest : List Errand} (he : c.errands = e :: rest)
    (hskip : ∀ id, e ≠ .skip id) :
    Sound { c with errands := rest } := by
  refine { h with toSkip := fun id hid => ?_, doomed := fun hgo id hd => ?_ }
  · exact h.toSkip id (he ▸ List.mem_cons_of_mem _ hid)
  · refine (h.doomed hgo id hd).imp_right fun hmem => ?_
    rw [he] at hmem
    exact (List.mem_cons.mp hmem).resolve_left fun e => hskip id e.symm

/-- A node that is to be skipped waits, or has been skipped for an earlier failure. -/
theorem status_of_skip (h : Sound c) {rest : List Errand} (he : c.errands = .skip id :: rest) :
    c.execution.nodeStatus? id = some .waiting ∨ c.execution.nodeStatus? id = some .skipped := by
  obtain ⟨hd, -, -⟩ := h.toSkip id (by rw [he]; exact List.mem_cons_self)
  have hnot := h.not_started_of_doomed hd
  obtain ⟨y, -, hl⟩ := hd
  obtain ⟨st, hst⟩ := Option.isSome_iff_exists.mp ((h.known id).mpr (Plan.mem_order_of_leadsTo h.planned hl).2)
  cases st with
  | waiting => exact .inl hst
  | skipped => exact .inr hst
  | running => exact absurd (.inl hst) hnot
  | success => exact absurd (.inr (.inl hst)) hnot
  | error => exact absurd (.inr (.inr hst)) hnot

/-- A waiting node is skipped. -/
theorem skip_of_waiting (h : Sound c) {rest : List Errand} (he : c.errands = .skip id :: rest) {r : NodeResult}
    (hr : c.execution.node? id = some r) (hrw : r.status = .waiting) :
    Sound ({ c with errands := rest }.skipNode id now) := by
  obtain ⟨hd, hgo, hclosing⟩ := h.toSkip id (by rw [he]; exact List.mem_cons_self)
  have hw := Execution.nodeStatus?_eq_some.mpr ⟨r, hr, hrw⟩
  rw [skipNode_of_waiting (c := { c with errands := rest }) hr hrw]
  have hc : c.execution.Changes _ id .waiting .skipped :=
    Execution.changes_setNode (r := { r with status := .skipped, stoppedAt := some now }) hw
  have hsuccess := hc.same (s := .success) nofun nofun
  have herror := hc.same (s := .error) nofun nofun
  have hrunning := hc.same (s := .running) nofun nofun
  refine
    { planned := h.planned
      known := fun x => (hc.isSome_iff x).trans (h.known x)
      fed := fun x hx => (Execution.fed_congr hsuccess).mpr
        (h.fed x (hx.imp (hrunning x).mp (.imp (hsuccess x).mp (herror x).mp)))
      counted := fun x hx => h.counted_congr hsuccess hx
      flying := fun x => (h.flying x).trans (hrunning x).symm
      flyingOnce := h.flyingOnce
      slots := h.slots
      ready := fun hgo x => ?_
      ascending := h.ascending
      toSkip := fun x hx => ?_
      skipped := fun x hx => ?_
      doomed := fun hgo x hx => ?_
      going := h.going
      ended := h.ended
      closed := h.closed
      verdict := h.verdict
      blamed := h.blamed.trans (exists_congr fun x => (herror x).symm) }
  · refine (h.ready hgo x).trans
      ⟨fun ⟨hx, hfed⟩ => ⟨?_, (Execution.fed_congr hsuccess).mpr hfed⟩,
        fun ⟨hx, hfed⟩ => ⟨?_, (Execution.fed_congr hsuccess).mp hfed⟩⟩
    · have hne : x ≠ id := by intro heq; subst heq; exact h.not_fed_of_doomed hd hfed
      exact (hc.other x hne).trans hx
    · by_cases hxid : x = id
      · exact hxid ▸ hw
      · exact (hc.other x hxid).symm.trans hx
  · have hx : .skip x ∈ rest := by simpa using hx
    refine ⟨(Execution.doomed_congr herror).mpr (h.toSkip x ?_).1, hgo, hclosing⟩
    exact he ▸ List.mem_cons_of_mem _ hx
  · refine (Execution.doomed_congr herror).mpr ?_
    by_cases hxid : x = id
    · exact hxid ▸ hd
    · exact h.skipped x ((hc.other x hxid).symm.trans hx)
  · by_cases hxid : x = id
    · exact .inl (hxid ▸ hc.after)
    · rcases h.doomed hgo x ((Execution.doomed_congr herror).mp hx) with hs | hs
      · exact .inl ((hc.other x hxid).trans hs)
      · right
        rw [he] at hs
        have hs : .skip x ∈ rest := (List.mem_cons.mp hs).resolve_left fun e => hxid (Errand.skip.inj e)
        exact List.mem_append_right _ hs

theorem skip (h : Sound c) {rest : List Errand} (he : c.errands = .skip id :: rest) :
    Sound ({ c with errands := rest }.skipNode id now) := by
  rcases h.status_of_skip he with hw | hskipped
  · obtain ⟨r, hr, hrw⟩ := Execution.nodeStatus?_eq_some.mp hw
    exact h.skip_of_waiting he hr hrw
  · rw [skipNode_of_not_waiting (c := { c with errands := rest }) (by rw [hskipped]; nofun)]
    refine { h with toSkip := fun x hx => ?_, doomed := fun hgo x hx => ?_ }
    · exact h.toSkip x (he ▸ List.mem_cons_of_mem _ hx)
    · rcases h.doomed hgo x hx with hs | hs
      · exact .inl hs
      · rw [he] at hs
        rcases List.mem_cons.mp hs with hx | hs
        · cases hx; exact .inl hskipped
        · exact .inr hs

/-! ## Stopping and ending -/

theorem stop (h : Sound c) (hskip : ∀ id, .skip id ∉ c.errands) (hgo : c.stopping = false)
    (hclosing : c.closing = false)
    {status : RunStatus} (ht : status.isTerminal = true) (error : Option String) :
    Sound (c.stop status error now) := by
  rw [stop_eq (h.going hgo hclosing).1 ht]
  exact
    { h with
      ready := nofun
      toSkip := fun id hid => absurd (List.mem_append.mp hid) (by simpa using hskip id)
      doomed := nofun
      going := nofun
      ended := fun _ => ht
      closed := fun hc => absurd hclosing (by rw [hc]; nofun)
      verdict := nofun }

theorem timeUp (h : Sound c) (idle : c.Idle) (hgo : c.stopping = false) : Sound (c.receive now .timedOut) := by
  have hcancel : Sound { c with errands := [.cancel] } :=
    { h with
      toSkip := fun id hid => by simp at hid
      doomed := fun _ id hd => .inl ((h.doomed hgo id hd).resolve_right (by simp [idle.errands])) }
  exact hcancel.stop (by simp) hgo idle.closing rfl _

theorem finish (h : Sound c) (idle : c.Idle) (landed : c.inFlight = []) (hend : c.stopping = true ∨ c.ready = []) :
    Sound (c.finish now) := by
  have hstatus : ∀ x, (c.finish now).execution.nodeStatus? x = c.execution.nodeStatus? x :=
    fun x => nodeStatus?_finalRecord
  have hsuccess : ∀ x, (c.finish now).execution.nodeStatus? x = some .success ↔
      c.execution.nodeStatus? x = some .success :=
    fun x => by rw [hstatus x]
  have herror : ∀ x, (c.finish now).execution.nodeStatus? x = some .error ↔ c.execution.nodeStatus? x = some .error :=
    fun x => by rw [hstatus x]
  refine
    { planned := h.planned
      known := fun x => by rw [hstatus x]; exact h.known x
      fed := fun x hx => (Execution.fed_congr hsuccess).mpr (h.fed x ?_)
      counted := fun x hx => h.counted_congr hsuccess hx
      flying := fun x => by rw [hstatus x]; exact h.flying x
      flyingOnce := h.flyingOnce
      slots := h.slots
      ready := fun hgo x => ?_
      ascending := h.ascending
      toSkip := fun x hx => absurd hx skip_not_mem_finish
      skipped := fun x hx => (Execution.doomed_congr herror).mpr (h.skipped x (by rwa [hstatus x] at hx))
      doomed := fun hgo x hx => ?_
      going := nofun
      ended := fun hstop => ?_
      closed := fun _ => ⟨landed, hend⟩
      verdict := fun _ hgo => status_finalRecord (h.going hgo idle.closing).1
      blamed := h.blamed.trans (exists_congr fun x => (herror x).symm) }
  · exact (Execution.hasStarted_congr (hstatus x)).mp hx
  · rw [hstatus x]
    exact (h.ready hgo x).trans (and_congr_right' (Execution.fed_congr hsuccess).symm)
  · rw [hstatus x]
    have hx := h.doomed hgo x ((Execution.doomed_congr herror).mp hx)
    exact .inl (hx.resolve_right (by simp [idle.errands]))
  · have hterm := h.ended hstop
    have := (finalRecord_of_terminal now hterm).1
    exact (congrArg RunStatus.isTerminal this).trans hterm

/-! ## Starting a node -/

/-- The first of the ready nodes is started. -/
theorem start (h : Sound c) (idle : c.Idle) (hgo : c.stopping = false) (slot : c.inFlight.length < c.slots)
    {rest : NameSet} (hr : c.ready = id :: rest) : Sound (c.startNode id now) := by
  obtain ⟨hw, hfed⟩ := (h.ready hgo id).mp (hr ▸ List.mem_cons_self)
  obtain ⟨node, hn, -⟩ := Plan.node?_isSome h.planned ((h.known id).mp (by rw [hw]; rfl))
  rw [startNode_eq hn]
  generalize hres : NodeResult.mk .. = r
  have hc : c.execution.Changes (c.execution.setNode id r) id .waiting .running := by
    have hrun : r.status = .running := by rw [← hres]
    exact hrun ▸ Execution.changes_setNode hw
  have hsuccess := hc.same (s := .success) nofun nofun
  have herror := hc.same (s := .error) nofun nofun
  have hskipped := hc.same (s := .skipped) nofun nofun
  have hnotFlying : id ∉ c.inFlight := fun hmem => by
    have := (h.flying id).mp hmem
    rw [hw] at this
    cases this
  refine
    { planned := h.planned
      known := fun x => (hc.isSome_iff x).trans (h.known x)
      fed := fun x hx => (Execution.fed_congr hsuccess).mpr ?fed
      counted := fun x hx => h.counted_congr hsuccess hx
      flying := fun x => ?flying
      flyingOnce := ?flyingOnce
      slots := ?slots
      ready := fun hgo x => ?ready
      ascending := h.ascending.filter _
      toSkip := fun x hx => by simp at hx
      skipped := fun x hx => (Execution.doomed_congr herror).mpr (h.skipped x ((hskipped x).mp hx))
      doomed := fun hgo x hx => ?doomed
      going := h.going
      ended := h.ended
      closed := fun hc => absurd idle.closing (by rw [hc]; nofun)
      verdict := fun hc => absurd idle.closing (by rw [hc]; nofun)
      blamed := h.blamed.trans (exists_congr fun x => (herror x).symm) }
  case fed =>
    by_cases hxid : x = id
    · exact hxid ▸ hfed
    · exact h.fed x ((Execution.hasStarted_congr (hc.other x hxid)).mp hx)
  case flying =>
    rw [List.mem_append, List.mem_singleton, h.flying x]
    by_cases hxid : x = id
    · exact iff_of_true (.inr hxid) (hxid ▸ hc.after)
    · refine (or_iff_left hxid).trans ?_
      exact (hc.other x hxid).symm ▸ Iff.rfl
  case flyingOnce =>
    refine List.nodup_append.mpr ⟨h.flyingOnce, List.nodup_singleton id, fun y hy z hz e => ?_⟩
    rw [List.mem_singleton] at hz
    exact hnotFlying (hz ▸ e ▸ hy)
  case slots =>
    simp only [List.length_append, List.length_singleton]
    exact slot
  case ready =>
    rw [List.mem_filter, h.ready hgo x, decide_eq_true_eq]
    by_cases hxid : x = id
    · subst hxid
      exact iff_of_false (fun hx => hx.2 rfl) fun hx => absurd (hc.after.symm.trans hx.1) nofun
    · have hother := hc.other x hxid
      exact ⟨fun hx => ⟨hother.trans hx.1.1, (Execution.fed_congr hsuccess).mpr hx.1.2⟩,
        fun hx => ⟨⟨hother.symm.trans hx.1, (Execution.fed_congr hsuccess).mp hx.2⟩, hxid⟩⟩
  case doomed =>
    have hx := h.doomed hgo x ((Execution.doomed_congr herror).mp hx)
    exact .inl ((hskipped x).mpr (hx.resolve_right (by simp [idle.errands])))

/-! ## Handling what has finished -/

section

variable {e : Execution} (h : Sound c) (hc : c.execution.Changes e id .running .success)
include h hc

/-- The nodes behind the one that has succeeded lack one less. -/
theorem lacking_of_succeeded (x : String) : c.plan.producers.lacking c.execution.succeeded x =
    c.plan.producers.lacking e.succeeded x + if x ∈ c.plan.dependents id then 1 else 0 := by
  have hbehind : x ∈ c.plan.dependents id ↔ id ∈ c.plan.producers.at x :=
    (Plan.mem_dependents h.planned).trans (Plan.mem_dependencies h.planned).symm
  rw [if_congr hbehind rfl rfl]
  refine Adjacency.lacking_mark (nodup_of_ascending (Plan.ascending_dependencies h.planned x)) ?_ fun a => ?_
  · simp [Execution.succeeded, hc.before]
  · by_cases hid : a = id
    · subst hid; simp [Execution.succeeded, hc.after]
    · simp [Execution.succeeded, hc.other a hid, hid]

/-- Counting down for the nodes behind it keeps the counts right. -/
theorem counted_of_succeeded (hx : x ∈ c.plan.order) :
    (if x ∈ c.plan.dependents id then (Keyed.get? c.pending x).map (· - 1) else Keyed.get? c.pending x) =
      some (c.plan.producers.lacking e.succeeded x) := by
  rw [h.counted x hx, h.lacking_of_succeeded hc x]
  split <;> rfl

/-- A count has come down to zero when everything before has succeeded. -/
theorem fed_iff_of_succeeded (hx : x ∈ c.plan.dependents id) :
    (Keyed.get? c.pending x).map (· - 1) = some 0 ↔ e.Fed c.definition x := by
  have hcount := h.counted_of_succeeded hc (Plan.mem_order_of_feeds h.planned ((Plan.mem_dependents h.planned).mp hx)).2
  rw [if_pos hx] at hcount
  rw [hcount, ← Execution.lacking_eq_zero h.planned, Option.some.injEq]

/-- A node is ready then if it was, or if it waits behind the one that has succeeded and its count
has come down to zero. -/
theorem ready_iff_of_succeeded (hgo : c.stopping = false) :
    (x ∈ c.ready ∨ x ∈ c.plan.dependents id ∧ (Keyed.get? c.pending x).map (· - 1) = some 0 ∧
      e.nodeStatus? x = some .waiting) ↔ e.nodeStatus? x = some .waiting ∧ e.Fed c.definition x := by
  have hwaiting := hc.same (s := .waiting) nofun nofun
  constructor
  · intro hx
    rcases hx with hx | ⟨hx, hzero, hw⟩
    · obtain ⟨hw, hf⟩ := (h.ready hgo x).mp hx
      exact ⟨(hwaiting x).mpr hw, hc.fed_of_succeeded hf⟩
    · exact ⟨hw, (h.fed_iff_of_succeeded hc hx).mp hzero⟩
  · intro hx
    obtain ⟨hw, hf⟩ := hx
    by_cases hx : x ∈ c.plan.dependents id
    · exact .inr ⟨hx, (h.fed_iff_of_succeeded hc hx).mpr hf, hw⟩
    · refine .inl ((h.ready hgo x).mpr ⟨(hwaiting x).mp hw, fun a ha => ?_⟩)
      have hid : a ≠ id := by intro heq; subst heq; exact hx ((Plan.mem_dependents h.planned).mpr ha)
      exact (hc.other a hid).symm.trans (hf a ha)

end

theorem complete (h : Sound c) (idle : c.Idle) (hrun : c.execution.nodeStatus? id = some .running)
    (ports : PortValues) :
    Sound ({ c with inFlight := c.inFlight.filter (· ≠ id) }.complete id ports now) := by
  obtain ⟨pending, ready, heq, hcount, hasc, hmem⟩ := complete_eq
    { c with inFlight := c.inFlight.filter (· ≠ id) } id ports now
    (nodup_of_ascending (Plan.ascending_dependents h.planned id))
  rw [heq]
  generalize hres : succeededResult _ id ports now = r
  generalize hexecution : Execution.mk .. = e
  have hc : c.execution.Changes e id .running .success := by
    have hsucceeded : r.status = .success := by rw [← hres]; rfl
    have hset : e.nodeResults = (c.execution.setNode id r).nodeResults := by rw [← hexecution]
    exact (hsucceeded ▸ Execution.changes_setNode hrun).congr hset
  have herror := hc.same (s := .error) nofun nofun
  have hskipped := hc.same (s := .skipped) nofun nofun
  refine
    { planned := h.planned
      known := fun x => (hc.isSome_iff x).trans (h.known x)
      fed := fun x hx => hc.fed_of_succeeded (h.fed_of_ended hc hx)
      counted := fun x hx => (hcount x).trans (h.counted_of_succeeded hc hx)
      flying := fun x => h.flying_of_ended hc nofun
      flyingOnce := h.flyingOnce.filter _
      slots := (List.length_filter_le _ _).trans h.slots
      ready := fun hgo x => ?ready
      ascending := hasc h.ascending
      toSkip := fun x hx => by simp at hx
      skipped := fun x hx => (Execution.doomed_congr herror).mpr (h.skipped x ((hskipped x).mp hx))
      doomed := fun hgo x hx => ?doomed
      going := by rw [← hexecution]; exact h.going
      ended := by rw [← hexecution]; exact h.ended
      closed := fun hc => absurd idle.closing (by rw [hc]; nofun)
      verdict := fun hc => absurd idle.closing (by rw [hc]; nofun)
      blamed := h.blamed.trans (exists_congr fun x => (herror x).symm) }
  case ready =>
    have hstatus : (if x = id then some .success else c.execution.nodeStatus? x) = e.nodeStatus? x := by
      split
      next heq => exact heq ▸ hc.after.symm
      next hne => exact (hc.other x hne).symm
    rw [hmem x, ← h.ready_iff_of_succeeded hc hgo]
    refine or_congr_right (and_congr_right' (and_congr_right' ?_))
    exact hstatus ▸ and_iff_left hgo
  case doomed =>
    have hx := h.doomed hgo x ((Execution.doomed_congr herror).mp hx)
    exact .inl ((hskipped x).mpr (hx.resolve_right (by simp [idle.errands])))

theorem fail (h : Sound c) (idle : c.Idle) (hrun : c.execution.nodeStatus? id = some .running) (e : NodeError) :
    Sound ({ c with inFlight := c.inFlight.filter (· ≠ id) }.fail id e now) := by
  rw [fail_eq]
  generalize hres : failedResult _ id e now = r
  have hc : c.execution.Changes (c.execution.setNode id r) id .running .error := by
    have hfailed : r.status = .error := by rw [← hres]; rfl
    exact hfailed ▸ Execution.changes_setNode hrun
  have hsuccess := hc.same (s := .success) nofun nofun
  have hskipped := hc.same (s := .skipped) nofun nofun
  have hwaiting := hc.same (s := .waiting) nofun nofun
  have hlost : ∀ x, c.execution.Doomed c.definition x → (c.execution.setNode id r).Doomed c.definition x := by
    intro x hdoomed
    obtain ⟨y, hy, hl⟩ := hdoomed
    by_cases hyid : y = id
    · exact ⟨id, hc.after, hyid ▸ hl⟩
    · exact ⟨y, (hc.other y hyid).trans hy, hl⟩
  have hskips : ∀ x, .skip x ∈ ([.saveNode id, .emit (c.finishedEvent id .error (some e.message))] ++
      (if c.execution.isTerminal then [] else c.plan.allDependents id).map Errand.skip) ↔
        c.execution.isTerminal = false ∧ c.definition.LeadsTo id x := by
    intro x
    cases ht : c.execution.isTerminal with
    | true => simp
    | false => simp [Plan.mem_allDependents h.planned]
  refine
    { planned := h.planned
      known := fun x => (hc.isSome_iff x).trans (h.known x)
      fed := fun x hx => (Execution.fed_congr hsuccess).mpr (h.fed_of_ended hc hx)
      counted := fun x hx => h.counted_congr hsuccess hx
      flying := fun x => h.flying_of_ended hc nofun
      flyingOnce := h.flyingOnce.filter _
      slots := (List.length_filter_le _ _).trans h.slots
      ready := fun hgo x =>
        (h.ready hgo x).trans (and_congr (hwaiting x).symm (Execution.fed_congr hsuccess).symm)
      ascending := h.ascending
      toSkip := fun x hx => ?toSkip
      skipped := fun x hx => hlost x (h.skipped x ((hskipped x).mp hx))
      doomed := fun hgo x hx => ?doomed
      going := h.going
      ended := h.ended
      closed := fun hc => absurd idle.closing (by rw [hc]; nofun)
      verdict := fun hc => absurd idle.closing (by rw [hc]; nofun)
      blamed := ⟨fun _ => ⟨id, hc.after⟩, fun _ => ?blamed⟩ }
  case toSkip =>
    obtain ⟨ht, hl⟩ := (hskips x).mp hx
    refine ⟨⟨id, hc.after, hl⟩, ?_, idle.closing⟩
    cases hstop : c.stopping with
    | false => rfl
    | true => rw [h.ended hstop] at ht; cases ht
  case doomed =>
    obtain ⟨y, hy, hl⟩ := hx
    by_cases hyid : y = id
    · refine .inr ((hskips x).mpr ⟨?_, hyid ▸ hl⟩)
      rw [Execution.isTerminal, (h.going hgo idle.closing).1]
      rfl
    · have hx := h.doomed hgo x ⟨y, (hc.other y hyid).symm.trans hy, hl⟩
      exact .inl ((hskipped x).mpr (hx.resolve_right (by simp [idle.errands])))
  case blamed => cases c.firstFailure <;> rfl

/-! ## The first state, and every turn -/

/-- A coordinator made from a plan and a record in which every node waits. -/
theorem ofPlan {d : Definition} {p : Plan} {types : Registry} {config : Config} {e : Execution}
    (hp : Plan.ofDefinition d = .ok p) (hstatus : e.status = .running) (herror : e.error = none)
    (hnodes : ∀ x, e.nodeStatus? x = if x ∈ p.order then some .waiting else none) :
    Sound (.ofPlan d p types config e) := by
  have hnone : ∀ x s, s ≠ .waiting → e.nodeStatus? x ≠ some s := fun _ _ hs hx =>
    hs (Execution.eq_waiting_of_waits hnodes hx)
  have hnotDoomed : ∀ x, ¬ e.Doomed d x := fun x ⟨y, hy, _⟩ => hnone y .error nofun hy
  have hfed : ∀ x, e.Fed d x ↔ ∀ a, ¬ d.Feeds a x :=
    fun x => forall_congr' fun a => imp_congr_right fun _ => iff_of_false (hnone a .success nofun) id
  refine
    { planned := hp
      known := fun x => ?known
      fed := fun x hx => ?fed
      counted := fun x hx => ?counted
      flying := fun x => iff_of_false List.not_mem_nil (hnone x .running nofun)
      flyingOnce := List.nodup_nil
      slots := Nat.zero_le _
      ready := fun _ x => ?ready
      ascending := ?ascending
      toSkip := nofun
      skipped := fun x hx => absurd hx (hnone x .skipped nofun)
      doomed := fun _ x hx => absurd hx (hnotDoomed x)
      going := fun _ _ => ⟨hstatus, herror⟩
      ended := nofun
      closed := nofun
      verdict := nofun
      blamed := ⟨nofun, fun ⟨x, hx⟩ => absurd hx (hnone x .error nofun)⟩ }
  case known =>
    have hx := hnodes x
    by_cases hmem : x ∈ p.order
    · rw [if_pos hmem] at hx
      exact iff_of_true (Option.isSome_iff_exists.mpr ⟨_, hx⟩) hmem
    · rw [if_neg hmem] at hx
      refine iff_of_false (fun h => ?_) hmem
      obtain ⟨s, hs⟩ := Option.isSome_iff_exists.mp h
      exact absurd (hx.symm.trans hs) nofun
  case fed =>
    rcases hx with hx | hx | hx
    · exact absurd hx (hnone x .running nofun)
    · exact absurd hx (hnone x .success nofun)
    · exact absurd hx (hnone x .error nofun)
  case counted =>
    refine (Keyed.get?_ofList_map _ _ _).trans ((if_pos hx).trans (congrArg some ?_))
    refine (List.countP_eq_length.mpr fun a _ => ?_).symm
    have hnot : e.succeeded a = false := decide_eq_false (hnone a .success nofun)
    exact congrArg not hnot
  case ready =>
    refine NameSet.mem_ofList.trans ((Plan.mem_roots hp).trans (and_congr ?_ (hfed x).symm))
    refine ⟨fun hmem => (hnodes x).trans (if_pos hmem), fun hw => ?_⟩
    by_contra hmem
    exact absurd (((hnodes x).trans (if_neg hmem)).symm.trans hw) nofun
  case ascending => exact NameSet.ascending_ofList _

theorem turn (h : Sound c) {canceled : Bool} {happening : Happening} {c' : Coordinator}
    (ht : c.Turn canceled happening c') : Sound c' := by
  cases ht with
  | errand now he hskip => exact h.errand he hskip
  | skip now he => exact h.skip he
  | stop now idle going _ => exact h.stop (by simp [idle.errands]) going idle.closing rfl none
  | start now idle going _ slot hr => exact h.start idle going slot hr
  | finish now idle landed hend => exact h.finish idle landed (hend.imp_right And.right)
  | timeUp now hw going _ => exact h.timeUp (isWaiting_iff.mp hw).1 going
  | @finished id outcome now hw flying =>
    have hrun := (h.flying id).mp flying
    cases outcome with
    | ok ports => exact h.complete (isWaiting_iff.mp hw).1 hrun ports
    | error e => exact h.fail (isWaiting_iff.mp hw).1 hrun e
  | canceled | elsewhere => exact h

end Sound
end Coordinator
end Workflows
