/-
  Workflows.Proofs.Engine.Unfolding — what goes on in virtual time, and the books that are kept of it.

  `Schedule.Unfolds` is a schedule from the first instant on, with the history of its engine: runs take
  steps and are told what there is to tell, nodes are carried out and report, calls are made and served
  and time passes, in any order. The books of a schedule (`Ledger`) say for every run what has become of
  each node it has launched, and of every outcome that it is what carrying out the node came to; they
  are right at every point (`Unfolds.ledger`). That a run is told only what is so follows from them and
  is nowhere required.
-/

import Workflows.Proofs.Engine.Furnished
import Workflows.Proofs.Engine.Handlers
import Workflows.Proofs.Engine.Tallied

namespace Workflows

/-- What is put down when a run is told this. That a node is lost is no part of any life. -/
def Signal.entries (id : String) : Signal → List Entry
  | .timedOut => [.turn id .timeUp]
  | .finished node outcome => [.turn id (.finished node outcome)]
  | .lost _ => []

namespace Schedule

/-- A schedule, and the history and start calls that have led to it. -/
inductive Unfolds (e₀ : Engine) (env : Surroundings) : List Entry → List Caller → Schedule → Prop
  | opens (orderly : e₀.registry.Orderly) : Unfolds e₀ env [] [] { engine := e₀, surroundings := env }
  /-- Something happens that is no turn of a run. Whatever is registered is in order. -/
  | office {past more : List Entry} {callers : List Caller} {t : Schedule} {s : Desk} (h : Unfolds e₀ env past callers t)
      (g : Desk.Goes ⟨t.engine, callers⟩ more s) (quiet : ∀ id x, .turn id x ∉ more)
      (orderly : s.engine.registry.Orderly) :
      Unfolds e₀ env (past ++ more) s.callers { t with engine := s.engine }
  | stepped {past : List Entry} {callers : List Caller} {t : Schedule} {id : String} {e : Engine} {effect : Option Effect}
      (h : Unfolds e₀ env past callers t) (hstep : t.engine.stepRun? id = some (e, effect)) :
      Unfolds e₀ env (past ++ [.turn id (.step effect)]) callers
        (effect.elim { t with engine := e } ({ t with engine := e }.follow id))
  | told {past : List Entry} {callers : List Caller} {t t' : Schedule} {id : String} {run : ActiveRun} {signal : Signal}
      (h : Unfolds e₀ env past callers t) (hr : t.engine.run? id = some run)
      (hsignal : t.signal? id run.coordinator = some signal) (htold : t.tell? id = some t') :
      Unfolds e₀ env (past ++ signal.entries id) callers t'
  | canceled {past : List Entry} {callers : List Caller} {t : Schedule} (h : Unfolds e₀ env past callers t) (id : String) :
      Unfolds e₀ env (past ++ [.turn id .cancel]) callers (t.cancel id).2
  | served {past : List Entry} {callers : List Caller} {t : Schedule} (h : Unfolds e₀ env past callers t)
      (run node : String) : Unfolds e₀ env past callers (t.serveJob run node)
  | adopted {past : List Entry} {callers : List Caller} {t : Schedule} (h : Unfolds e₀ env past callers t) :
      Unfolds e₀ env past callers t.adopt
  | passed {past : List Entry} {callers : List Caller} {t : Schedule} (h : Unfolds e₀ env past callers t) (now : Nat) :
      Unfolds e₀ env past callers { t with now }
  /-- Who is served next is open. -/
  | aside {past : List Entry} {callers : List Caller} {t : Schedule} (h : Unfolds e₀ env past callers t)
      (queue : List Work) (calls : List ToolCall) : Unfolds e₀ env past callers { t with queue, calls }

/-! ## The books -/

/-- The nodes of a run that are carried out, in the order in which they were launched. -/
def jobsOf (t : Schedule) (id : String) : List String := (t.jobs.filter (·.run = id)).map (·.launch.nodeId)

/-- The nodes of a run that have ended, and of which it is yet to be told. -/
def endedOf (t : Schedule) (id : String) : List String := (t.ended.filter (·.1 = id)).map (·.2.1)

end Schedule

/-- The outcome is what carrying out the node, as the run has launched it, has come to. Unless the run
was asked to cancel, the node was left alone. -/
def Answers (env : Surroundings) (past : List Entry) (id node : String) (outcome : Outcome) : Prop :=
  ∃ l launchedAt cancelAt, .turn id (.step (some (.launch l))) ∈ past ∧ l.nodeId = node ∧ l.Orderly ∧
    (cancelAt.isSome = true → AskedToCancel id past) ∧
    outcome = (invoke env cancelAt launchedAt l.timeout node l.activity).outcome

/-- What a job comes to, as things stand, is what carrying out its node comes to. -/
structure Job.Carries (env : Surroundings) (past : List Entry) (j : Job) : Prop where
  launched : .turn j.run (.step (some (.launch j.launch))) ∈ past
  orderly : j.launch.Orderly
  invoked : ∃ cancelAt, (cancelAt.isSome = true → AskedToCancel j.run past) ∧
    j.invocation.outcome =
      (invoke env cancelAt j.launchedAt j.launch.timeout j.launch.nodeId j.launch.activity).outcome ∧
    j.invocation.endsAt = (invoke env cancelAt j.launchedAt j.launch.timeout j.launch.nodeId j.launch.activity).endsAt

/-- The books of a schedule. -/
structure Schedule.Ledger (e₀ : Engine) (env : Surroundings) (past : List Entry) (callers : List Caller) (t : Schedule) :
    Prop where
  hosts : Engine.Hosts e₀ past ⟨t.engine, callers⟩
  furnished : Desk.Furnished past ⟨t.engine, callers⟩
  surroundings : t.surroundings = env
  limits : ∀ id deadline, (id, some deadline) ∈ t.deadlines → t.engine.config.runTimeout.isSome = true
  jobs : ∀ j ∈ t.jobs, j.Carries env past
  ended : ∀ id node report, (id, node, report) ∈ t.ended → ∃ outcome, report = some outcome ∧ Answers env past id node outcome
  told : ∀ id node outcome, .turn id (.finished node outcome) ∈ past → Answers env past id node outcome
  /-- Of each node it has launched a run has been told, or it has ended, or is carried out. -/
  conserved : ∀ id, (heardBy id past ++ (t.endedOf id ++ t.jobsOf id)).Perm (launchedBy id past)

section

variable {e₀ e : Engine} {env : Surroundings} {past more : List Entry} {callers : List Caller} {t t' : Schedule}
  {id node : String} {outcome : Outcome} {run : ActiveRun} {j : Job}

theorem Answers.append (h : Answers env past id node outcome) : Answers env (past ++ more) id node outcome := by
  obtain ⟨l, launchedAt, cancelAt, hlaunched, hnode, horderly, hasked, houtcome⟩ := h
  exact ⟨l, launchedAt, cancelAt, List.mem_append_left _ hlaunched, hnode, horderly, fun h => (hasked h).append, houtcome⟩

theorem Answers.sorted {ports : PortValues} (h : Answers env past id node (.ok ports)) : Keyed.Sorted ports := by
  obtain ⟨l, launchedAt, cancelAt, -, -, horderly, -, houtcome⟩ := h
  exact sorted_of_invoke horderly.maps houtcome.symm

namespace Job.Carries

theorem append (h : j.Carries env past) : j.Carries env (past ++ more) := by
  obtain ⟨cancelAt, hasked, hinvoked⟩ := h.invoked
  exact ⟨List.mem_append_left _ h.launched, h.orderly, cancelAt, fun h => (hasked h).append, hinvoked⟩

theorem answers (h : j.Carries env past) : Answers env past j.run j.launch.nodeId j.invocation.outcome := by
  obtain ⟨cancelAt, hasked, houtcome, -⟩ := h.invoked
  exact ⟨_, _, cancelAt, h.launched, rfl, h.orderly, hasked, houtcome⟩

theorem endsAt_le (h : j.Carries env past) (hgives : j.launch.activity.GivesWay) :
    j.invocation.endsAt ≤ j.launchedAt + j.launch.timeout := by
  obtain ⟨_, -, -, hends⟩ := h.invoked
  rw [hends]
  exact (contained ..).byTimeout hgives

/-- The run of the job is asked to cancel. -/
theorem cancelJob (h : j.Carries env past) (hasked : AskedToCancel j.run past) (now : Nat) :
    (Schedule.cancelJob env now j).Carries env past :=
  ⟨h.launched, h.orderly, some now, fun _ => hasked, rfl, rfl⟩

theorem afterCalls (h : j.Carries env past) (now : Nat) : (Schedule.afterCalls now j).Carries env past :=
  ⟨h.launched, h.orderly, h.invoked⟩

end Job.Carries

/-- A node runs if it has been started and has not ended. -/
theorem Execution.running_iff {x : Execution} {id : String} :
    x.nodeStatus? id = some .running ↔ x.HasStarted id ∧ ¬ x.HasEnded id := by
  constructor
  · intro h
    refine ⟨.inl h, fun hended => ?_⟩
    rcases hended with hended | hended <;> exact absurd (h.symm.trans hended) nofun
  · rintro ⟨h | h, hended⟩
    · exact h
    · exact absurd h hended

/-- To ask a run to cancel that is not there changes nothing. -/
theorem Engine.cancelActive_of_gone (hgone : e.run? id = none) : e.cancelActive id = e := by
  have hnone : ∀ r ∈ e.active, r.1 ≠ id := fun r hr heq =>
    List.find?_eq_none.mp (Option.map_eq_none_iff.mp hgone) r hr (beq_iff_eq.mpr heq)
  have hsame : (e.cancelActive id).active = e.active :=
    (List.map_congr_left fun r hr => if_neg (hnone r hr)).trans (List.map_id _)
  change { e with active := (e.cancelActive id).active } = e
  rw [hsame]

namespace Schedule

/-! ## What the parts of a step change -/

theorem enqueue_eq (t : Schedule) (w : Work) : ∃ queue, t.enqueue w = { t with queue } := by
  unfold enqueue
  split
  · exact ⟨t.queue, rfl⟩
  · exact ⟨_, rfl⟩

theorem enqueueAll_eq (t : Schedule) (ws : List Work) : ∃ queue, t.enqueueAll ws = { t with queue } := by
  unfold enqueueAll
  induction ws generalizing t with
  | nil => exact ⟨t.queue, rfl⟩
  | cons w rest ih =>
    obtain ⟨queue, hqueue⟩ := t.enqueue_eq w
    obtain ⟨queue', hqueue'⟩ := ih (t.enqueue w)
    refine ⟨queue', ?_⟩
    rw [List.foldl_cons, hqueue', hqueue]

/-- Taking up the runs that have been started notes when their time is up, if it ever is. -/
theorem adopt_eq (t : Schedule) : ∃ deadlines queue, t.adopt = { t with deadlines, queue } ∧
    ∀ id deadline, (id, some deadline) ∈ deadlines →
      (id, some deadline) ∈ t.deadlines ∨ t.engine.config.runTimeout.isSome = true := by
  unfold adopt
  generalize t.engine.active = runs
  induction runs generalizing t with
  | nil => exact ⟨t.deadlines, t.queue, rfl, fun _ _ h => .inl h⟩
  | cons first rest ih =>
    rw [List.foldl_cons]
    dsimp only
    by_cases hknown : t.deadlines.any (·.1 == first.1) = true
    · rw [if_pos hknown]
      exact ih t
    · rw [if_neg hknown]
      obtain ⟨queue, hqueue⟩ := enqueue_eq { t with
        deadlines := t.deadlines ++ [(first.1, t.engine.config.runTimeout.map fun secs => t.now + secs * 1000)] }
        (.run first.1)
      rw [hqueue]
      obtain ⟨deadlines, queue', heq, hnew⟩ := ih { t with
        deadlines := t.deadlines ++ [(first.1, t.engine.config.runTimeout.map fun secs => t.now + secs * 1000)], queue }
      refine ⟨deadlines, queue', heq, fun id deadline hmem => ?_⟩
      rcases hnew id deadline hmem with hmem | hlimit
      · rcases List.mem_append.mp hmem with hmem | hmem
        · exact .inl hmem
        · have hdeadline := (Prod.mk.inj (List.mem_singleton.mp hmem)).2
          exact .inr (by rw [← Option.isSome_map, ← hdeadline]; rfl)
      · exact .inr hlimit

/-- A run that is alive and was not asked before is asked to cancel, and so are its nodes. -/
theorem cancel_eq (t : Schedule) (id : String) : (t.cancel id).2 =
    if (t.engine.run? id).any (!·.canceled) then cancelRun { t with engine := t.engine.cancelActive id } id
    else { t with engine := t.engine.cancelActive id } := by
  have hengine : (t.engine.cancel id).2 = t.engine.cancelActive id := by
    change ((CancelCall.look id).advance 2 t.engine).2 = _
    cases hr : t.engine.run? id with
    | none =>
      have hlook : (CancelCall.look id).step? t.engine = some (.read id, t.engine) := by
        rw [CancelCall.step?, hr]
        rfl
      rw [CancelCall.advance, hlook, Engine.cancelActive_of_gone hr]
      rfl
    | some run =>
      have hlook : (CancelCall.look id).step? t.engine = some (.answered (.ok ()), t.engine.cancelActive id) := by
        rw [CancelCall.step?, hr]
        rfl
      rw [CancelCall.advance, hlook]
      rfl
  rw [← hengine]
  rfl

/-- A request to cancel reaches the nodes of the run, and nothing else. -/
theorem cancelRun_eq (t : Schedule) (id : String) : ∃ queue, t.cancelRun id = { t with
    jobs := t.jobs.map fun j => if j.run = id then cancelJob t.surroundings t.now j else j, queue } :=
  enqueueAll_eq _ _

theorem jobsOf_map (t : Schedule) (id : String) {f : Job → Job} (hrun : ∀ j, (f j).run = j.run)
    (hnode : ∀ j, (f j).launch.nodeId = j.launch.nodeId) : jobsOf { t with jobs := t.jobs.map f } id = t.jobsOf id := by
  simp only [jobsOf, List.filter_map, List.map_map]
  congr 1
  · exact funext fun j => hnode j
  · exact List.filter_congr fun j _ => by simp only [Function.comp_apply, hrun]

theorem jobsOf_cancelRun (t : Schedule) (id other : String) : (t.cancelRun id).jobsOf other = t.jobsOf other := by
  obtain ⟨queue, heq⟩ := t.cancelRun_eq id
  rw [heq]
  exact jobsOf_map t other (fun j => by split <;> rfl) fun j => by split <;> rfl

/-- The job of a node that is launched now. -/
def jobFor (t : Schedule) (run : String) (l : Launch) : Job :=
  { run, launch := l, launchedAt := t.now,
    invocation := invoke t.surroundings (t.cancelAt? run) t.now l.timeout l.nodeId l.activity }

theorem launch_eq (t : Schedule) (run : String) (l : Launch) :
    ∃ queue, t.launch run l = { t with jobs := t.jobs ++ [t.jobFor run l], queue } := enqueue_eq _ _

theorem jobsOf_launch (t : Schedule) (run : String) (l : Launch) (id : String) :
    (t.launch run l).jobsOf id = t.jobsOf id ++ if run = id then [l.nodeId] else [] := by
  obtain ⟨queue, heq⟩ := t.launch_eq run l
  rw [heq, jobsOf, List.filter_append, List.map_append, jobsOf]
  by_cases hid : run = id <;> simp [jobFor, hid]

theorem isJob_iff : isJob id node j = true ↔ j.run = id ∧ j.launch.nodeId = node := by
  rw [isJob, Bool.and_eq_true_iff, beq_iff_eq, beq_iff_eq]

/-- The nodes of another run are left alone when a node is taken from those that are carried out. -/
theorem jobsOf_filter (t : Schedule) (run node : String) :
    jobsOf { t with jobs := t.jobs.filter fun j => !isJob run node j } id =
      if run = id then (t.jobsOf id).filter (· != node) else t.jobsOf id := by
  have hkept : ∀ j ∈ t.jobs.filter (·.run = id),
      (!isJob run node j) = if run = id then j.launch.nodeId != node else true := by
    intro j hj
    have hrun : j.run = id := of_decide_eq_true (List.mem_filter.mp hj).2
    by_cases hid : run = id
    · simp [isJob, hrun, hid, bne]
    · simp [isJob, hrun, hid, Ne.symm hid]
  rw [jobsOf, List.filter_filter, List.filter_congr fun _ _ => Bool.and_comm _ _, ← List.filter_filter,
    List.filter_congr hkept]
  split
  · rw [jobsOf, List.filter_map]
    rfl
  · rw [List.filter_true]
    rfl

/-- One of the nodes that are carried out is taken from them. -/
theorem perm_jobsOf (t : Schedule) (hj : j ∈ t.jobs) (hnodup : (t.jobsOf id).Nodup) : (t.jobsOf id).Perm
    ((if j.run = id then [j.launch.nodeId] else []) ++
      jobsOf { t with jobs := t.jobs.filter fun k => !isJob j.run j.launch.nodeId k } id) := by
  rw [jobsOf_filter]
  by_cases hid : j.run = id
  · have hmem : j.launch.nodeId ∈ t.jobsOf id := List.mem_map.mpr ⟨j, List.mem_filter.mpr ⟨hj, decide_eq_true hid⟩, rfl⟩
    rw [if_pos hid, if_pos hid, ← hnodup.erase_eq_filter]
    exact List.perm_cons_erase hmem
  · rw [if_neg hid, if_neg hid]
    exact .refl _

/-- A node that has ended reports, and one that has not goes on. -/
theorem serveJob_eq (t : Schedule) (run node : String) :
    (∀ j ∈ t.jobs, ¬ (j.run = run ∧ j.launch.nodeId = node)) ∧ t.serveJob run node = t ∨
    ∃ j ∈ t.jobs, j.run = run ∧ j.launch.nodeId = node ∧ (j.launch.collapses = false →
      ∃ calls queue, t.serveJob run node =
        if j.invocation.endsAt ≤ t.now then
          { t with
            calls, queue,
            jobs := t.jobs.filter fun k => !isJob run node k,
            ended := t.ended ++ [(run, node, some j.invocation.outcome)] }
        else
          { t with calls, queue, jobs := t.jobs.map fun k => if isJob run node k then afterCalls t.now k else k }) := by
  unfold serveJob
  cases hfind : t.jobs.find? (isJob run node) with
  | none => exact .inl ⟨fun j hj hkey => List.find?_eq_none.mp hfind j hj (isJob_iff.mpr hkey), rfl⟩
  | some j =>
    obtain ⟨hrun, hnode⟩ := isJob_iff.mp (List.find?_some hfind)
    refine .inr ⟨j, List.mem_of_find?_eq_some hfind, hrun, hnode, fun comes => ?_⟩
    dsimp only
    rw [comes, if_neg Bool.false_ne_true]
    split
    · exact ⟨_, enqueue_eq _ _⟩
    · exact ⟨_, t.queue, rfl⟩

/-- One of those that wait is struck off. -/
theorem perm_endedOf (t : Schedule) {report : Option Outcome} {before after : List (String × String × Option Outcome)}
    (hended : t.ended = before ++ (id, node, report) :: after) (other : String) :
    (t.endedOf other).Perm ((if id = other then [node] else []) ++ endedOf { t with ended := before ++ after } other) := by
  rw [endedOf, endedOf, hended, List.filter_append, List.filter_append, List.map_append, List.map_append]
  by_cases hid : id = other
  · rw [if_pos hid, List.filter_cons, if_pos (decide_eq_true hid)]
    exact List.perm_middle
  · rw [if_neg hid, List.filter_cons_of_neg (by simpa using hid)]
    exact .refl _

/-- What a schedule tells a run that waits. -/
theorem tell?_eq_some (h : t.tell? id = some t') : ∃ run, t.engine.run? id = some run ∧
    run.coordinator.isWaiting run.canceled = true ∧
    (run.coordinator.stopping = false ∧ t.isTimeUp id = true ∧ t.signal? id run.coordinator = some .timedOut ∧
        t' = { t with engine := t.engine.signal id .timedOut } ∨
      ∃ signal node report before after, t.signal? id run.coordinator = some signal ∧
        signal = report.elim (.lost node) (.finished node) ∧ t.ended = before ++ (id, node, report) :: after ∧
        t' = { t with engine := t.engine.signal id signal, ended := before ++ after }) := by
  simp only [tell?, bind, Option.bind_eq_some_iff, guard] at h
  obtain ⟨run, hr, _, hw, signal, hsignal, h⟩ := h
  refine ⟨run, hr, ?_, ?_⟩
  · by_contra hbusy
    rw [if_neg hbusy] at hw
    cases hw
  · have hfull := hsignal
    rw [signal?] at hsignal
    split at hsignal
    next hup =>
      cases hsignal
      cases h
      rw [Bool.and_eq_true, Bool.not_eq_true'] at hup
      exact .inl ⟨hup.1, hup.2, hfull, rfl⟩
    next =>
      obtain ⟨⟨id', node, report⟩, hfind, rfl⟩ := Option.map_eq_some_iff.mp hsignal
      obtain ⟨hid, before, after, hended, hbefore⟩ := List.find?_eq_some_iff_append.mp hfind
      obtain rfl : id' = id := by simpa using hid
      -- what is struck off is what was found
      have hstruck : (t.ended.eraseP fun r => r.1 == id' && r.2.1 == node) = before ++ after := by
        rw [hended, List.eraseP_append_right, List.eraseP_cons_of_pos (by simp)]
        intro r hr
        have hother := hbefore r hr
        simp only [Bool.not_eq_true', beq_eq_false_iff_ne] at hother
        simp [hother]
      cases report with
      | none | some =>
        cases h
        exact .inr ⟨_, node, _, before, after, hfull, rfl, hended, by rw [← hstruck]⟩

/-! ## The books are kept -/

namespace Ledger

theorem nodup (h₀ : e₀.IsReady) (h : Ledger e₀ env past callers t) (id : String) :
    (heardBy id past ++ (t.endedOf id ++ t.jobsOf id)).Nodup :=
  (h.conserved id).nodup_iff.mpr (h.hosts.tallied h₀ id).launchedOnce

/-- Something happens on the engine, and what it sets in motion is put down. -/
theorem goes (h₀ : e₀.IsReady) (h : Ledger e₀ env past callers t) {s : Desk} (g : Desk.Goes ⟨t.engine, callers⟩ more s)
    (orderly : s.engine.registry.Orderly) (hengine : t'.engine = s.engine)
    (hsurroundings : t'.surroundings = t.surroundings) (hdeadlines : t'.deadlines = t.deadlines)
    (hjobs : ∀ j ∈ t'.jobs, j.Carries env (past ++ more))
    (hended : t'.ended ⊆ t.ended)
    (htold : ∀ id node outcome, .turn id (.finished node outcome) ∈ more → Answers env past id node outcome)
    (hconserved : ∀ id, (heardBy id (past ++ more) ++ (t'.endedOf id ++ t'.jobsOf id)).Perm (launchedBy id (past ++ more))) :
    Ledger e₀ env (past ++ more) s.callers t' where
  hosts := hengine ▸ h.hosts.goes g
  furnished := hengine ▸ h.furnished.goes (h.hosts.chronicle h₀) h₀.distinct g orderly
  surroundings := hsurroundings.trans h.surroundings
  limits := fun id deadline hmem => by
    rw [hengine, g.config_eq]
    exact h.limits id deadline (hdeadlines ▸ hmem)
  jobs := hjobs
  ended := fun id node report hmem => by
    obtain ⟨outcome, hreport, hanswers⟩ := h.ended id node report (hended hmem)
    exact ⟨outcome, hreport, hanswers.append⟩
  told := fun id node outcome hmem =>
    (List.mem_append.mp hmem).elim (fun hbefore => (h.told id node outcome hbefore).append)
      fun hnow => (htold id node outcome hnow).append
  conserved := hconserved

/-- Whatever is registered is in order after every turn. -/
theorem orderly (h : Ledger e₀ env past callers t) {x : Happening} (m : t.engine.Moves id x e)
    (happens : x ≠ .elsewhere) : e.registry.Orderly := by
  rw [(m.settings_eq happens).2]
  exact h.furnished.registry

/-- A turn that neither launches a node nor tells of one leaves the nodes as they are. -/
theorem quietly (h₀ : e₀.IsReady) (h : Ledger e₀ env past callers t) {x : Happening} (m : t.engine.Moves id x e)
    (happens : x ≠ .elsewhere) (hlaunched : x.launched? = none) (hheard : x.heard? = none) (hengine : t'.engine = e)
    (hsurroundings : t'.surroundings = t.surroundings) (hdeadlines : t'.deadlines = t.deadlines)
    (hjobs : ∀ j ∈ t'.jobs, j.Carries env (past ++ [.turn id x])) (hsame : ∀ id, t'.jobsOf id = t.jobsOf id)
    (hended : t'.ended = t.ended) : Ledger e₀ env (past ++ [.turn id x]) callers t' := by
  have hunheard : ∀ node outcome, x ≠ .finished node outcome := fun node outcome heq => by
    rw [heq] at hheard
    cases hheard
  refine h.goes h₀ (.turn m happens fun node ports heq => absurd heq (hunheard node _)) (h.orderly m happens) hengine
    hsurroundings hdeadlines hjobs (fun _ hmem => hended ▸ hmem) (fun other node outcome hmem => ?_) fun other => ?_
  · cases List.mem_singleton.mp hmem
    exact absurd rfl (hunheard node outcome)
  · have hstill : (heardBy other (past ++ [.turn id x])) = heardBy other past ∧
        launchedBy other (past ++ [.turn id x]) = launchedBy other past := by
      by_cases hid : id = other
      · subst hid
        rw [heardBy_turn, launchedBy_turn, hheard, hlaunched]
        exact ⟨List.append_nil _, List.append_nil _⟩
      · exact ⟨heardBy_other hid, launchedBy_other hid⟩
    rw [hstill.1, hstill.2, hsame, endedOf, hended]
    exact h.conserved other

/-- What is carried out stays so while its run takes a turn. -/
theorem jobs_append (h : Ledger e₀ env past callers t) : ∀ j ∈ t.jobs, j.Carries env (past ++ more) :=
  fun j hj => (h.jobs j hj).append

/-- What a run has launched is put down among what is carried out. -/
theorem launch (h₀ : e₀.IsReady) (h : Ledger e₀ env past callers t) {l : Launch}
    (hstep : t.engine.stepRun? id = some (e, some (.launch l))) :
    Ledger e₀ env (past ++ [.turn id (.step (some (.launch l)))]) callers
      (Schedule.launch { t with engine := e } id l) := by
  have m := Engine.Moves.step hstep
  have g : Desk.Goes ⟨t.engine, callers⟩ [.turn id (.step (some (.launch l)))] ⟨e, callers⟩ := .turn m nofun nofun
  obtain ⟨run, c, hr, hc, -⟩ := Engine.stepRun?_eq_some hstep
  obtain ⟨rest, herrands⟩ := (Coordinator.turn_of_step? hc).launch_eq
  have horderly := (h.furnished.runs id run hr).launches l (herrands ▸ List.mem_cons_self)
  -- a run whose nodes are canceled when they are launched has been asked to cancel
  have hasked : ∀ c, cancelAt? { t with engine := e } id = some c →
      AskedToCancel id (past ++ [.turn id (.step (some (.launch l)))]) := by
    intro c hcanceled
    rw [cancelAt?, Option.ite_none_right_eq_some] at hcanceled
    obtain ⟨after, hafter, hcanceled⟩ := (Option.any_eq_true _ _).mp hcanceled.1
    cases (h.hosts.goes g).tallied h₀ id with
    | before gone | after _ gone => exact absurd (gone.symm.trans hafter) nofun
    | alive hr' _ asked =>
      cases hr'.symm.trans hafter
      exact asked hcanceled
  have hjob : (jobFor { t with engine := e } id l).Carries env (past ++ [.turn id (.step (some (.launch l)))]) := by
    refine ⟨List.mem_append_right _ (List.mem_singleton.mpr rfl), horderly, cancelAt? { t with engine := e } id,
      fun hsome => ?_, by rw [← h.surroundings]; rfl, by rw [← h.surroundings]; rfl⟩
    obtain ⟨c, hc⟩ := Option.isSome_iff_exists.mp hsome
    exact hasked c hc
  have hjobs := jobsOf_launch { t with engine := e } id l
  obtain ⟨queue, heq⟩ := launch_eq { t with engine := e } id l
  rw [heq] at hjobs ⊢
  refine h.goes h₀ g (h.orderly m nofun) rfl rfl rfl
    (List.forall_mem_append.mpr ⟨h.jobs_append, List.forall_mem_singleton.mpr hjob⟩)
    (fun _ hmem => hmem) (fun _ _ _ hmem => by cases List.mem_singleton.mp hmem) fun other => ?_
  rw [hjobs]
  by_cases hid : id = other
  · subst hid
    have hheard : heardBy id (past ++ [.turn id (.step (some (.launch l)))]) = heardBy id past :=
      heardBy_turn.trans (List.append_nil _)
    have hall := (h.conserved id).append_right [l.nodeId]
    rw [List.append_assoc, List.append_assoc] at hall
    rw [hheard, launchedBy_turn, if_pos rfl]
    exact hall
  · rw [heardBy_other hid, launchedBy_other hid, if_neg hid, List.append_nil]
    exact h.conserved other

/-- A request to cancel is put down with the nodes of the run. -/
theorem cancelRun (h₀ : e₀.IsReady) (h : Ledger e₀ env past callers t) {x : Happening} (m : t.engine.Moves id x e)
    (happens : x ≠ .elsewhere) (hlaunched : x.launched? = none) (hheard : x.heard? = none) (hasks : x.asksToCancel = true) :
    Ledger e₀ env (past ++ [.turn id x]) callers (Schedule.cancelRun { t with engine := e } id) := by
  have hsame := fun other => jobsOf_cancelRun { t with engine := e } id other
  obtain ⟨queue, heq⟩ := cancelRun_eq { t with engine := e } id
  rw [heq] at hsame ⊢
  refine h.quietly h₀ m happens hlaunched hheard rfl rfl rfl (fun j hj => ?_) hsame rfl
  obtain ⟨k, hk, rfl⟩ := List.mem_map.mp hj
  have hcarries : k.Carries env (past ++ [.turn id x]) := h.jobs_append k hk
  split
  next hrun =>
    rw [h.surroundings]
    exact hcarries.cancelJob ⟨x, hrun ▸ List.mem_append_right _ (List.mem_singleton.mpr rfl), hasks⟩ _
  next => exact hcarries

theorem stepped (h₀ : e₀.IsReady) (h : Ledger e₀ env past callers t) {effect : Option Effect}
    (hstep : t.engine.stepRun? id = some (e, effect)) : Ledger e₀ env (past ++ [.turn id (.step effect)]) callers
      (effect.elim { t with engine := e } (Schedule.follow { t with engine := e } id)) := by
  have m := Engine.Moves.step hstep
  cases effect with
  | none => exact h.quietly h₀ m nofun rfl rfl rfl rfl rfl h.jobs_append (fun _ => rfl) rfl
  | some f =>
    cases f with
    | launch l => exact h.launch h₀ hstep
    | cancel => exact h.cancelRun h₀ m nofun rfl rfl rfl
    | request q =>
      obtain ⟨queue, heq⟩ := enqueue_eq { t with engine := e } .requests
      rw [Option.elim_some, follow, heq]
      exact h.quietly h₀ m nofun rfl rfl rfl rfl rfl h.jobs_append (fun _ => rfl) rfl
    | save | saveNode | emit | signalDone | leave =>
      exact h.quietly h₀ m nofun rfl rfl rfl rfl rfl h.jobs_append (fun _ => rfl) rfl

theorem canceled (h₀ : e₀.IsReady) (h : Ledger e₀ env past callers t) (id : String) :
    Ledger e₀ env (past ++ [.turn id .cancel]) callers (t.cancel id).2 := by
  rw [cancel_eq]
  split
  · exact h.cancelRun h₀ .cancel nofun rfl rfl rfl
  · exact h.quietly h₀ .cancel nofun rfl rfl rfl rfl rfl h.jobs_append (fun _ => rfl) rfl

/-- The nodes that a run waits for are about to be launched, are carried out, or have ended. -/
theorem inFlight (h₀ : e₀.IsReady) (h : Ledger e₀ env past callers t) (hr : t.engine.run? id = some run) :
    run.coordinator.inFlight.Perm
      (run.coordinator.errands.filterMap Errand.launched? ++ (t.endedOf id ++ t.jobsOf id)) := by
  have hsound := ((h.hosts.chronicle h₀).mirrored hr).1
  have hconserved := h.conserved id
  cases h.hosts.tallied h₀ id with
  | before gone | after _ gone => exact absurd (gone.symm.trans hr) nofun
  | alive hr' tally =>
    cases hr'.symm.trans hr
    have hlaunchedOnce := tally.launchedOnce
    have hlaunched := tally.launched
    have hfinished := tally.finished
    rw [launches_lifeOf] at hlaunchedOnce hlaunched
    rw [finishes_lifeOf] at hfinished
    generalize run.coordinator.errands.filterMap Errand.launched? = pending at hlaunchedOnce hlaunched ⊢
    generalize t.endedOf id ++ t.jobsOf id = waiting at hconserved ⊢
    have hall : (pending ++ (heardBy id past ++ waiting)).Nodup :=
      (List.perm_append_comm.trans (hconserved.append_right pending)).nodup_iff.mpr hlaunchedOnce
    obtain ⟨hpending, hrest, hapart⟩ := List.nodup_append.mp hall
    obtain ⟨-, hwaiting, hheard⟩ := List.nodup_append.mp hrest
    refine (List.perm_ext_iff_of_nodup hsound.flyingOnce (List.nodup_append.mpr ⟨hpending, hwaiting,
      fun x hx y hy => hapart x hx y (List.mem_append_right _ hy)⟩)).mpr fun x => ?_
    rw [hsound.flying, Execution.running_iff, ← hlaunched x, ← hfinished x, List.mem_append, ← hconserved.mem_iff,
      List.mem_append, List.mem_append]
    constructor
    · rintro ⟨(hx | hx) | hx, hunheard⟩
      · exact absurd hx hunheard
      · exact .inr hx
      · exact .inl hx
    · rintro (hx | hx)
      · exact ⟨.inr hx, fun hbefore => hapart x hx x (List.mem_append_left _ hbefore) rfl⟩
      · exact ⟨.inl (.inr hx), fun hbefore => hheard x hbefore x hx rfl⟩

/-- A run is told of a node that has ended, or that its time is up. -/
theorem tells (h₀ : e₀.IsReady) (h : Ledger e₀ env past callers t) (hr : t.engine.run? id = some run) {signal : Signal}
    (hsignal : t.signal? id run.coordinator = some signal) (htold : t.tell? id = some t') :
    Ledger e₀ env (past ++ signal.entries id) callers t' := by
  obtain ⟨run', hr', hw, ⟨going, hup, hwhat, rfl⟩ | ⟨_, node, report, before, after, hwhat, hfor, hended, rfl⟩⟩ :=
    tell?_eq_some htold
  · cases hr'.symm.trans hr
    cases hwhat.symm.trans hsignal
    obtain ⟨⟨id', deadline⟩, hmem, hdue⟩ := List.any_eq_true.mp hup
    obtain ⟨_, hdue⟩ := Bool.and_eq_true_iff.mp hdue
    have limit : run.coordinator.config.runTimeout.isSome = true := by
      rw [(h.furnished.runs id _ hr).config]
      cases deadline with
      | none => cases hdue
      | some at_ => exact h.limits id' at_ hmem
    exact h.quietly h₀ (.timeUp hr hw going limit) nofun rfl rfl rfl rfl rfl h.jobs_append (fun _ => rfl) rfl
  · cases hr'.symm.trans hr
    cases hwhat.symm.trans hsignal
    have hmem : (id, node, report) ∈ t.ended := hended ▸ List.mem_append_right _ List.mem_cons_self
    obtain ⟨outcome, rfl, hanswers⟩ := h.ended id node report hmem
    obtain rfl : signal = .finished node outcome := hfor
    have hwaits : node ∈ t.endedOf id := List.mem_map.mpr ⟨_, List.mem_filter.mpr ⟨hmem, decide_eq_true rfl⟩, rfl⟩
    have flying : node ∈ run.coordinator.inFlight :=
      (h.inFlight h₀ hr).mem_iff.mpr (List.mem_append_right _ (List.mem_append_left _ hwaits))
    have m : t.engine.Moves id (.finished node outcome) (t.engine.signal id (.finished node outcome)) :=
      .finished hr hw flying
    have ports : ∀ n out, Happening.finished node outcome = .finished n (.ok out) → Keyed.Sorted out := by
      rintro n out heq
      cases heq
      exact hanswers.sorted
    refine h.goes h₀ (.turn m nofun ports) (h.orderly m nofun) rfl rfl rfl h.jobs_append
      (fun _ hx => hended ▸ ?_) ?_ fun other => ?_
    · rcases List.mem_append.mp hx with hx | hx
      · exact List.mem_append_left _ hx
      · exact List.mem_append_right _ (List.mem_cons_of_mem _ hx)
    · intro id' node' outcome' hnow
      cases List.mem_singleton.mp hnow
      exact hanswers
    · have hlaunched : launchedBy other (past ++ [.turn id (.finished node outcome)]) = launchedBy other past := by
        rw [launchedBy_append, launchedBy_finished, List.append_nil]
      have hstill := ((t.perm_endedOf hended other).append_right (t.jobsOf other)).append_left (heardBy other past)
      change (heardBy other (past ++ [.turn id (.finished node outcome)]) ++ _).Perm
        (launchedBy other (past ++ [.turn id (.finished node outcome)]))
      rw [hlaunched, heardBy_append, heardBy_finished, List.append_assoc]
      rw [List.append_assoc] at hstill
      exact hstill.symm.trans (h.conserved other)

/-- A node that has ended waits for its run to be told. -/
theorem served (h₀ : e₀.IsReady) (h : Ledger e₀ env past callers t) (run node : String) :
    Ledger e₀ env past callers (t.serveJob run node) := by
  rcases t.serveJob_eq run node with ⟨-, heq⟩ | ⟨j, hj, rfl, rfl, hserved⟩
  · rw [heq]
    exact h
  · obtain ⟨calls, queue, heq⟩ := hserved (h.jobs j hj).orderly.comes
    rw [heq]
    split
    · refine { h with jobs := ?_, ended := ?_, conserved := fun id => ?_ }
      · exact fun k hk => h.jobs k (List.mem_filter.mp hk).1
      · refine fun id node report hmem => (List.mem_append.mp hmem).elim (h.ended id node report) fun hnew => ?_
        cases List.mem_singleton.mp hnew
        exact ⟨_, rfl, (h.jobs j hj).answers⟩
      · have hjobs := t.perm_jobsOf hj (List.nodup_append.mp (List.nodup_append.mp (h.nodup h₀ id)).2.1).2.1
        refine (List.Perm.append_left _ ?_).trans (h.conserved id)
        rw [endedOf, List.filter_append, List.map_append, List.append_assoc]
        refine List.Perm.append_left _ (List.Perm.trans ?_ hjobs.symm)
        by_cases hid : j.run = id
        · rw [if_pos hid, List.filter_cons, if_pos (decide_eq_true hid)]
          exact .refl _
        · rw [if_neg hid, List.filter_cons, if_neg (by simpa using hid)]
          exact .refl _
    · refine { h with jobs := fun k hk => ?_, conserved := fun id => ?_ }
      · obtain ⟨k, hk', rfl⟩ := List.mem_map.mp hk
        split
        · exact (h.jobs k hk').afterCalls _
        · exact h.jobs k hk'
      · have hjobs := jobsOf_map t id
          (f := fun k => if isJob j.run j.launch.nodeId k then afterCalls t.now k else k)
          (fun k => by split <;> rfl) fun k => by split <;> rfl
        change (_ ++ (t.endedOf id ++ jobsOf { t with
          jobs := t.jobs.map fun k => if isJob j.run j.launch.nodeId k then afterCalls t.now k else k } id)).Perm _
        rw [hjobs]
        exact h.conserved id

/-- The time of a run that is taken up is limited if that of all runs is. -/
theorem adopted (h : Ledger e₀ env past callers t) : Ledger e₀ env past callers t.adopt := by
  obtain ⟨deadlines, queue, heq, hnew⟩ := t.adopt_eq
  rw [heq]
  exact { h with
    limits := fun id deadline hmem => (hnew id deadline hmem).elim (h.limits id deadline) fun hlimit => hlimit }

theorem office (h₀ : e₀.IsReady) (h : Ledger e₀ env past callers t) {s : Desk}
    (g : Desk.Goes ⟨t.engine, callers⟩ more s) (quiet : ∀ id x, .turn id x ∉ more)
    (orderly : s.engine.registry.Orderly) : Ledger e₀ env (past ++ more) s.callers { t with engine := s.engine } := by
  refine h.goes h₀ g orderly rfl rfl rfl h.jobs_append (fun _ hmem => hmem)
    (fun _ _ _ hmem => absurd hmem (quiet _ _)) fun id => ?_
  rw [heardBy_append, heardBy_of_quiet fun x hx => absurd hx (quiet id x), List.append_nil, launchedBy_append,
    launchedBy_of_quiet fun x hx => absurd hx (quiet id x), List.append_nil]
  exact h.conserved id

theorem opens (h₀ : e₀.IsReady) (orderly : e₀.registry.Orderly) :
    Ledger e₀ env [] [] { engine := e₀, surroundings := env } where
  hosts := .opens
  furnished := .opens h₀ orderly
  surroundings := rfl
  limits := nofun
  jobs := List.forall_mem_nil _
  ended := nofun
  told := nofun
  conserved := fun _ => .refl _

end Ledger

/-- The books are right at every point. -/
theorem Unfolds.ledger (h₀ : e₀.IsReady) (h : Unfolds e₀ env past callers t) : Ledger e₀ env past callers t := by
  induction h with
  | opens orderly => exact .opens h₀ orderly
  | office _ g quiet orderly ih => exact ih.office h₀ g quiet orderly
  | stepped _ hstep ih => exact ih.stepped h₀ hstep
  | told _ hr hsignal htold ih => exact ih.tells h₀ hr hsignal htold
  | canceled _ id ih => exact ih.canceled h₀ id
  | served _ run node ih => exact ih.served h₀ run node
  | adopted _ ih => exact ih.adopted
  | passed _ _ ih => exact { ih with }
  | aside _ _ _ ih => exact { ih with }

end Schedule
end
end Workflows
