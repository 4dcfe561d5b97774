/-
  Workflows.Proofs.Run.Culprit — the node that is blamed for the end of a run.

  A run that ends in error blames the node that failed first, whenever that was
  (`Lives.firstFailure_eq`). If the run came to its end by itself its error is the summary of that
  very failure. If its time was up its error says so, and no failure has that summary
  (`timeoutText_ne_failureText`); but a node that had failed before, or that fails while the
  others are waited for, is blamed all the same. So the node that is blamed is the one that the
  error is about unless the time was up and some node has failed (`blamesFirst`), and in a run
  where both happened the request for the handler names a node under a message that is not about
  it (`Overdue.blames_another`).
-/

import Workflows.Proofs.Engine.Chains
import Workflows.Proofs.Run.Serial
import Workflows.Proofs.Run.Told

namespace Workflows

/-- The result of the node says that it failed with this error. -/
def Execution.FailedWith (e : Execution) (node : String) (f : NodeError) : Prop :=
  ∃ result, e.node? node = some result ∧ result.status = .error ∧ result.error = some f

namespace Coordinator

/-- The first characters tell the two apart. -/
theorem timeoutText_ne_failureText (seconds : Nat) (node : String) (f : NodeError) :
    timeoutText seconds ≠ failureText node f := by
  unfold timeoutText failureText
  intro heq
  have hhead := congrArg (fun text : String => text.toList.head?) heq
  have htimeout : (toString "Workflow timed out after ").toList.head? = some 'W' := by decide
  have hfailure : (toString "Node '").toList.head? = some 'N' := by decide
  simp only [String.toList_append, List.head?_append, htimeout, hfailure, Option.some_or] at hhead
  exact absurd hhead (by decide)

end Coordinator

namespace Engine

/-- The failure that the run is told of. -/
def Moment.fault? (m : Moment) : Option (String × NodeError) :=
  match m.happening with
  | .finished node (.error f) => some (node, f)
  | _ => none

/-- The failures that a run has been told of, in order. -/
def faults (past : List Moment) : List (String × NodeError) := past.filterMap Moment.fault?

/-- The node that an error is about: the first whose failure it sums up. -/
def subject? (past : List Moment) (error : Option String) : Option String :=
  ((faults past).find? fun x => error = some (Coordinator.failureText x.1 x.2)).map (·.1)

/-- The run has been told that its time was up. -/
def TimedOut (past : List Moment) : Prop := ∃ m ∈ past, m.happening = .timeUp

variable {r : StartRequest} {p : Plan} {id : String} {e₀ e : Engine} {past : List Moment} {m : Moment} {run : ActiveRun}
  {node : String} {f : NodeError}

theorem faults_append : faults (past ++ [m]) = faults past ++ m.fault?.toList := by
  simp only [faults, List.filterMap_append]
  cases h : m.fault? <;> simp [h]

theorem mem_faults : (node, f) ∈ faults past ↔ ∃ e, ⟨e, .finished node (.error f)⟩ ∈ past := by
  rw [faults, List.mem_filterMap]
  constructor
  · intro hex
    obtain ⟨⟨e, happening⟩, hmem, hfault⟩ := hex
    unfold Moment.fault? at hfault
    split at hfault
    next heq => cases hfault; cases heq; exact ⟨e, hmem⟩
    next => cases hfault
  · intro hex
    obtain ⟨e, hmem⟩ := hex
    exact ⟨_, hmem, rfl⟩

theorem map_fst_faults : (faults past).map (·.1) = failures past := by
  rw [faults, failures, List.map_filterMap]
  refine congrArg (List.filterMap · past) (funext fun m => ?_)
  obtain ⟨e, x⟩ := m
  cases x with
  | finished node outcome => cases outcome <;> rfl
  | step | cancel | timeUp | elsewhere => rfl

theorem faults_eq_nil : faults past = [] ↔ failures past = [] := by
  rw [← map_fst_faults, List.map_eq_nil_iff]

/-- The failure that is blamed is the first that the run has been told of. -/
theorem Lives.firstFailure_eq (h₀ : Enters r p id e₀) (h : Lives id e₀ past e) (hr : e.run? id = some run) :
    run.coordinator.firstFailure = (faults past).head? := by
  refine h.induction (motive := fun past run => run.coordinator.firstFailure = (faults past).head?) h₀ hr
    (fun _ _ _ _ => rfl) fun past e x run run' _ _ hfirst _ ha _ _ => ?_
  generalize run'.coordinator = c' at ha ⊢
  rw [faults_append]
  cases ha with
  | failed =>
    rw [List.head?_append, ← hfirst]
    cases run.coordinator.firstFailure <;> rfl
  | errand | passed | skipped | stopped | started | ended | timedOut | succeeded | canceled | elsewhere =>
    exact hfirst.trans (congrArg List.head? (List.append_nil _).symm)

/-- What the run has been told of is what the results say. -/
theorem Lives.mem_faults_iff (h₀ : Enters r p id e₀) (h : Lives id e₀ past e) (hr : e.run? id = some run) :
    (node, f) ∈ faults past ↔ run.coordinator.execution.FailedWith node f := by
  obtain ⟨results, hshows, haccounted⟩ := h.accounted h₀ hr
  have hrecorded : ∀ {node f}, (node, f) ∈ faults past → run.coordinator.execution.FailedWith node f := by
    intro node f hmem
    obtain ⟨e₁, hmem⟩ := mem_faults.mp hmem
    obtain ⟨⟨t, t', hresult⟩, -⟩ := haccounted.finished e₁ node _ hmem
    rw [Execution.FailedWith, Execution.node?, hshows.nodes]
    split
    · exact ⟨_, (Keyed.get?_mapValues _ _ _).trans (congrArg _ hresult), rfl, rfl⟩
    · exact ⟨_, hresult, rfl, rfl⟩
  refine ⟨hrecorded, fun hfailed => ?_⟩
  obtain ⟨result, hresult, hstatus, herror⟩ := hfailed
  have hnode := (h.mem_failures_iff h₀ hr node).mpr (Execution.nodeStatus?_eq_some.mpr ⟨result, hresult, hstatus⟩)
  rw [← map_fst_faults] at hnode
  obtain ⟨⟨node', f'⟩, hmem, rfl⟩ := List.mem_map.mp hnode
  -- a node has one result, so the failure it was told of is the one there
  obtain ⟨result', hresult', -, herror'⟩ := hrecorded hmem
  cases hresult.symm.trans hresult'
  cases herror.symm.trans herror'
  exact hmem

/-- A run whose time was up has the text that says so for its error. -/
theorem Lives.error_of_timedOut (h₀ : Enters r p id e₀) (h : Lives id e₀ past e) (hr : e.run? id = some run)
    (hup : TimedOut past) : ∃ seconds, run.coordinator.config.runTimeout = some seconds ∧
      run.coordinator.execution.error = some (Coordinator.timeoutText seconds) := by
  obtain ⟨⟨e₁, happening⟩, hmem, hup⟩ := hup
  cases hup
  obtain ⟨before, after, rfl⟩ := List.append_of_mem hmem
  obtain ⟨e₂, hbefore, hmoves, hafter⟩ := h.split
  have hstops : Moment.stops id ⟨e₁, .timeUp⟩ = true := rfl
  obtain ⟨run₁, hr₁⟩ := hmoves.exists_run_of_stops hstops
  have hstopped := (stopsForGood h₀ hbefore hr₁ hmoves hstops hafter).stopped run hr
  obtain ⟨-, -, seconds, hlimit, herror⟩ := hstopped.timedOut rfl
  obtain ⟨-, types, config, record, -, hrun₀, -⟩ := h₀.spec
  refine ⟨seconds, ?_, herror⟩
  rw [h.config_eq hrun₀ hr, ← hbefore.config_eq hrun₀ hr₁]
  exact hlimit

/-- Unless its time was up, a run that has ended in error did so for the first failure. -/
theorem Lives.error_in_time (h₀ : Enters r p id e₀) (h : Lives id e₀ past e) (hr : e.run? id = some run)
    (hclosing : run.coordinator.closing = true) (herror : run.coordinator.execution.status = .error)
    (hup : ¬ TimedOut past) : ∃ node f rest, faults past = (node, f) :: rest ∧
      run.coordinator.execution.error = some (Coordinator.failureText node f) := by
  have hgo : run.coordinator.stopping = false := Bool.eq_false_iff.mpr fun hstop => by
    rcases h.stopped_by h₀ hr hstop with hcanceled | htime
    · exact absurd (herror.symm.trans hcanceled) nofun
    · exact hup htime
  have hnamed := (h.blames h₀ hr).named hclosing hgo
  have hverdict := (h.runs h₀ hr).sound.verdict hclosing hgo
  rw [h.firstFailure_eq h₀ hr] at hnamed hverdict
  cases hfaults : faults past with
  | nil =>
    rw [hfaults] at hverdict
    exact absurd (herror.symm.trans hverdict) nofun
  | cons fault rest =>
    rw [hfaults] at hnamed
    exact ⟨fault.1, fault.2, rest, rfl, hnamed⟩

theorem subject?_of_first {rest : List (String × NodeError)} (h : faults past = (node, f) :: rest) :
    subject? past (some (Coordinator.failureText node f)) = some node := by
  have hsame : decide (some (Coordinator.failureText node f) = some (Coordinator.failureText node f)) = true :=
    decide_eq_true rfl
  rw [subject?, h, List.find?_cons, hsame]
  rfl

theorem subject?_timeoutText (seconds : Nat) : subject? past (some (Coordinator.timeoutText seconds)) = none := by
  rw [subject?, Option.map_eq_none_iff, List.find?_eq_none]
  intro x _ hsame
  exact Coordinator.timeoutText_ne_failureText seconds x.1 x.2 (Option.some.inj (of_decide_eq_true hsame))

/-- The end of a run in error, and the node that is blamed for it. -/
structure Culprit (past : List Moment) (c : Coordinator) : Prop where
  first : c.failedNode? = (failures past).head?
  /-- A run that ends in error by itself does so for the failure of the node it blames. -/
  inTime : ¬ TimedOut past → ∃ node f, c.failedNode? = some node ∧ c.execution.FailedWith node f ∧
    c.execution.error = some (Coordinator.failureText node f)
  timedOut : TimedOut past → ∃ seconds, c.config.runTimeout = some seconds ∧
    c.execution.error = some (Coordinator.timeoutText seconds) ∧ subject? past c.execution.error = none
  /-- The node that is blamed is the one that the error is about, unless the time was up and a
  node has failed. -/
  describes : c.failedNode? = subject? past c.execution.error ↔ (TimedOut past → failures past = [])
  /-- Where no two nodes have failures of the same summary, this is so of any summary. -/
  exactly : (∀ x f y g, c.execution.FailedWith x f → c.execution.FailedWith y g →
      Coordinator.failureText x f = Coordinator.failureText y g → x = y) →
    ((∀ node, c.failedNode? = some node ↔
        ∃ f, c.execution.FailedWith node f ∧ c.execution.error = some (Coordinator.failureText node f)) ↔
      (TimedOut past → failures past = []))
  /-- What the handler is told is the error and the node. -/
  asked : ∀ q ∈ Engine.asked past ++ c.toAsk,
    (q.trigger.member "error").member "message" = .ofOption .string c.execution.error ∧
      (q.trigger.member "error").member "nodeId" = .ofOption .string c.failedNode?

theorem tells_of_errorRequest? {c : Coordinator} {q : ErrorRequest} (h : c.errorRequest? = some q) :
    (q.trigger.member "error").member "message" = .ofOption .string c.execution.error ∧
      (q.trigger.member "error").member "nodeId" = .ofOption .string c.failedNode? := by
  obtain ⟨hstatus, -⟩ := Coordinator.errorRequest?_eq_some h
  simp only [Coordinator.errorRequest?, hstatus, ne_eq, not_true_eq_false, if_false] at h
  split at h
  · cases h
  next workflow _ =>
    split at h
    · cases h
    · cases h
      exact ⟨rfl, rfl⟩

/-- A run that ends in error blames the node that failed first; that is the node its error is about
unless its time was up and some node has failed. -/
theorem blamesFirst (h₀ : Enters r p id e₀) (h : Lives id e₀ past e) (hr : e.run? id = some run)
    (hclosing : run.coordinator.closing = true) (herror : run.coordinator.execution.status = .error) :
    Culprit past run.coordinator := by
  have hblamed : run.coordinator.failedNode? = (faults past).head?.map (·.1) := by
    rw [Coordinator.failedNode?, if_pos herror, h.firstFailure_eq h₀ hr]
  have hnobody : run.coordinator.failedNode? = none ↔ failures past = [] := by
    rw [hblamed, Option.map_eq_none_iff, List.head?_eq_none_iff, faults_eq_nil]
  refine
    { first := ?first
      inTime := fun hup => ?inTime
      timedOut := fun hup => ?timedOut
      describes := ?describes
      exactly := fun hdiffer => ?exactly
      asked := fun q hq => ?asked }
  case first =>
    rw [hblamed, ← map_fst_faults, List.head?_map]
  case inTime =>
    obtain ⟨node, f, rest, hfaults, htext⟩ := h.error_in_time h₀ hr hclosing herror hup
    refine ⟨node, f, by rw [hblamed, hfaults]; rfl, (h.mem_faults_iff h₀ hr).mp ?_, htext⟩
    rw [hfaults]
    exact List.mem_cons_self
  case timedOut =>
    obtain ⟨seconds, hlimit, htext⟩ := h.error_of_timedOut h₀ hr hup
    exact ⟨seconds, hlimit, htext, htext ▸ subject?_timeoutText seconds⟩
  case describes =>
    by_cases hup : TimedOut past
    · obtain ⟨seconds, -, htext⟩ := h.error_of_timedOut h₀ hr hup
      rw [htext, subject?_timeoutText, hnobody]
      exact ⟨fun hnil _ => hnil, fun hnil => hnil hup⟩
    · obtain ⟨node, f, rest, hfaults, htext⟩ := h.error_in_time h₀ hr hclosing herror hup
      refine iff_of_true ?_ fun htime => absurd htime hup
      rw [hblamed, htext, subject?_of_first hfaults, hfaults]
      rfl
  case exactly =>
    by_cases hup : TimedOut past
    · obtain ⟨seconds, -, htext⟩ := h.error_of_timedOut h₀ hr hup
      -- no failure is what this error is about
      have hother : ∀ node, ¬ ∃ f, run.coordinator.execution.FailedWith node f ∧
          run.coordinator.execution.error = some (Coordinator.failureText node f) := by
        intro node hex
        obtain ⟨f, -, hsame⟩ := hex
        exact Coordinator.timeoutText_ne_failureText seconds node f (Option.some.inj (htext.symm.trans hsame))
      rw [forall_congr' fun node => iff_false_right (hother node), ← Option.eq_none_iff_forall_ne_some, hnobody]
      exact ⟨fun hnil _ => hnil, fun hnil => hnil hup⟩
    · obtain ⟨node, f, rest, hfaults, htext⟩ := h.error_in_time h₀ hr hclosing herror hup
      have hfailed : run.coordinator.execution.FailedWith node f :=
        (h.mem_faults_iff h₀ hr).mp (hfaults ▸ List.mem_cons_self)
      refine iff_of_true (fun other => ?_) fun htime => absurd htime hup
      rw [hblamed, hfaults]
      constructor
      · intro heq
        cases heq
        exact ⟨f, hfailed, htext⟩
      · intro hex
        obtain ⟨g, hg, hsame⟩ := hex
        exact congrArg some (hdiffer node f other g hfailed hg (Option.some.inj (htext.symm.trans hsame)))
  case asked =>
    rw [h.asked_eq h₀ hr, hclosing, if_pos rfl, Option.mem_toList] at hq
    exact tells_of_errorRequest? hq

end Engine

/-! ## A failure, and then the time is up -/

namespace Overdue

/-- Two nodes that do not wait for each other. -/
def definition : Definition :=
  { name := "overdue", nodes := [{ id := "a", type := "merge" }, { id := "b", type := "merge" }],
    settings := { errorWorkflow := some "handler" } }

def plan : Plan :=
  { order := ["a", "b"], roots := ["a", "b"], producers := [("a", []), ("b", [])], consumers := [("a", []), ("b", [])] }

def engine : Engine :=
  { config := { runTimeout := some 60 }, registry := [("merge", NodeType.merge)], ids := { run := fun _ => "run" } }

/-- The engine that has entered a run. -/
def entered : Engine := (engine.startDefinition definition .null none).2

theorem enters : Engine.Enters ⟨definition, .null, none⟩ plan "run" entered :=
  .of_startDefinition (e := engine) rfl rfl rfl

/-- One node fails while the other goes on. -/
def failed : List Engine.Moment × Engine := Engine.runNode "run" "a" (.error (.failed "boom")) 8 2 entered

theorem lives_failed : Engine.Lives "run" entered failed.1 failed.2 := Engine.Lives.runNode (by decide +kernel)

/-- The other one ends as well, and the run asks for its handler. -/
def ended : List Engine.Moment × Engine :=
  let second := Engine.runNode "run" "b" (.ok [("main", .null)]) 0 6 failed.2
  (failed.1 ++ second.1, second.2)

/-- Its time is up before the other one ends. -/
def overdue : List Engine.Moment × Engine :=
  let second := Engine.runNode "run" "b" (.ok [("main", .null)]) 2 6 (failed.2.signal "run" .timedOut)
  (failed.1 ++ [⟨failed.2, .timeUp⟩] ++ second.1, second.2)

theorem lives_ended : Engine.Lives "run" entered ended.1 ended.2 :=
  lives_failed.append (.runNode (by decide +kernel))

theorem lives_overdue : Engine.Lives "run" entered overdue.1 overdue.2 :=
  (lives_failed.next (.timeUp rfl rfl rfl rfl)).append (.runNode (by decide +kernel))

/-- In time, its error is the summary of the failure of the node it blames. -/
theorem blamesFirst_ended : ∃ run, ended.2.run? "run" = some run ∧
    run.coordinator.closing = true ∧ run.coordinator.execution.status = .error ∧
      Engine.Culprit ended.1 run.coordinator :=
  ⟨_, rfl, rfl, rfl, Engine.blamesFirst enters lives_ended rfl rfl rfl⟩

/-- Its error is that its time was up, but a node is blamed for it; the handler is told both. -/
theorem blames_another : ∃ run q, Engine.Lives "run" entered overdue.1 overdue.2 ∧
    overdue.2.run? "run" = some run ∧ run.coordinator.closing = true ∧
    run.coordinator.execution.status = .error ∧
    run.coordinator.execution.error = some (Coordinator.timeoutText 60) ∧
    run.coordinator.failedNode? = some "a" ∧
    (∀ f, run.coordinator.execution.error ≠ some (Coordinator.failureText "a" f)) ∧
    Engine.asked overdue.1 = [q] ∧
    (q.trigger.member "error").member "message" = .string "Workflow timed out after 60 seconds" ∧
    (q.trigger.member "error").member "nodeId" = .string "a" := by
  refine ⟨_, _, lives_overdue, rfl, rfl, rfl, rfl, rfl, fun f heq => ?_, rfl, by decide +kernel, by decide +kernel⟩
  exact Coordinator.timeoutText_ne_failureText 60 "a" f (Option.some.inj heq)

end Overdue
end Workflows
