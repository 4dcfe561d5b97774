/-
  Workflows.Proofs.Engine.Chains — runs that handle failures, and fail themselves.

  A run asks for a workflow to handle its failure once at most, when it ends in error, and never
  for the workflow it is a run of (`Lives.asked`). The handler is a run like any other: it may
  fail and ask for a handler of its own. So in a chain of runs, each the handler of the one
  before, every workflow but the last names the next (`Handles.names`). Nothing looks further
  back than one run: of two workflows that name each other, each handles the failures of the
  other's handling (`chase_returns`). A chain is without repetition, and so bounded, where the
  workflows do not name each other in a circle (`chain_ends`).
-/

import Workflows.Proofs.Engine.Strides
import Workflows.Proofs.Run.Ending
import Mathlib.Data.List.Chain
import Mathlib.Logic.Relation

namespace Workflows

/-! ## What a run asks for -/

def Errand.request? : Errand → Option ErrorRequest
  | .request q => some q
  | _ => none

namespace Coordinator

variable {c : Coordinator} {q : ErrorRequest}

theorem errorRequest?_eq_some (h : c.errorRequest? = some q) :
    c.execution.status = .error ∧ c.definition.settings.errorWorkflow = some q.workflow ∧
      q.workflow ≠ c.execution.workflowId := by
  simp only [errorRequest?] at h
  split at h
  · cases h
  next hstatus =>
    split at h
    · cases h
    next workflow hnamed =>
      split at h
      · cases h
      next hother =>
        cases h
        exact ⟨not_not.mp hstatus, hnamed, hother⟩

@[simp]
theorem errorRequest?_withErrands (c : Coordinator) (errands : List Errand) :
    errorRequest? { c with errands } = c.errorRequest? := rfl

/-- The requests among what is left to do. -/
def toAsk (c : Coordinator) : List ErrorRequest := c.errands.filterMap Errand.request?

theorem toAsk_cons {errand : Errand} {rest : List Errand} (h : c.errands = errand :: rest) :
    c.toAsk = errand.request?.toList ++ toAsk { c with errands := rest } := by
  rw [toAsk, h, List.filterMap_cons]
  cases errand.request? <;> rfl

theorem filterMap_request?_skip (nodes : List String) : (nodes.map Errand.skip).filterMap Errand.request? = [] := by
  rw [List.filterMap_map]
  exact List.filterMap_eq_nil_iff.mpr fun _ _ => rfl

theorem toAsk_finish (c : Coordinator) (now : Instant) : (c.finish now).toAsk = (c.finish now).errorRequest?.toList := by
  rw [finish, errorRequest?_withErrands, toAsk]
  cases errorRequest? { c with execution := c.finalRecord now, closing := true } <;> rfl

end Coordinator

namespace Engine

def Moment.request? (m : Moment) : Option ErrorRequest :=
  match m.happening with
  | .step (some (.request q)) => some q
  | _ => none

/-- The requests that have been made. -/
def asked (past : List Moment) : List ErrorRequest := past.filterMap Moment.request?

variable {r : StartRequest} {p : Plan} {id : String} {e₀ e : Engine} {past : List Moment} {run : ActiveRun}

theorem asked_append (past : List Moment) (m : Moment) : asked (past ++ [m]) = asked past ++ m.request?.toList := by
  rw [asked, List.filterMap_append]
  cases h : m.request? <;> simp [asked, h]

theorem request?_perform (e : Engine) (c : Coordinator) (now : Instant) (errand : Errand) :
    Moment.request? ⟨e, .step (c.perform now errand).2⟩ = errand.request? := by
  cases errand with
  | saveNode id => cases h : c.execution.node? id <;> simp [Coordinator.perform, h, Moment.request?, Errand.request?]
  | _ => rfl

theorem request?_of_not_own {m : Moment} (h : m.isOwn = false) : m.request? = none := by
  obtain ⟨e, x⟩ := m
  cases x with
  | step => cases h
  | _ => rfl

/-- A run that has asked for what its record calls for, or is about to, does so whatever happens to it. -/
theorem asks_advance {c c' : Coordinator} {canceled : Bool} {x : Happening} {asked : List ErrorRequest} (e : Engine)
    (ha : c.Advance canceled x c') (hs : c.Sound)
    (h : asked ++ c.toAsk = if c.closing then c.errorRequest?.toList else []) :
    asked ++ (Moment.request? ⟨e, x⟩).toList ++ c'.toAsk = if c'.closing then c'.errorRequest?.toList else [] := by
  -- a run that goes on with no errand left has asked for nothing
  have hidle : c.Idle → asked = [] := fun idle => by
    rw [Coordinator.toAsk, idle.errands, idle.closing] at h
    exact (List.append_nil _).symm.trans h
  cases ha with
  | errand now he hskip =>
    rw [Coordinator.toAsk_cons he] at h
    rw [request?_perform, List.append_assoc]
    exact h
  | passed he hs =>
    rw [Coordinator.toAsk_cons he] at h
    exact (congrArg (· ++ _) (List.append_nil _)).trans h
  | @skipped id rest r now he hr hw =>
    have hclosing : c.closing = false := by
      by_contra hc
      exact hs.not_skip_mem (Bool.eq_true_of_not_eq_false hc) id (he ▸ List.mem_cons_self)
    rw [Coordinator.toAsk_cons he, hclosing] at h
    rw [hclosing]
    exact (congrArg (· ++ _) (List.append_nil _)).trans h
  | ended now idle landed hend =>
    rw [hidle idle, Coordinator.toAsk_finish]
    rfl
  | stopped now idle | started now idle | timedOut now idle | succeeded now idle =>
    simp [hidle idle, idle.closing, Moment.request?, Coordinator.toAsk, Errand.request?]
  | failed now idle =>
    simp only [hidle idle, idle.closing, Coordinator.toAsk, List.filterMap_append, Coordinator.filterMap_request?_skip]
    rfl
  | canceled | elsewhere => simpa [Moment.request?] using h

/-- What a run has asked for, and what it is about to ask for: nothing until it ends, and then
what its record calls for. -/
theorem Lives.asked_eq (h₀ : Enters r p id e₀) (h : Lives id e₀ past e) (hr : e.run? id = some run) :
    asked past ++ run.coordinator.toAsk = if run.coordinator.closing then run.coordinator.errorRequest?.toList else [] := by
  refine h.induction
    (motive := fun past run => asked past ++ run.coordinator.toAsk =
      if run.coordinator.closing then run.coordinator.errorRequest?.toList else [])
    h₀ hr (fun _ _ _ _ => rfl) fun past e x run run' _ _ hasked hsound ha _ _ => ?_
  rw [asked_append]
  exact asks_advance e ha hsound hasked

/-- A run asks at most once, and for what its record calls for when it has ended. -/
theorem Lives.asked (h₀ : Enters r p id e₀) (h : Lives id e₀ past e) :
    Engine.asked past = [] ∨ ∃ c q, Runs r p id c ∧ c.errorRequest? = some q ∧ Engine.asked past = [q] := by
  -- the last requests are those of the last moment at which the run was alive
  suffices halive : ∀ {past e run}, Lives id e₀ past e → e.run? id = some run →
      Engine.asked past = [] ∨ ∃ c q, Runs r p id c ∧ c.errorRequest? = some q ∧ Engine.asked past = [q] by
    cases hr : e.run? id with
    | some run => exact halive h hr
    | none =>
      obtain ⟨before, e₁, run, after, hbefore, hrun, -, -, rfl, hafter⟩ := h.left h₀ hr
      have hquiet : after.filterMap Moment.request? = [] :=
        List.filterMap_eq_nil_iff.mpr fun m hm => request?_of_not_own (hafter m hm)
      have hsame : Engine.asked (before ++ ⟨e₁, .step (some .leave)⟩ :: after) = Engine.asked before := by
        rw [Engine.asked, List.filterMap_append, List.filterMap_cons, hquiet]
        exact List.append_nil _
      exact hsame ▸ halive hbefore hrun
  intro past e run h hr
  have hasked := h.asked_eq h₀ hr
  cases hclosing : run.coordinator.closing with
  | false =>
    rw [hclosing] at hasked
    exact .inl (List.append_eq_nil_iff.mp hasked).1
  | true =>
    rw [hclosing, if_pos rfl] at hasked
    cases hrequest : run.coordinator.errorRequest? with
    | none =>
      rw [hrequest] at hasked
      exact .inl (List.append_eq_nil_iff.mp hasked).1
    | some q =>
      rw [hrequest] at hasked
      rcases List.append_eq_singleton_iff.mp hasked with ⟨hnone, -⟩ | ⟨hone, -⟩
      · exact .inl hnone
      · exact .inr ⟨run.coordinator, q, h.runs h₀ hr, hrequest, hone⟩

/-! ## Chains of runs -/

/-- A run, and what has happened to it. -/
structure Run where
  request : StartRequest
  plan : Plan
  id : String
  began : Engine
  past : List Moment
  now : Engine
  enters : Enters request plan id began
  lives : Lives id began past now

namespace Run

def workflow (run : Run) : String := run.request.definition.key

def asked (run : Run) : List ErrorRequest := Engine.asked run.past

/-- A run was started because another one asked for it: its definition is what some catalog had
for the workflow that was asked for. -/
def Handles (next run : Run) : Prop :=
  ∃ q ∈ run.asked, ∃ e : Engine, e.catalog.Named ∧
    (StartCall.lookUp q.workflow q.trigger none).step? e = some (.takeTypes next.request, e)

variable {run next : Run}

theorem mem_asked {q : ErrorRequest} (h : q ∈ run.asked) :
    run.asked = [q] ∧ ∃ c, Runs run.request run.plan run.id c ∧ c.errorRequest? = some q := by
  rcases run.lives.asked run.enters with hnone | ⟨c, q', hc, hq, hone⟩
  · rw [asked, hnone] at h
    exact absurd h List.not_mem_nil
  · rw [asked, hone] at h
    obtain rfl := List.mem_singleton.mp h
    exact ⟨hone, c, hc, hq⟩

/-- A run that is handled names its handler, which is another workflow. -/
theorem Handles.names (h : next.Handles run) :
    run.request.definition.settings.errorWorkflow = some next.workflow ∧ next.workflow ≠ run.workflow := by
  obtain ⟨q, hq, e, hnamed, hstep⟩ := h
  obtain ⟨-, c, hc, hrequest⟩ := mem_asked hq
  obtain ⟨-, hsetting, hother⟩ := Coordinator.errorRequest?_eq_some hrequest
  have hkey : next.workflow = q.workflow := by
    simp only [StartCall.step?, Catalog.get] at hstep
    cases hd : Keyed.get? e.catalog.entries q.workflow with
    | none => simp [hd] at hstep
    | some d =>
      simp only [hd, Option.some.injEq, Prod.mk.injEq, StartCall.takeTypes.injEq, and_true] at hstep
      rw [workflow, ← hstep]
      exact hnamed _ _ hd
  have horigin : c.execution.workflowId = run.workflow := congrArg Execution.Origin.workflowId hc.origin
  rw [hkey, ← horigin, ← hc.definition]
  exact ⟨hsetting, hother⟩

/-- One workflow names another to handle its failures, in some definition of it. -/
def Names (definitions : List Definition) (a b : String) : Prop :=
  ∃ d ∈ definitions, d.key = a ∧ d.settings.errorWorkflow = some b ∧ b ≠ a

variable {definitions : List Definition} {runs : List Run}

theorem isChain_names (hruns : ∀ run ∈ runs, run.request.definition ∈ definitions)
    (hchain : runs.IsChain fun run next => next.Handles run) : (runs.map workflow).IsChain (Names definitions) := by
  refine (List.isChain_map workflow).mpr (hchain.imp_of_mem_imp fun run next hrun _ hhandles => ?_)
  obtain ⟨hsetting, hother⟩ := hhandles.names
  exact ⟨run.request.definition, hruns run hrun, rfl, hsetting, hother⟩

/-- What a chain of runs comes to. -/
structure Ends (definitions : List Definition) (runs : List Run) : Prop where
  /-- No workflow occurs twice. -/
  distinct : (runs.map workflow).Nodup
  /-- It is no longer than there are definitions. -/
  length_le : runs.length ≤ definitions.length
  /-- No run has more than one handler. -/
  once : ∀ run ∈ runs, run.asked.length ≤ 1

/-- Where workflows do not name each other in a circle, a failure causes finitely many runs, one
after the other and each of another workflow. -/
theorem chain_ends (hacyclic : ∀ w, ¬ Relation.TransGen (Names definitions) w w)
    (hruns : ∀ run ∈ runs, run.request.definition ∈ definitions)
    (hchain : runs.IsChain fun run next => next.Handles run) : Ends definitions runs := by
  -- of any two runs, the first names the second, directly or through those in between
  have hbehind : (runs.map workflow).Pairwise (Relation.TransGen (Names definitions)) :=
    ((isChain_names hruns hchain).imp fun _ _ h => .single h).pairwise
  have hother : ∀ {a b}, Relation.TransGen (Names definitions) a b → a ≠ b := by
    rintro a _ h rfl
    exact hacyclic a h
  have hdistinct : (runs.map workflow).Nodup := hbehind.imp hother
  refine { distinct := hdistinct, length_le := ?_, once := fun run _ => ?_ }
  · have hsubset : runs.map workflow ⊆ definitions.map Definition.key := by
      intro w hw
      obtain ⟨run, hrun, rfl⟩ := List.mem_map.mp hw
      exact List.mem_map_of_mem (hruns run hrun)
    have hle := hdistinct.length_le_of_subset hsubset
    rwa [List.length_map, List.length_map] at hle
  · rcases run.lives.asked run.enters with hnone | ⟨_, _, -, -, hone⟩
    · rw [asked, hnone]; exact Nat.zero_le 1
    · rw [asked, hone]; exact Nat.le_refl 1

end Run

end Engine

/-! ## Two workflows that fail -/

namespace Chase

open Engine

/-- A workflow whose one node fails, and the workflow that is to handle it. -/
def failing (id : String) (handler : Option String) : Definition :=
  { id := some id, name := id, nodes := [{ id := "n", type := "fail" }], settings := { errorWorkflow := handler } }

def plan : Plan := { order := ["n"], roots := ["n"], producers := [("n", [])], consumers := [("n", [])] }

def outcome : Outcome := .error (.failed "Workflow stopped by fail node")

/-- What happens to a run whose node fails. -/
def failure (id : String) (e : Engine) : List Moment × Engine := runNode id "n" outcome 4 9 e

/-- What triggers the run that handles the first request. -/
def triggerOf (e : Engine) : Json := (e.requests.head?.map (·.trigger)).getD .null

/-- The engine that has started a run to handle the first request. -/
def begun (d : Definition) (e : Engine) : Except Failure String × Engine :=
  { e with requests := e.requests.tail }.startDefinition d (triggerOf e) none

/-- Whether that run starts, under that id, and fails. -/
def Fails (d : Definition) (id : String) (e : Engine) : Prop :=
  (prepare d e.registry).toOption = some plan ∧ (begun d e).1.toOption = some id ∧ (e.run? id).isNone = true ∧
    waitsFor id "n" (takeSteps id 4 (begun d e).2).2 = true

instance (d : Definition) (id : String) (e : Engine) : Decidable (Fails d id e) :=
  inferInstanceAs (Decidable (_ ∧ _ ∧ _ ∧ _))

theorem eq_ok_of_toOption {α : Type} {x : Except Failure α} {a : α} (h : x.toOption = some a) : x = .ok a := by
  cases x with
  | error => cases h
  | ok b => exact congrArg _ (Option.some.inj h)

/-- The run, from its start to its end. -/
def failed (d : Definition) (id : String) (e : Engine) (h : Fails d id e) : Run where
  request := ⟨d, triggerOf e, none⟩
  plan := plan
  id := id
  began := (begun d e).2
  past := (failure id (begun d e).2).1
  now := (failure id (begun d e).2).2
  enters := .of_startDefinition (e := { e with requests := e.requests.tail }) (eq_ok_of_toOption h.1)
    (Prod.ext (eq_ok_of_toOption h.2.1) rfl) (Option.isNone_iff_eq_none.mp h.2.2.1)
  lives := .runNode h.2.2.2

/-- Failures of `a` are handled by `b`, those of `b` by `last`. -/
def definitions (last : Option String) : List Definition := [failing "a" (some "b"), failing "b" last]

def catalog (last : Option String) : Catalog := ⟨(definitions last).map fun d => (d.key, d)⟩

def engine (last : Option String) : Engine :=
  { registry := [("fail", NodeType.fail)], catalog := catalog last
    ids := { run := fun n => (["first", "second", "third"][n]?).getD "later" } }

theorem named_catalog (last : Option String) : (catalog last).Named := by
  intro id d hd
  obtain ⟨d', -, hpair⟩ := List.mem_map.mp (Keyed.mem_of_get? hd)
  cases hpair
  rfl

/-- The run that is started because another one asked for it handles that one. -/
theorem handles_failed (last : Option String) {run : Run} {workflow id : String} {handler : Option String}
    (h : Fails (failing workflow handler) id run.now) (hasked : run.asked = [⟨workflow, triggerOf run.now⟩])
    (hcatalog : run.now.catalog.entries = (catalog last).entries)
    (hd : Keyed.get? (catalog last).entries workflow = some (failing workflow handler)) :
    (failed (failing workflow handler) id run.now h).Handles run := by
  have hsame : run.now.catalog = catalog last := congrArg Catalog.mk hcatalog
  refine ⟨⟨workflow, triggerOf run.now⟩, hasked ▸ List.mem_singleton_self _, run.now, hsame ▸ named_catalog last, ?_⟩
  simp only [StartCall.step?, Catalog.get, hcatalog, hd]
  rfl

/-- Runs of `a` and of `b`, which name each other, each the handler of the one before. -/
def first : Run := failed (failing "a" (some "b")) "first" (engine (some "a")) (by decide +kernel)

def second : Run := failed (failing "b" (some "a")) "second" first.now (by decide +kernel)

def third : Run := failed (failing "a" (some "b")) "third" second.now (by decide +kernel)

/-- A run of `a` again handles the failure of the run that handles the failure of a run of `a`. -/
theorem chase_returns : ([first, second, third].IsChain fun run next => next.Handles run) ∧
    [first, second, third].map Run.workflow = ["a", "b", "a"] := by
  have hsecond : second.Handles first :=
    handles_failed (some "a") _ (by decide +kernel) (by decide +kernel) (by decide +kernel)
  have hthird : third.Handles second :=
    handles_failed (some "a") _ (by decide +kernel) (by decide +kernel) (by decide +kernel)
  exact ⟨.cons_cons hsecond (.cons_cons hthird (.singleton _)), rfl⟩

/-- Runs of `a` and of `b`, of which only `a` names the other. -/
def cause : Run := failed (failing "a" (some "b")) "first" (engine none) (by decide +kernel)

def handler : Run := failed (failing "b" none) "second" cause.now (by decide +kernel)

theorem acyclic_definitions (w : String) : ¬ Relation.TransGen (Run.Names (definitions none)) w w := by
  have hnames : ∀ {x y}, Run.Names (definitions none) x y → x = "a" ∧ y = "b" := by
    rintro x y ⟨d, hd, rfl, hsetting, -⟩
    rcases List.mem_pair.mp hd with rfl | rfl
    · exact ⟨rfl, (Option.some.inj hsetting).symm⟩
    · cases hsetting
  have hpath : ∀ {x y}, Relation.TransGen (Run.Names (definitions none)) x y → x = "a" ∧ y = "b" := by
    intro x y h
    induction h with
    | single h => exact hnames h
    | tail _ h ih => exact absurd (ih.2.symm.trans (hnames h).1) (by decide)
  intro h
  exact absurd ((hpath h).1.symm.trans (hpath h).2) (by decide)

end Chase

/-- The failure of a run of `a` causes one more run, of `b`. -/
theorem Engine.Run.ends_chase : Run.Ends (Chase.definitions none) [Chase.cause, Chase.handler] := by
  have hhandles : Chase.handler.Handles Chase.cause :=
    Chase.handles_failed none _ (by decide +kernel) (by decide +kernel) (by decide +kernel)
  refine chain_ends Chase.acyclic_definitions ?_ (.cons_cons hhandles (.singleton _))
  intro run hrun
  rcases List.mem_pair.mp hrun with rfl | rfl
  · exact List.mem_cons_self
  · exact List.mem_cons_of_mem _ List.mem_cons_self

end Workflows
