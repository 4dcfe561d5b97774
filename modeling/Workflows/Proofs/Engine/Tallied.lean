/-
  Workflows.Proofs.Engine.Tallied — the nodes that each run of a history has launched and heard of.

  Both are read off the turns of a run that a history tells of (`launchedBy`, `heardBy`). While the
  run is alive they agree with the statuses of its nodes, as they do in a life (`Tally`); once it is
  gone it has heard of each node it has launched, once (`Hosts.tallied`).
-/

import Workflows.Proofs.Engine.Pruning
import Workflows.Proofs.Run.Tally

namespace Workflows

/-! ## What a history tells of one run -/

/-- The turns of a run, in order. -/
def turnsOf (id : String) (past : List Entry) : List Happening :=
  past.filterMap fun entry =>
    match entry with
    | .turn run x => if run = id then some x else none
    | .stride _ => none

/-- The turns as a life that met one engine throughout: no tally looks at the engines. -/
def lifeOf (e : Engine) (id : String) (past : List Entry) : List Engine.Moment := (turnsOf id past).map (⟨e, ·⟩)

/-- The node that is launched. -/
def Happening.launched? : Happening → Option String
  | .step (some f) => f.launched?
  | _ => none

/-- The node whose end is told. -/
def Happening.heard? : Happening → Option String
  | .finished node _ => some node
  | _ => none

/-- The nodes that the run has launched, in order. -/
def launchedBy (id : String) (past : List Entry) : List String := (turnsOf id past).filterMap Happening.launched?

/-- The nodes whose end the run has been told, in order. -/
def heardBy (id : String) (past : List Entry) : List String := (turnsOf id past).filterMap Happening.heard?

section

variable {e₀ e : Engine} {past more : List Entry} {s s' : Desk} {id : String} {x : Happening} {run : ActiveRun}

theorem mem_turnsOf : x ∈ turnsOf id past ↔ .turn id x ∈ past := by
  simp only [turnsOf, List.mem_filterMap]
  constructor
  · rintro ⟨entry, hentry, htold⟩
    cases entry with
    | stride => cases htold
    | turn run y =>
      simp only [Option.ite_none_right_eq_some, Option.some.injEq] at htold
      obtain ⟨rfl, rfl⟩ := htold
      exact hentry
  · exact fun h => ⟨_, h, if_pos rfl⟩

theorem turnsOf_append : turnsOf id (past ++ more) = turnsOf id past ++ turnsOf id more := List.filterMap_append

theorem turnsOf_turn : turnsOf id [.turn id x] = [x] := by
  simp only [turnsOf, List.filterMap_cons, List.filterMap_nil, if_true]

theorem turnsOf_other {run : String} (hne : run ≠ id) : turnsOf id [.turn run x] = [] := by
  simp only [turnsOf, List.filterMap_cons, List.filterMap_nil, if_neg hne]

theorem launches_lifeOf : Engine.launches (lifeOf e id past) = launchedBy id past := by
  rw [Engine.launches, lifeOf, List.filterMap_map]
  exact List.filterMap_congr fun x _ => by cases x <;> rfl

theorem finishes_lifeOf : Engine.finishes (lifeOf e id past) = heardBy id past := by
  rw [Engine.finishes, lifeOf, List.filterMap_map]
  exact List.filterMap_congr fun x _ => by cases x <;> rfl

theorem launchedBy_append : launchedBy id (past ++ more) = launchedBy id past ++ launchedBy id more := by
  rw [launchedBy, turnsOf_append, List.filterMap_append, launchedBy, launchedBy]

theorem heardBy_append : heardBy id (past ++ more) = heardBy id past ++ heardBy id more := by
  rw [heardBy, turnsOf_append, List.filterMap_append, heardBy, heardBy]

theorem launchedBy_turn : launchedBy id (past ++ [.turn id x]) = launchedBy id past ++ x.launched?.toList := by
  rw [launchedBy_append]
  congr 1
  rw [launchedBy, turnsOf_turn, List.filterMap_cons]
  cases x.launched? <;> rfl

theorem heardBy_turn : heardBy id (past ++ [.turn id x]) = heardBy id past ++ x.heard?.toList := by
  rw [heardBy_append]
  congr 1
  rw [heardBy, turnsOf_turn, List.filterMap_cons]
  cases x.heard? <;> rfl

theorem launchedBy_other {run : String} (hne : run ≠ id) : launchedBy id (past ++ [.turn run x]) = launchedBy id past := by
  rw [launchedBy, turnsOf_append, turnsOf_other hne, List.append_nil, launchedBy]

theorem heardBy_other {run : String} (hne : run ≠ id) : heardBy id (past ++ [.turn run x]) = heardBy id past := by
  rw [heardBy, turnsOf_append, turnsOf_other hne, List.append_nil, heardBy]

theorem heardBy_finished {run node : String} {outcome : Outcome} :
    heardBy id [.turn run (.finished node outcome)] = if run = id then [node] else [] := by
  by_cases hid : run = id
  · rw [if_pos hid, heardBy, hid, turnsOf_turn]
    rfl
  · rw [if_neg hid, heardBy, turnsOf_other hid]
    rfl

theorem launchedBy_finished {run node : String} {outcome : Outcome} :
    launchedBy id [.turn run (.finished node outcome)] = [] := by
  by_cases hid : run = id
  · rw [launchedBy, hid, turnsOf_turn]
    rfl
  · rw [launchedBy, turnsOf_other hid]
    rfl

/-- A run that is at most asked to cancel launches nothing and is told of no end. -/
theorem launchedBy_of_quiet (h : ∀ x, .turn id x ∈ more → x = .cancel) : launchedBy id more = [] :=
  List.filterMap_eq_nil_iff.mpr fun x hx => by
    rw [h x (mem_turnsOf.mp hx)]
    rfl

theorem heardBy_of_quiet (h : ∀ x, .turn id x ∈ more → x = .cancel) : heardBy id more = [] :=
  List.filterMap_eq_nil_iff.mpr fun x hx => by
    rw [h x (mem_turnsOf.mp hx)]
    rfl

/-- The run has been asked to cancel, by a client or because its time was up. -/
def AskedToCancel (id : String) (past : List Entry) : Prop := ∃ x, .turn id x ∈ past ∧ x.asksToCancel = true

theorem AskedToCancel.append (h : AskedToCancel id past) : AskedToCancel id (past ++ more) := by
  obtain ⟨x, hx, hasks⟩ := h
  exact ⟨x, List.mem_append_left _ hx, hasks⟩

namespace Engine

/-! ## The tally of a run -/

theorem Tally.congr {life life' : List Moment} {c : Coordinator} (h : Tally life c)
    (hlaunches : launches life' = launches life) (hfinishes : finishes life' = finishes life) : Tally life' c where
  launchedOnce := hlaunches ▸ h.launchedOnce
  launched := hlaunches ▸ h.launched
  finishedOnce := hfinishes ▸ h.finishedOnce
  finished := hfinishes ▸ h.finished

/-- How far a run has come with its nodes. -/
inductive Tallied (e₀ : Engine) (past : List Entry) (s : Desk) (id : String) : Prop
  /-- It is yet to be entered, or never is. -/
  | before (gone : s.engine.run? id = none) (unlaunched : launchedBy id past = []) (unheard : heardBy id past = [])
  | alive {run : ActiveRun} (hr : s.engine.run? id = some run) (tally : Tally (lifeOf e₀ id past) run.coordinator)
      (asked : run.canceled = true → AskedToCancel id past)
  | after (entered : s.HasEntered past id) (gone : s.engine.run? id = none) (once : (launchedBy id past).Nodup)
      (heard : (heardBy id past).Perm (launchedBy id past))

/-- When a run leaves it has heard of every node it has launched. -/
theorem Tally.complete {life : List Moment} {c : Coordinator} (h : Tally life c) (hs : c.Sound) (hclosing : c.closing = true)
    (herrands : c.errands.filterMap Errand.launched? = []) :
    (launches life).Nodup ∧ (finishes life).Perm (launches life) := by
  have honce : (launches life).Nodup := by simpa [herrands] using h.launchedOnce
  refine ⟨honce, (List.perm_ext_iff_of_nodup h.finishedOnce honce).mpr fun x => ?_⟩
  have hlaunched : x ∈ launches life ↔ c.execution.HasStarted x := by simpa [herrands] using h.launched x
  rw [hlaunched, h.finished x]
  exact (or_iff_right (hs.not_running_of_closing hclosing x)).symm

/-- A run that is entered has launched nothing. -/
theorem Tally.of_entered {p : Prepared} {plan : Plan} {config : Config} (hmade : p.IsMade) (planned : p.plan = .ok plan) :
    Tally [] (.ofPlan p.definition plan p.types config p.execution) := by
  obtain ⟨r, -, haccepted⟩ := hmade.accepted planned
  exact .begins haccepted.nodeStatus?

namespace Tallied

/-- No node is launched twice. -/
theorem launchedOnce (h : Tallied e₀ past s id) : (launchedBy id past).Nodup := by
  cases h with
  | before _ unlaunched => exact unlaunched ▸ .nil
  | alive _ tally => exact launches_lifeOf (e := e₀) ▸ (List.nodup_append.mp tally.launchedOnce).1
  | after _ _ once => exact once

theorem spared (h : Tallied e₀ past s id) (hchronicle : Chronicle e₀ past s) (hdistinct : Function.Injective e₀.ids.run)
    (g : s.Goes more s') (hrun : s'.engine.run? id = s.engine.run? id) (quiet : ∀ x, .turn id x ∈ more → x = .cancel) :
    Tallied e₀ (past ++ more) s' id := by
  have hlaunched : launchedBy id (past ++ more) = launchedBy id past := by
    rw [launchedBy_append, launchedBy_of_quiet quiet, List.append_nil]
  have hheard : heardBy id (past ++ more) = heardBy id past := by
    rw [heardBy_append, heardBy_of_quiet quiet, List.append_nil]
  cases h with
  | before gone unlaunched unheard => exact .before (hrun.trans gone) (hlaunched.trans unlaunched) (hheard.trans unheard)
  | alive hr tally asked =>
    refine .alive (hrun.trans hr) (tally.congr ?_ ?_) fun hcanceled => (asked hcanceled).append
    · rw [launches_lifeOf, hlaunched, launches_lifeOf]
    · rw [finishes_lifeOf, hheard, finishes_lifeOf]
  | after entered gone once heard =>
    exact .after (entered.goes hchronicle hdistinct g).1 (hrun.trans gone) (hlaunched ▸ once) (hlaunched ▸ hheard ▸ heard)

/-- The run takes a turn. -/
theorem turn (h : Tallied e₀ past s id) (hchronicle : Chronicle e₀ past s) (hr : s.engine.run? id = some run)
    (hnext : s'.HasEntered (past ++ [.turn id x]) id) (m : s.engine.Moves id x s'.engine) (happens : x ≠ .elsewhere) :
    Tallied e₀ (past ++ [.turn id x]) s' id := by
  cases h with
  | before gone | after _ gone => exact absurd (gone.symm.trans hr) nofun
  | @alive run' hr' tally asked =>
    cases hr'.symm.trans hr
    obtain ⟨hsound, -⟩ := hchronicle.mirrored hr
    have hlife : lifeOf e₀ id (past ++ [.turn id x]) = lifeOf e₀ id past ++ [⟨e₀, x⟩] := by
      rw [lifeOf, turnsOf_append, turnsOf_turn, List.map_append]
      rfl
    cases hafter : s'.engine.run? id with
    | some after =>
      obtain ⟨_, hbefore, hturn, hcanceled, -⟩ := m.turn hafter
      cases hbefore.symm.trans hr
      refine .alive hafter (hlife ▸ tally.advance (hsound.advance hturn)) fun hasked => ?_
      rw [hcanceled, Bool.or_eq_true_iff] at hasked
      rcases hasked with hasked | hasks
      · exact (asked hasked).append
      · exact ⟨x, List.mem_append_right _ (List.mem_singleton.mpr rfl), hasks⟩
    | none =>
      obtain ⟨hover, rfl, herrands⟩ := hchronicle.over_of_left hr m happens hafter
      obtain ⟨honce, hheard⟩ := tally.complete hsound hover.closing (by rw [herrands]; rfl)
      rw [launches_lifeOf] at honce hheard
      rw [finishes_lifeOf] at hheard
      have hlaunched : launchedBy id (past ++ [.turn id (.step (some .leave))]) = launchedBy id past :=
        launchedBy_turn.trans (List.append_nil _)
      have hsame : heardBy id (past ++ [.turn id (.step (some .leave))]) = heardBy id past :=
        heardBy_turn.trans (List.append_nil _)
      exact .after hnext hafter (hlaunched ▸ honce) (hlaunched ▸ hsame ▸ hheard)

theorem goes (h : Tallied e₀ past s id) (hchronicle : Chronicle e₀ past s) (hdistinct : Function.Injective e₀.ids.run)
    (g : s.Goes more s') : Tallied e₀ (past ++ more) s' id := by
  cases hr : s.engine.run? id with
  | some run =>
    obtain ⟨hnext, ⟨hspares, quiet⟩ | ⟨x, _, _, m, happens, rfl⟩⟩ :=
      (hchronicle.living hr).1.goes hchronicle hdistinct g
    · exact h.spared hchronicle hdistinct g hspares.run quiet
    · exact h.turn hchronicle hr hnext m happens
  | none =>
    have quiet := hchronicle.quiet_of_gone g hr
    cases hafter : s'.engine.run? id with
    | none => exact h.spared hchronicle hdistinct g (hafter.trans hr.symm) quiet
    | some run =>
      obtain ⟨p, plan, hp, rfl, planned, rfl, -⟩ := hchronicle.entered_of_alive g hr hafter
      cases h with
      | alive hr' => exact absurd (hr.symm.trans hr') nofun
      | after entered =>
        -- it has been entered before, and so spared since
        obtain ⟨-, ⟨hspares, -⟩ | ⟨_, _, hr', -⟩⟩ := entered.goes hchronicle hdistinct g
        · exact absurd (hafter.symm.trans (hspares.run.trans hr)) nofun
        · exact absurd (hr.symm.trans hr') nofun
      | before _ unlaunched unheard =>
        refine .alive hafter ((Tally.of_entered (hchronicle.made p hp) planned).congr ?_ ?_) nofun
        · rw [launches_lifeOf, launchedBy_append, unlaunched, launchedBy_of_quiet quiet]
          rfl
        · rw [finishes_lifeOf, heardBy_append, unheard, heardBy_of_quiet quiet]
          rfl

end Tallied

theorem Hosts.tallied (h₀ : e₀.IsReady) (h : Hosts e₀ past s) (id : String) : Tallied e₀ past s id := by
  refine h.induction (motive := fun past s => Tallied e₀ past s id) ?_ fun past more s s' h g ih =>
    ih.goes (h.chronicle h₀) h₀.distinct g
  refine .before ?_ rfl rfl
  rw [run?, h₀.new.idle]
  rfl
end Engine
end
end Workflows
