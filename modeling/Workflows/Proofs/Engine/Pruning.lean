/-
  Workflows.Proofs.Engine.Pruning — pruning, and the runs that are alive.

  A run that goes on keeps its record whatever the cutoff (`Hosts.kept_of_going`). Once it has been
  told to stop its record says that it has ended, though nodes are still in flight, and pruning
  deletes it as it would that of a run that is gone: exactly if it stopped before the cutoff. As
  long as it is there, it is all of the record of the run whenever that has nothing left to write,
  and a wait that has found the run is answered with its final record. Once it is deleted it stays
  so: what the nodes in flight come to is not stored, and the wait is told that there is no such
  execution (`prunesLive`, and `Fork.deleted_underway` for a run to which this happens).

  A wait looks for the run, waits to be told and reads the record in steps of its own, between any
  two of which anything may happen (`WaitsOut`).
-/

import Workflows.Proofs.Engine.Concluded
import Workflows.Proofs.Run.WellFormed

namespace Workflows

/-! ## What comes after -/

/-- One thing happens after the other, and a history tells these entries of it. -/
inductive Desk.Leads (s₀ : Desk) : List Entry → Desk → Prop
  | here : Leads s₀ [] s₀
  | goes {past more : List Entry} {s s' : Desk} (h : Leads s₀ past s) (g : s.Goes more s') : Leads s₀ (past ++ more) s'

section

variable {e₀ : Engine} {past more : List Entry} {s₀ s s' : Desk} {id : String} {run : ActiveRun}

theorem Desk.Leads.trans (h : s₀.Leads past s) (h' : s.Leads more s') : s₀.Leads (past ++ more) s' := by
  induction h' with
  | here => rwa [List.append_nil]
  | goes _ g ih =>
    rw [← List.append_assoc]
    exact ih.goes g

theorem Engine.Hosts.leads (h : Hosts e₀ past s) (h' : s.Leads more s') : Hosts e₀ (past ++ more) s' := by
  induction h' with
  | here => rwa [List.append_nil]
  | goes _ g ih =>
    rw [← List.append_assoc]
    exact ih.goes g

namespace Chronicle

/-- A run that is alive lives on a store that keeps what is kept of it, unless that was deleted. -/
theorem living (h : Chronicle e₀ past s) (hr : s.engine.run? id = some run) :
    s.HasEntered past id ∧ ∃ r plan e₁ life store, Engine.Enters r plan id e₁ ∧
      Engine.Lives id e₁ life (s.engine.onStore store) ∧
      ∀ k, s.engine.store.kept? id = some k → store.kept? id = some k := by
  obtain ⟨p, hp, rfl⟩ := h.of_alive hr
  cases h.stages p hp with
  | @living r plan e₁ life store _ _ _ entered lives kept free =>
    refine ⟨⟨⟨p, hp, rfl⟩, free⟩, r, plan, e₁, life, store, entered, lives, fun k hk => ?_⟩
    have hsame := kept.resolve_left (hk ▸ Option.some_ne_none k)
    exact hsame.symm.trans hk
  | made _ _ _ gone | dropped _ gone | recorded _ _ _ gone | announced _ _ _ gone | refused _ _ gone =>
    exact absurd (gone.symm.trans hr) nofun

/-- What is kept of a run that is alive is its record, but for what it has yet to write. -/
theorem mirrored (h : Chronicle e₀ past s) (hr : s.engine.run? id = some run) :
    run.coordinator.Sound ∧ run.coordinator.execution.id = id ∧ run.coordinator.execution.Tidy ∧
      run.coordinator.execution.Settled ∧ ∀ k, s.engine.store.kept? id = some k → Mirrored k run.coordinator := by
  obtain ⟨-, r, plan, e₁, life, store, entered, lives, hkept⟩ := h.living hr
  obtain ⟨k₀, hk₀, hmirrored⟩ := lives.mirrored entered hr
  obtain ⟨_, -, hrecorded⟩ := lives.recorded entered hr
  have hruns := lives.runs entered hr
  refine ⟨hruns.sound, hruns.id_eq, hrecorded.tidy, lives.settled entered hr, fun k hk => ?_⟩
  cases (hkept k hk).symm.trans hk₀
  exact hmirrored

/-- If what is kept of a run that is alive has ended, so has the run. -/
theorem not_going_of_kept (h : Chronicle e₀ past s) (hr : s.engine.run? id = some run) {k : Kept}
    (hk : s.engine.store.kept? id = some k) (hterm : k.status.isTerminal = true) :
    run.coordinator.stopping = true ∨ run.coordinator.closing = true := by
  obtain ⟨-, r, plan, e₁, life, store, entered, lives, hkept⟩ := h.living hr
  have hended := lives.conclusion_of_kept entered hr (hkept k hk) (by rwa [Kept.status_conclusion])
  by_contra hgoing
  simp only [not_or, Bool.not_eq_true] at hgoing
  have hstatus : run.coordinator.execution.conclusion.status = .running :=
    ((lives.runs entered hr).sound.going hgoing.1 hgoing.2).1
  rw [hended, Kept.status_conclusion] at hstatus
  rw [hstatus] at hterm
  cases hterm

/-- A run that has told those who wait, or whose last errand is to leave, has written all. -/
theorem over_of_done (h : Chronicle e₀ past s) (hr : s.engine.run? id = some run) (hdone : run.done = true) :
    run.coordinator.Over := by
  obtain ⟨-, r, plan, e₁, life, store, entered, lives, -⟩ := h.living hr
  exact lives.over_of_done entered hr hdone

theorem over_of_left (h : Chronicle e₀ past s) (hr : s.engine.run? id = some run) {x : Happening} {e : Engine}
    (m : s.engine.Moves id x e) (happens : x ≠ .elsewhere) (hgone : e.run? id = none) :
    run.coordinator.Over ∧ x = .step (some .leave) ∧ run.coordinator.errands = [.leave] := by
  obtain ⟨-, r, plan, e₁, life, store, entered, lives, -⟩ := h.living hr
  obtain ⟨store', m'⟩ := m.on_store happens store
  obtain ⟨rfl, herrands, hclosing⟩ := lives.last entered m' hr hgone
  refine ⟨⟨hclosing, fun errand hmem => ?_⟩, rfl, herrands⟩
  rw [herrands, List.mem_singleton] at hmem
  rw [hmem]
  rfl

end Chronicle

/-! ## Runs that go on -/

theorem Coordinator.Advance.going_of_going {c c' : Coordinator} {canceled : Bool} {x : Happening}
    (ha : c.Advance canceled x c') (hs : c.Sound) (hstop : c'.stopping = false) (hclosing : c'.closing = false) :
    c.stopping = false ∧ c.closing = false := by
  constructor
  · cases hbefore : c.stopping with
    | false => rfl
    | true => rw [ha.stopping_of_stopping hbefore] at hstop; cases hstop
  · cases hbefore : c.closing with
    | false => rfl
    | true =>
      rcases ha.of_closed hs hbefore with ⟨_, _, _, _, -, rfl⟩ | ⟨-, rfl⟩
      · exact absurd (hbefore.symm.trans hclosing) nofun
      · exact absurd (hbefore.symm.trans hclosing) nofun

/-- A run that goes on keeps its record. -/
theorem Engine.Hosts.kept_of_going (h₀ : e₀.IsReady) (h : Hosts e₀ past s) (hr : s.engine.run? id = some run)
    (hstop : run.coordinator.stopping = false) (hclosing : run.coordinator.closing = false) :
    ∃ k, s.engine.store.kept? id = some k := by
  refine h.induction (motive := fun _ s => ∀ id run, s.engine.run? id = some run → run.coordinator.stopping = false →
    run.coordinator.closing = false → ∃ k, s.engine.store.kept? id = some k) ?_ ?_ id run hr hstop hclosing
  · intro id run hr
    rw [run?, h₀.new.idle] at hr
    cases hr
  · intro past more s s' h g ih id run hr hstop hclosing
    have hchronicle := h.chronicle h₀
    cases hbefore : s.engine.run? id with
    | none =>
      obtain ⟨-, -, -, -, -, -, hkept, -⟩ := hchronicle.entered_of_alive g hbefore hr
      exact hkept
    | some before =>
      obtain ⟨-, ⟨hspares, -⟩ | ⟨x, _, -, m, happens, -⟩⟩ := (hchronicle.living hbefore).1.goes hchronicle h₀.distinct g
      · cases hbefore.symm.trans (hspares.run.symm.trans hr)
        obtain ⟨k, hk⟩ := ih id _ hbefore hstop hclosing
        rcases hspares.kept with hsame | ⟨-, hended⟩
        · exact ⟨k, hsame.trans hk⟩
        · -- only what has ended is pruned, and the run has not
          rcases hchronicle.not_going_of_kept hbefore hk (hended k hk) with hbad | hbad
          · rw [hstop] at hbad; cases hbad
          · rw [hclosing] at hbad; cases hbad
      · obtain ⟨_, hrun, hturn, -⟩ := m.turn hr
        cases hrun.symm.trans hbefore
        obtain ⟨hsound, hid, -⟩ := hchronicle.mirrored hbefore
        obtain ⟨hstop', hclosing'⟩ := (hsound.advance hturn).going_of_going hsound hstop hclosing
        obtain ⟨k, hk⟩ := ih id _ hbefore hstop' hclosing'
        exact ⟨_, m.kept? hbefore hid hk⟩

/-! ## Runs that are told to stop -/

/-- What is all of a record is deleted exactly if that has stopped before the cutoff. -/
theorem Kept.Of.isExpired_iff {k : Kept} {e : Execution} {t before : Instant} (h : k.Of e)
    (hterm : e.isTerminal = true) (hstop : e.stoppedAt = some t)
    (hcolumn : ∀ r, k = .row r → t.InColumn ∧ before.InColumn) : k.isExpired before = true ↔ t < before := by
  cases h with
  | record =>
    simp only [Kept.isExpired, MemoryStore.isExpired, hterm, hstop, Option.any_some, Bool.true_and]
    rfl
  | row =>
    obtain ⟨ht, hbefore⟩ := hcolumn _ rfl
    have hrow : (ExecutionRow.ofExecution e).status.isTerminal = true := hterm
    have htext : (ExecutionRow.ofExecution e).stoppedAt = some t.columnText := congrArg (Option.map _) hstop
    simp only [Kept.isExpired, TableStore.isExpired, hrow, htext, Option.any_some, Bool.true_and, decide_eq_true_eq]
    exact Instant.columnText_lt_iff ht hbefore

/-- Pruning deletes what has expired, and nothing else. -/
theorem Chronicle.deletes_iff (h : Chronicle e₀ past s) {k : Kept} (hk : s.engine.store.kept? id = some k)
    (before : Instant) : (s.engine.prune before).1.store.kept? id = none ↔ k.isExpired before = true := by
  have hpruned : (s.engine.prune before).1.store.kept? id = _ := Store.kept?_prune h.stored before
  rw [hpruned, hk]
  cases hexpired : k.isExpired before <;> simp [Option.filter, hexpired]

/-- What is deleted of a run stays so. -/
theorem Engine.Hosts.unkept (h₀ : e₀.IsReady) (h : Hosts e₀ past s) (hentered : s.HasEntered past id)
    (hnone : s.engine.store.kept? id = none) (hlater : s.Leads more s') : s'.engine.store.kept? id = none := by
  suffices hboth : s'.HasEntered (past ++ more) id ∧ s'.engine.store.kept? id = none from hboth.2
  induction hlater with
  | here => exact ⟨(List.append_nil past).symm ▸ hentered, hnone⟩
  | goes hlater g ih =>
    obtain ⟨hentered, hnone⟩ := ih
    obtain ⟨hnext, ⟨hspares, -⟩ | ⟨x, run, -, m, happens, -⟩⟩ :=
      hentered.goes ((h.leads hlater).chronicle h₀) h₀.distinct g
    · rw [← List.append_assoc]
      exact ⟨hnext, hspares.kept.elim (fun hsame => hsame.trans hnone) And.left⟩
    · rw [← List.append_assoc]
      exact ⟨hnext, m.unkept happens hnone⟩

theorem Store.get_of_unkept {store : Store} (h : store.kept? id = none) : store.get id = .error (.executionNotFound id) := by
  cases store with
  | memory m =>
    have hnone : m.get? id = none := Option.map_eq_none_iff.mp h
    simp only [Store.get, Store.get?, hnone]
  | table t =>
    have hnone : t.row? id = none := Option.map_eq_none_iff.mp h
    simp only [Store.get, Store.get?, TableStore.get?, hnone]

theorem Store.table_of_kept {store : Store} {row : ExecutionRow} (h : store.kept? id = some (.row row)) :
    ∃ rows, store = .table rows := by
  cases store with
  | memory m => obtain ⟨_, -, heq⟩ := Option.map_eq_some_iff.mp h; cases heq
  | table rows => exact ⟨rows, rfl⟩

/-! ## Waiting for a run -/

/-- A run that is gone now and was not then was over at some point between. -/
theorem Engine.Hosts.over_before_gone (h₀ : e₀.IsReady) (h : Hosts e₀ past s) (hr : s.engine.run? id = some run)
    (hlater : s.Leads more s') (hgone : s'.engine.run? id = none) :
    ∃ upTo since s₁ run₁, more = upTo ++ since ∧ s.Leads upTo s₁ ∧ s₁.Leads since s' ∧
      s₁.engine.run? id = some run₁ ∧ run₁.coordinator.Over := by
  have hentered := ((h.chronicle h₀).living hr).1
  suffices hboth : s'.HasEntered (past ++ more) id ∧ (s'.engine.run? id = none →
      ∃ upTo since s₁ run₁, more = upTo ++ since ∧ s.Leads upTo s₁ ∧ s₁.Leads since s' ∧
        s₁.engine.run? id = some run₁ ∧ run₁.coordinator.Over) from hboth.2 hgone
  clear hgone
  induction hlater with
  | here => exact ⟨(List.append_nil past).symm ▸ hentered, fun hgone => absurd (hgone.symm.trans hr) nofun⟩
  | @goes more new s₂ s' hlater g ih =>
    obtain ⟨hentered, hbefore⟩ := ih
    have hchronicle := (h.leads hlater).chronicle h₀
    obtain ⟨hnext, hstep⟩ := hentered.goes hchronicle h₀.distinct g
    rw [← List.append_assoc]
    refine ⟨hnext, fun hgone => ?_⟩
    cases hr₂ : s₂.engine.run? id with
    | none =>
      obtain ⟨upTo, since, s₁, run₁, rfl, hupTo, hsince, hr₁, hover⟩ := hbefore hr₂
      exact ⟨upTo, since ++ new, s₁, run₁, List.append_assoc .., hupTo, hsince.goes g, hr₁, hover⟩
    | some run₂ =>
      rcases hstep with ⟨hspares, -⟩ | ⟨x, run₂', hr₂', m, happens, -⟩
      · exact absurd (hgone.symm.trans (hspares.run.trans hr₂)) nofun
      · cases hr₂'.symm.trans hr₂
        exact ⟨more, new, s₂, _, rfl, hlater, Desk.Leads.here.goes g, hr₂, (hchronicle.over_of_left hr₂ m happens hgone).1⟩

/-- Once a run is over what is kept of it stands, until it is deleted. -/
theorem Engine.Hosts.stands (h₀ : e₀.IsReady) (h : Hosts e₀ past s) (hr : s.engine.run? id = some run)
    (hover : run.coordinator.Over) (hlater : s.Leads more s') :
    s'.engine.store.kept? id = s.engine.store.kept? id ∨ s'.engine.store.kept? id = none := by
  have hentered := ((h.chronicle h₀).living hr).1
  suffices hall : s'.HasEntered (past ++ more) id ∧
      (∀ run', s'.engine.run? id = some run' → run'.coordinator.Over) ∧
      (s'.engine.store.kept? id = s.engine.store.kept? id ∨ s'.engine.store.kept? id = none) from hall.2.2
  induction hlater with
  | here =>
    refine ⟨(List.append_nil past).symm ▸ hentered, fun run' hr' => ?_, .inl rfl⟩
    cases hr'.symm.trans hr
    exact hover
  | @goes more new s₂ s' hlater g ih =>
    obtain ⟨hentered, hover₂, hkept⟩ := ih
    have hchronicle := (h.leads hlater).chronicle h₀
    obtain ⟨hnext, ⟨hspares, -⟩ | ⟨x, run₂, hr₂, m, happens, -⟩⟩ := hentered.goes hchronicle h₀.distinct g
    · rw [← List.append_assoc]
      refine ⟨hnext, fun run' hr' => hover₂ run' (hspares.run.symm.trans hr'), ?_⟩
      rcases hspares.kept with hsame | ⟨hnone, -⟩
      · exact hsame ▸ hkept
      · exact .inr hnone
    · rw [← List.append_assoc]
      obtain ⟨hsound, hid, -⟩ := hchronicle.mirrored hr₂
      refine ⟨hnext, fun run' hr' => ?_, ?_⟩
      · obtain ⟨_, hbefore, hturn, -⟩ := m.turn hr'
        cases hbefore.symm.trans hr₂
        exact ((hover₂ run₂ hr₂).advance hsound (hsound.advance hturn)).1
      · cases hk : s₂.engine.store.kept? id with
        | none => exact .inr (m.unkept happens hk)
        | some k =>
          have hquiet : x.writes = false := by
            cases hr' : Engine.run? _ id with
            | none => rw [(hchronicle.over_of_left hr₂ m happens hr').2.1]; rfl
            | some run' =>
              obtain ⟨_, hbefore, hturn, -⟩ := m.turn hr'
              cases hbefore.symm.trans hr₂
              exact ((hover₂ run₂ hr₂).advance hsound (hsound.advance hturn)).2.2
          have hafter := m.kept? hr₂ hid hk
          rw [k.after_of_not_writes hquiet, ← hk] at hafter
          exact hkept.imp hafter.trans hafter.trans

/-- A wait on its way that has found the run at `s₀`: the run went on, and it took these steps. -/
inductive Engine.WaitsOut (id : String) (s₀ : Desk) : List Entry → Desk → WaitCall → Prop
  | finds (hr : (s₀.engine.run? id).isSome) : WaitsOut id s₀ [] s₀ (.await id)
  | goes {past more : List Entry} {s s' : Desk} {w : WaitCall} (h : WaitsOut id s₀ past s w) (g : s.Goes more s') :
      WaitsOut id s₀ (past ++ more) s' w
  | takes {past : List Entry} {s : Desk} {w w' : WaitCall} (h : WaitsOut id s₀ past s w)
      (hstep : w.step? s.engine = some w') : WaitsOut id s₀ past s w'

namespace Engine.WaitsOut

variable {w : WaitCall}

theorem leads (h : WaitsOut id s past s' w) : s.Leads past s' := by
  induction h with
  | finds => exact .here
  | goes _ g ih => exact ih.goes g
  | takes _ _ ih => exact ih

theorem lives {run : String} {life : List Engine.Moment} {e : Engine} (h : WaitsOut id s past s' w)
    (hlife : Engine.Lives run s'.engine life e) (happens : ∀ m ∈ life, m.happening ≠ .elsewhere)
    (ports : ∀ m ∈ life, ∀ node out, m.happening = .finished node (.ok out) → Keyed.Sorted out) :
    WaitsOut id s (past ++ life.map fun m => .turn run m.happening) { s' with engine := e } w :=
  hlife.turns (motive := fun past e => WaitsOut id s past { s' with engine := e } w) happens ports h
    fun _ _ _ _ h m happens ports => h.goes (.turn m happens ports)

/-- At some point since it was found, those who wait for the run had been told, or it was gone. -/
def Told (id : String) (s : Desk) (past : List Entry) (s' : Desk) : Prop :=
  ∃ upTo since s₁, past = upTo ++ since ∧ s.Leads upTo s₁ ∧ s₁.Leads since s' ∧ s₁.engine.isOver id = true

/-- How far it has come. -/
theorem stage (h : WaitsOut id s past s' w) : w = .await id ∨ w = .read id ∧ Told id s past s' ∨
    ∃ upTo since s₁, past = upTo ++ since ∧ Told id s upTo s₁ ∧ s₁.Leads since s' ∧
      w = .answered (s₁.engine.store.get id) := by
  induction h with
  | finds => exact .inl rfl
  | @goes past more s₁ s' w h g ih =>
    rcases ih with hawait | ⟨hread, upTo, since, s₂, rfl, hupTo, hsince, hover⟩ | ⟨upTo, since, s₂, rfl, htold, hsince, hw⟩
    · exact .inl hawait
    · exact .inr (.inl ⟨hread, upTo, since ++ more, s₂, List.append_assoc .., hupTo, hsince.goes g, hover⟩)
    · exact .inr (.inr ⟨upTo, since ++ more, s₂, List.append_assoc .., htold, hsince.goes g, hw⟩)
  | @takes past s' w w' h hstep ih =>
    rcases ih with rfl | ⟨rfl, htold⟩ | ⟨upTo, since, s₂, rfl, -, -, rfl⟩
    · cases WaitCall.strides_of_step? hstep with
      | told hover => exact .inr (.inl ⟨rfl, past, [], s', (List.append_nil _).symm, h.leads, .here, hover⟩)
    · cases WaitCall.strides_of_step? hstep with
      | answers => exact .inr (.inr ⟨past, [], s', (List.append_nil _).symm, htold, .here, rfl⟩)
    · cases hstep

end Engine.WaitsOut

/-- What a wait is answered that has found a run which was alive at `s₀`. -/
inductive Engine.Answered (id : String) (s₀ : Desk) : Except Failure Execution → Prop
  /-- What the store held, when it was read, was all of the final record. -/
  | final {upTo since : List Entry} {s₁ s₂ : Desk} {run : ActiveRun} (hupTo : s₀.Leads upTo s₁)
      (hr : s₁.engine.run? id = some run) (closing : run.coordinator.closing = true)
      (hsince : s₁.Leads since s₂) (held : s₂.engine.store.Holds id run.coordinator.execution) :
      Answered id s₀ (s₂.engine.store.get id)
  /-- It had been deleted. -/
  | deleted : Answered id s₀ (.error (.executionNotFound id))

/-- A run has ended when those who wait for it have been told. -/
theorem Engine.Hosts.over_of_told (h₀ : e₀.IsReady) (h : Hosts e₀ past s) (hr : s.engine.run? id = some run)
    (htold : WaitsOut.Told id s more s') : ∃ upTo since s₁ run₁, more = upTo ++ since ∧ s.Leads upTo s₁ ∧
      s₁.Leads since s' ∧ s₁.engine.run? id = some run₁ ∧ run₁.coordinator.Over := by
  obtain ⟨upTo, since, s₁, rfl, hupTo, hsince, hover⟩ := htold
  cases hr₁ : s₁.engine.run? id with
  | some run₁ =>
    rw [isOver, hr₁] at hover
    exact ⟨upTo, since, s₁, run₁, rfl, hupTo, hsince, hr₁, ((h.leads hupTo).chronicle h₀).over_of_done hr₁ hover⟩
  | none =>
    obtain ⟨upTo₂, since₂, s₂, run₂, rfl, hupTo₂, hsince₂, hr₂, hover₂⟩ := h.over_before_gone h₀ hr hupTo hr₁
    exact ⟨upTo₂, since₂ ++ since, s₂, run₂, List.append_assoc .., hupTo₂, hsince₂.trans hsince, hr₂, hover₂⟩

theorem Engine.WaitsOut.answered (h₀ : e₀.IsReady) (h : Hosts e₀ past s) (hr : s.engine.run? id = some run)
    {r : Except Failure Execution} (hwaits : WaitsOut id s more s' (.answered r)) : Answered id s r := by
  rcases hwaits.stage with hw | ⟨hw, -⟩ | ⟨upTo, since, s₂, -, htold, -, hw⟩
  · cases hw
  · cases hw
  · cases hw
    obtain ⟨upTo₁, since₁, s₁, run₁, -, hupTo, hsince, hr₁, hover⟩ := h.over_of_told h₀ hr htold
    have hthen := h.leads hupTo
    obtain ⟨-, -, htidy, -, hmirrored⟩ := (hthen.chronicle h₀).mirrored hr₁
    cases hk : s₂.engine.store.kept? id with
    | none =>
      rw [Store.get_of_unkept hk]
      exact .deleted
    | some k =>
      -- what is kept when it is read is what was kept when the run was over
      have hsame := (hthen.stands h₀ hr₁ hover hsince).resolve_right (hk ▸ Option.some_ne_none k)
      have hof := (hmirrored k (hsame.symm.trans hk)).of_over hover.visible
      exact .final hupTo hr₁ hover.closing hsince (Store.holds_of_kept hk hof htidy)

/-! ## What pruning may do to a run that is alive -/

namespace Engine

/-- What becomes of the record of the run `id`, alive at `s`, and of those who wait for it. -/
structure PrunesLive (s : Desk) (id : String) (run : ActiveRun) : Prop where
  /-- As long as the run has been told nothing, and has not come to its end, no cutoff deletes its record. -/
  spared : run.coordinator.stopping = false → run.coordinator.closing = false →
    ∃ k, s.engine.store.kept? id = some k ∧ ∀ before, (s.engine.prune before).1.store.kept? id = some k
  /-- While it is there the record is stored whenever the run has nothing to write. -/
  stored : (∀ errand ∈ run.coordinator.errands, errand.isVisible = true) → (s.engine.store.kept? id).isSome →
    s.engine.store.Holds id run.coordinator.execution
  /-- Then that of a run that drains or closes is deleted exactly if the run stopped before the cutoff. -/
  stopped : (∀ errand ∈ run.coordinator.errands, errand.isVisible = true) → (s.engine.store.kept? id).isSome →
    run.coordinator.stopping = true ∨ run.coordinator.closing = true →
    ∃ t, run.coordinator.execution.stoppedAt = some t ∧ ∀ before : Instant,
      (∀ rows, s.engine.store = .table rows → t.InColumn ∧ before.InColumn) →
      ((s.engine.prune before).1.store.kept? id = none ↔ t < before)
  /-- Once it is deleted nothing of the run is stored again, whatever happens. -/
  lost : s.engine.store.kept? id = none → ∀ more s', s.Leads more s' →
    s'.engine.store.kept? id = none ∧ s'.engine.store.get id = .error (.executionNotFound id)
  waited : ∀ more s' r, WaitsOut id s more s' (.answered r) → Answered id s r

/-- Pruning spares the record of a run that goes on, and deletes that of one that has been told to
stop as soon as the cutoff is later than that. -/
theorem prunesLive (h₀ : e₀.IsReady) (h : Hosts e₀ past s) (hr : s.engine.run? id = some run) :
    PrunesLive s id run := by
  have hchronicle := h.chronicle h₀
  obtain ⟨hsound, -, htidy, hsettled, hmirrored⟩ := hchronicle.mirrored hr
  refine
    { spared := fun hstop hclosing => ?spared
      stored := fun hvisible hkept => ?stored
      stopped := fun hvisible hkept hended => ?stopped
      lost := fun hnone more s' hlater => ?lost
      waited := fun more s' r hwaits => hwaits.answered h₀ h hr }
  case spared =>
    obtain ⟨k, hk⟩ := h.kept_of_going h₀ hr hstop hclosing
    refine ⟨k, hk, fun before => ?_⟩
    have hexpired : k.isExpired before = false := by
      refine Bool.eq_false_iff.mpr fun hexpired => ?_
      rcases hchronicle.not_going_of_kept hr hk (Kept.isTerminal_of_isExpired hexpired) with hbad | hbad
      · exact absurd (hstop.symm.trans hbad) nofun
      · exact absurd (hclosing.symm.trans hbad) nofun
    have hpruned : (s.engine.prune before).1.store.kept? id = _ := Store.kept?_prune hchronicle.stored before
    rw [hpruned, hk, Option.filter_some, hexpired]
    rfl
  case stored =>
    obtain ⟨k, hk⟩ := Option.isSome_iff_exists.mp hkept
    exact Store.holds_of_kept hk ((hmirrored k hk).of_over hvisible) htidy
  case stopped =>
    obtain ⟨k, hk⟩ := Option.isSome_iff_exists.mp hkept
    have hterm : run.coordinator.execution.isTerminal = true := hended.elim hsound.ended hsound.isTerminal_of_closing
    obtain ⟨t, ht⟩ := Option.isSome_iff_exists.mp (hsettled.stoppedAt.mpr hterm)
    refine ⟨t, ht, fun before hcolumn => ?_⟩
    rw [hchronicle.deletes_iff hk before]
    refine ((hmirrored k hk).of_over hvisible).isExpired_iff hterm ht fun row hrow => ?_
    obtain ⟨rows, hrows⟩ := Store.table_of_kept (hrow ▸ hk)
    exact hcolumn rows hrows
  case lost =>
    have hnever := h.unkept h₀ (hchronicle.living hr).1 hnone hlater
    exact ⟨hnever, Store.get_of_unkept hnever⟩

end Engine

/-! ## A run that is canceled while its first node is in flight -/

namespace Fork

open Engine

/-- The run has recorded that it is canceled, and drains. -/
def draining : Desk :=
  let desk := ((engine {}).host.started definition (.string "go") none).2
  { desk with engine := (takeSteps "run" 2 ((takeSteps "run" 4 desk.engine).2.cancelActive "run")).2 }

theorem hosts_draining : ∃ past, Hosts (engine {}).host past draining := by
  have hstarted := hosts_started (engine {}).host definition (.string "go") none
  have hcanceled : Hosts _ _ _ := (hstarted.takeSteps "run" 4).turn (.cancel : Engine.Moves "run" _ _ _) nofun nofun
  exact ⟨_, hcanceled.takeSteps "run" 2⟩

/-- It has nothing to write, and its record is there. -/
theorem prunesLive_draining : ∃ past run, (engine {}).host.IsReady ∧ Hosts (engine {}).host past draining ∧
    draining.engine.run? "run" = some run ∧ run.coordinator.inFlight = ["a"] ∧ run.coordinator.stopping = true ∧
    run.coordinator.errands = [] ∧ (draining.engine.store.kept? "run").isSome = true ∧ PrunesLive draining "run" run := by
  have hready : (engine {}).host.IsReady := isReady_host rfl rfl rfl rfl rfl
  obtain ⟨past, hdrains⟩ := hosts_draining
  exact ⟨past, _, hready, hdrains, rfl, by decide +kernel, by decide +kernel, by decide +kernel, by decide +kernel,
    prunesLive hready hdrains rfl⟩

/-- Pruning then deletes its record while it is alive. The node succeeds and the end is announced, but
nothing of it is stored, and a wait that has found the run is told that there is no such execution. -/
theorem deleted_underway : (∃ past, Hosts (engine {}).host past draining) ∧
    (draining.engine.run? "run").map (·.coordinator.inFlight) = some ["a"] ∧
    (draining.engine.prune (Instant.epoch.addSeconds 1)).2 = 1 ∧
    ∃ more s, WaitsOut "run" draining more s (.answered (.error (.executionNotFound "run"))) ∧
      s.engine.events = [.runStarted "run" "fork", .nodeStarted "run" "a", .nodeFinished "run" "a" "success" none,
        .runFinished "run" "canceled" none] ∧ (s.engine.store.kept? "run").isNone = true := by
  have hfound : WaitsOut "run" draining [] draining (.await "run") := .finds rfl
  have hpruned : WaitsOut _ _ _ _ _ := hfound.goes (.pruned (Instant.epoch.addSeconds 1))
  have hended := hpruned.lives
    (show Lives "run" _ (runNode "run" "a" (.ok [("main", .null)]) 0 7 _).1 _ from .runNode (by decide +kernel))
    happens_of_runNode (ports_of_runNode (Relay.ports_sorted .null))
  have hanswered : WaitsOut "run" _ _ _ (.answered (.error (.executionNotFound "run"))) := (hended.takes rfl).takes rfl
  exact ⟨hosts_draining, by decide +kernel, by decide +kernel, _, _, hanswered, by decide +kernel, by decide +kernel⟩

end Fork
end
end Workflows
