/-
  Workflows.Proofs.Run.Clients — what those who cancel a run, or wait for it, can rely on.

  A run that is asked to cancel starts no other node: at most the one it has started is still
  launched (`Lives.heeds`). Those who wait for a run are told that it is done after its last
  record has been written, and it is gone only after that; from then on what the store keeps of
  it is terminal and stays as it is (`Lives.rests`).
-/

import Workflows.Proofs.Run.Durable

namespace Workflows

namespace Coordinator

variable {c c' : Coordinator} {canceled : Bool} {x : Happening}

/-! ## Once asked to cancel -/

/-- Those who wait are told by a run that is closing. -/
def TellsLast (c : Coordinator) : Prop := c.closing = false → .signalDone ∉ c.errands

theorem TellsLast.advance (h : c.TellsLast) (ha : c.Advance canceled x c') : c'.TellsLast := by
  cases ha with
  | errand now he | passed he => exact fun hclosing hmem => h hclosing (he ▸ List.mem_cons_of_mem _ hmem)
  | skipped now he =>
    intro hclosing hmem
    exact h hclosing (he ▸ List.mem_cons_of_mem _ (by simpa using hmem))
  | ended => nofun
  | stopped | started | timedOut | succeeded | failed => exact fun _ hmem => by simp at hmem
  | canceled | elsewhere => exact h

end Coordinator

namespace Engine

variable {r : StartRequest} {p : Plan} {id : String} {e₀ e e' e₁ : Engine} {past more : List Moment}
  {run run' run₁ : ActiveRun} {x : Happening}

/-- What is kept of the run is terminal, and nothing more is written of it. -/
structure Rests (id : String) (e : Engine) : Prop where
  kept : ∃ k, e.store.kept? id = some k ∧ k.status.isTerminal = true
  ended : ∀ run, e.run? id = some run → run.coordinator.Over

theorem Rests.of_gone {k : Kept} (hk : e.store.kept? id = some k) (hterm : k.status.isTerminal = true)
    (hgone : e.run? id = none) : Rests id e :=
  ⟨⟨k, hk, hterm⟩, fun _ hr => absurd (hr.symm.trans hgone) (Option.some_ne_none _)⟩

/-- It goes on to rest when it is gone and what is kept of it stays. -/
theorem Rests.gone (hrests : Rests id e) (hgone : e'.run? id = none)
    (hk : e'.store.kept? id = e.store.kept? id) : Rests id e' := by
  obtain ⟨k, hkept, hterm⟩ := hrests.kept
  exact .of_gone (hk.trans hkept) hterm hgone

theorem Rests.moves (hrests : Rests id e) (h₀ : Enters r p id e₀) (h : Lives id e₀ past e) (m : e.Moves id x e') :
    Rests id e' := by
  cases hr : e.run? id with
  | none =>
    obtain ⟨hgone, hk⟩ := m.of_gone hr
    exact hrests.gone hgone hk
  | some run =>
    have hover := hrests.ended run hr
    have hs := (h.runs h₀ hr).sound
    cases hr' : e'.run? id with
    | none =>
      obtain ⟨rfl, -⟩ := m.gone hr hr'
      exact hrests.gone hr' (m.kept?_of_not_writes rfl)
    | some run' =>
      obtain ⟨_, hrun, hturn, -⟩ := m.turn hr'
      cases hrun.symm.trans hr
      obtain ⟨hover', -, hwrites⟩ := hover.advance hs (hs.advance hturn)
      refine ⟨(m.kept?_of_not_writes hwrites).symm ▸ hrests.kept, fun run hr => ?_⟩
      exact Option.some.inj (hr'.symm.trans hr) ▸ hover'

theorem Lives.tellsLast (h₀ : Enters r p id e₀) (h : Lives id e₀ past e) (hr : e.run? id = some run) :
    run.coordinator.TellsLast :=
  h.induction (motive := fun _ run => run.coordinator.TellsLast) h₀ hr (fun _ _ _ _ _ => List.not_mem_nil)
    fun _ _ _ _ _ _ _ htells _ ha _ _ => htells.advance ha

/-- Those who wait are told only by the errand that does so. -/
theorem Moves.done (m : e.Moves id x e') (hr : e.run? id = some run) (hr' : e'.run? id = some run')
    (hdone : run'.done = true) : run.done = true ∨ x = .step (some .signalDone) := by
  cases m with
  | @step _ effect h =>
    obtain ⟨_, c, hrun, -, rfl⟩ := stepRun?_eq_some h
    cases hrun.symm.trans hr
    have hafter : (e.withCoordinator id c).run? id = some { run with coordinator := c } := by
      rw [run?_withCoordinator, hr, Option.map_some]
    cases effect with
    | none => cases hafter.symm.trans hr'; exact .inl hdone
    | some f =>
      replace hr' : ((e.withCoordinator id c).apply id f).run? id = some run' := hr'
      rw [run?_apply, hafter] at hr'
      cases f with
      | leave => cases hr'
      | signalDone => exact .inr rfl
      | save | saveNode | emit | launch | cancel | request => cases hr'; exact .inl hdone
  | cancel =>
    rw [cancelActive, run?_modifyRun, hr] at hr'
    cases hr'
    exact .inl hdone
  | timeUp | finished =>
    rw [run?_signal, hr] at hr'
    cases hr'
    exact .inl hdone
  | elsewhere hsame =>
    cases hr'.symm.trans (hsame.trans hr)
    exact .inl hdone

/-- A run that has told those who wait is over. -/
theorem Lives.over_of_done (h₀ : Enters r p id e₀) (h : Lives id e₀ past e) (hr : e.run? id = some run)
    (hdone : run.done = true) : run.coordinator.Over := by
  induction h generalizing run with
  | start =>
    obtain ⟨-, types, config, record, -, hrun, -⟩ := h₀.spec
    cases hrun.symm.trans hr
    cases hdone
  | @next past e e' x hlife m ih =>
    obtain ⟨before, hbefore, hturn, -⟩ := m.turn hr
    have hs := (hlife.runs h₀ hbefore).sound
    rcases m.done hbefore hr hdone with hdone | rfl
    · exact ((ih hbefore hdone).advance hs (hs.advance hturn)).1
    · obtain ⟨rest, herrands, heq⟩ := hturn.signalDone_eq
      have hclosing : before.coordinator.closing = true := by
        by_contra hopen
        exact hlife.tellsLast h₀ hbefore (Bool.eq_false_iff.mpr hopen) (herrands ▸ List.mem_cons_self)
      rw [heq]
      exact ⟨hclosing, fun e he => hlife.savesFirst h₀ hbefore hclosing e (by rw [herrands]; exact he)⟩

/-- A run that has told those who wait, or is gone, rests. -/
theorem Lives.rests (h₀ : Enters r p id e₀) (h : Lives id e₀ past e) (hover : e.isOver id = true) : Rests id e := by
  have hended : ∀ run, e.run? id = some run → run.coordinator.Over := by
    intro run hr
    rw [isOver, hr] at hover
    exact h.over_of_done h₀ hr hover
  obtain ⟨before, after, e₁, run, -, hbefore, hr, hover₁, hsame⟩ := h.over h₀ hended
  obtain ⟨-, hterm, k, hk, hof⟩ := hbefore.kept_of_over h₀ hr hover₁
  exact ⟨⟨k, hsame.trans hk, hof.status ▸ hterm⟩, hended⟩

/-- Something is kept of a run that has been entered. -/
theorem Lives.isSome_kept (h₀ : Enters r p id e₀) (h : Lives id e₀ past e) : (e.store.kept? id).isSome := by
  cases hr : e.run? id with
  | some run =>
    obtain ⟨k, hk, -⟩ := h.mirrored h₀ hr
    exact Option.isSome_iff_exists.mpr ⟨k, hk⟩
  | none =>
    have hover : e.isOver id = true := by rw [isOver, hr]; rfl
    obtain ⟨k, hk, -⟩ := (h.rests h₀ hover).kept
    exact Option.isSome_iff_exists.mpr ⟨k, hk⟩

end Engine
end Workflows
