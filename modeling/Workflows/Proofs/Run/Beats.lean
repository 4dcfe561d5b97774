/-
  Workflows.Proofs.Run.Beats — a run goes where its own beats take it.

  A beat is an instant and what happens to the run at it: that it takes a step, that it is asked to
  cancel, or what it is told. What a step does is not part of the beat, for it follows from the
  run: `ActiveRun.next?` computes it. So the beats of a life and the run that was entered fix the
  run at every later point (`Lives.replayed`), whatever else the engine and its store hold.
-/

import Workflows.Proofs.Engine.Pruned
import Workflows.Proofs.Run.Durable

namespace Workflows

/-- Something happens to a run at an instant. -/
abbrev Beat := Instant × Happening

namespace ActiveRun

/-- The run after a step that asked for this; none when it leaves. -/
def feel? (run : ActiveRun) : Option Effect → Option ActiveRun
  | some .cancel => some { run with canceled := true }
  | some .signalDone => some { run with done := true }
  | some .leave => none
  | _ => some run

/-- The run is told something, if it waits. -/
def hear? (run : ActiveRun) (now : Instant) (s : Signal) : Option ActiveRun :=
  if run.coordinator.isWaiting run.canceled then
    some { run with coordinator := run.coordinator.receive now s }
  else none

/-- The run after a beat; none when it leaves, or when the beat cannot be one of its own. -/
def next? (run : ActiveRun) : Beat → Option ActiveRun
  | (now, .step _) =>
    (run.coordinator.step? run.canceled now).bind fun (c, effect) => { run with coordinator := c }.feel? effect
  | (_, .cancel) => some { run with canceled := true }
  | (now, .timeUp) => run.hear? now .timedOut
  | (now, .finished node outcome) => run.hear? now (.finished node outcome)
  | (_, .elsewhere) => some run

/-- What becomes of a run, if there is one, beat by beat. -/
def replay (run : Option ActiveRun) (beats : List Beat) : Option ActiveRun :=
  beats.foldl (fun run beat => run.bind (·.next? beat)) run

end ActiveRun

namespace Engine

/-- The beat of the run in what happens; none in what does not concern it. -/
def Moment.beat? (m : Moment) : Option Beat :=
  match m.happening with
  | .elsewhere => none
  | .step _ => some (m.engine.clock, .step none)
  | x => some (m.engine.clock, x)

def beats (past : List Moment) : List Beat := past.filterMap Moment.beat?

variable {id : String} {e₀ e e' : Engine} {past : List Moment} {m : Moment} {run : ActiveRun} {x : Happening}

theorem beats_append : beats (past ++ [m]) = beats past ++ m.beat?.toList := by
  simp only [beats, List.filterMap_append]
  cases h : m.beat? <;> simp [h]

theorem replay_append (run : Option ActiveRun) (past : List Moment) (m : Moment) :
    ActiveRun.replay run (beats (past ++ [m])) = m.beat?.elim (ActiveRun.replay run (beats past)) fun b =>
      (ActiveRun.replay run (beats past)).bind (·.next? b) := by
  rw [beats_append, ActiveRun.replay, List.foldl_append]
  cases m.beat? <;> rfl

/-! ## The run follows from its beats -/

theorem run?_apply_withCoordinator {c : Coordinator} {effect : Option Effect} (hr : e.run? id = some run) :
    (effect.elim (e.withCoordinator id c) ((e.withCoordinator id c).apply id)).run? id =
      { run with coordinator := c }.feel? effect := by
  have hafter : (e.withCoordinator id c).run? id = some { run with coordinator := c } := by
    rw [run?_withCoordinator, hr, Option.map_some]
  cases effect with
  | none => exact hafter
  | some f =>
    rw [Option.elim_some, run?_apply, hafter]
    cases f <;> rfl

/-- What happens in an engine takes the run where its beat takes it. -/
theorem Moves.run?_eq (m : e.Moves id x e') :
    e'.run? id = (Moment.beat? ⟨e, x⟩).elim (e.run? id) fun b => (e.run? id).bind (·.next? b) := by
  cases m with
  | @step _ effect h =>
    obtain ⟨run, c, hr, hstep, rfl⟩ := stepRun?_eq_some h
    simp only [Moment.beat?, Option.elim_some, hr, Option.bind_some, ActiveRun.next?, hstep]
    exact run?_apply_withCoordinator hr
  | cancel =>
    rw [cancelActive, run?_modifyRun]
    simp only [Moment.beat?, Option.elim_some, ActiveRun.next?]
    cases e.run? id <;> rfl
  | @timeUp run hr hw going limit =>
    rw [run?_signal, hr]
    simp only [Moment.beat?, Option.elim_some, Option.bind_some, Option.map_some, ActiveRun.next?, ActiveRun.hear?, hw,
      if_true]
  | @finished run node outcome hr hw flying =>
    rw [run?_signal, hr]
    simp only [Moment.beat?, Option.elim_some, Option.bind_some, Option.map_some, ActiveRun.next?, ActiveRun.hear?, hw,
      if_true]
  | elsewhere hr hk => exact hr

/-- The run at a point of its life is what its beats have made of it. -/
theorem Lives.replayed (h : Lives id e₀ past e) : e.run? id = ActiveRun.replay (e₀.run? id) (beats past) := by
  induction h with
  | start => rfl
  | next _ m ih => rw [replay_append, ← ih, m.run?_eq]

/-! ## One life after another -/

theorem Lives.cut {first last : List Moment} (h : Lives id e₀ (first ++ last) e) :
    ∃ e₁, Lives id e₀ first e₁ ∧ Lives id e₁ last e := by
  cases last with
  | nil => exact ⟨e, List.append_nil first ▸ h, .start⟩
  | cons m rest =>
    obtain ⟨e₁, hfirst, hmoves, hrest⟩ := h.split
    exact ⟨m.engine, hfirst, (Lives.start.next hmoves).append hrest⟩

/-- A life goes on to where its first beats have led. -/
theorem Lives.cut_of_beats {before : List Moment} {rest : List Beat} (h : Lives id e₀ past e)
    (hbeats : beats past = beats before ++ rest) :
    ∃ first last e₁, past = first ++ last ∧ beats first = beats before ∧ Lives id e₀ first e₁ ∧
      Lives id e₁ last e := by
  obtain ⟨first, last, rfl, hfirst, -⟩ := List.filterMap_eq_append_iff.mp hbeats
  obtain ⟨e₁, hlife, hlater⟩ := h.cut
  exact ⟨first, last, e₁, rfl, hfirst, hlife, hlater⟩

end Engine
end Workflows
