/-
  Workflows.Proofs.Engine.Reachable — what a schedule does by itself, and what clients ask of it.

  Whatever a schedule does is made up of the steps of `Schedule.Unfolds`: serving its queue, letting
  time jump from timer to timer, and each call of a client. So what holds of every schedule that
  unfolds holds of every schedule that comes about (`Schedule.Reachable`).
-/

import Workflows.Proofs.Engine.Unfolding

namespace Workflows

section

variable {e₀ : Engine} {env : Surroundings} {past : List Entry} {callers : List Caller} {t : Schedule}

namespace Schedule

/-- A schedule that comes about. -/
def Reachable (e₀ : Engine) (env : Surroundings) (t : Schedule) : Prop := ∃ past callers, Unfolds e₀ env past callers t

/-- The last call that was made takes some steps. -/
theorem Unfolds.advance (h₀ : e₀.IsReady) {c : Caller} (h : Unfolds e₀ env past (callers ++ [c]) t) (n : Nat) :
    ∃ past' c', Unfolds e₀ env past' (callers ++ [c']) { t with engine := (c.call.advance n t.engine).2 } := by
  induction n generalizing past c t with
  | zero => exact ⟨past, c, h⟩
  | succ n ih =>
    unfold StartCall.advance
    cases hstep : c.call.step? t.engine with
    | none => exact ⟨past, c, h⟩
    | some after =>
      obtain ⟨next, e⟩ := after
      have hregistry : e.registry.Orderly :=
        (StartCall.strides_of_step? hstep).settings_eq.2 ▸ (h.ledger h₀).furnished.registry
      have hnext := h.office (.stride List.getElem?_concat_length hstep) (fun id x hx => by cases List.mem_singleton.mp hx)
        hregistry
      rw [List.set_append_right _ _ (Nat.le_refl _), Nat.sub_self, List.set_cons_zero] at hnext
      exact ih hnext

namespace Reachable

theorem opens (orderly : e₀.registry.Orderly) : Reachable e₀ env { engine := e₀, surroundings := env } :=
  ⟨[], [], .opens orderly⟩

/-- Who is served next is open. -/
theorem aside (h : Reachable e₀ env t) (queue : List Work) (calls : List ToolCall) :
    Reachable e₀ env { t with queue, calls } := by
  obtain ⟨past, callers, h⟩ := h
  exact ⟨past, callers, h.aside queue calls⟩

theorem enqueueAll (h : Reachable e₀ env t) (ws : List Work) : Reachable e₀ env (t.enqueueAll ws) := by
  obtain ⟨queue, heq⟩ := t.enqueueAll_eq ws
  rw [heq]
  exact h.aside queue t.calls

theorem passed (h : Reachable e₀ env t) (now : Nat) : Reachable e₀ env { t with now } := by
  obtain ⟨past, callers, h⟩ := h
  exact ⟨past, callers, h.passed now⟩

theorem cancel (h : Reachable e₀ env t) (id : String) : Reachable e₀ env (t.cancel id).2 := by
  obtain ⟨past, callers, h⟩ := h
  exact ⟨_, callers, h.canceled id⟩

theorem serveJob (h : Reachable e₀ env t) (run node : String) : Reachable e₀ env (t.serveJob run node) := by
  obtain ⟨past, callers, h⟩ := h
  exact ⟨past, callers, h.served run node⟩

theorem serveRun (h : Reachable e₀ env t) (fuel : Nat) (run : String) : Reachable e₀ env (t.serveRun fuel run) := by
  induction fuel generalizing t with
  | zero => exact h
  | succ fuel ih =>
    obtain ⟨past, callers, h⟩ := h
    unfold Schedule.serveRun
    split
    next engine effect hstep => exact ih ⟨_, callers, h.stepped hstep⟩
    next engine hstep => exact ih ⟨_, callers, h.stepped hstep⟩
    next =>
      split
      next after htold =>
        obtain ⟨r, hr, -, ⟨-, -, hsignal, -⟩ | ⟨_, _, _, _, _, hsignal, -⟩⟩ := tell?_eq_some htold
        · exact ih ⟨_, callers, h.told hr hsignal htold⟩
        · exact ih ⟨_, callers, h.told hr hsignal htold⟩
      next => exact ⟨past, callers, h⟩

/-- A start that is asked for goes on to its end, and what it has started is taken up. -/
theorem begin (h₀ : e₀.IsReady) (h : Reachable e₀ env t) (c : Caller)
    (asked : ∀ s : Desk, s.Goes [] { s with callers := s.callers ++ [c] }) :
    Reachable e₀ env (Schedule.adopt { t with engine := (t.engine.begin c.call).2 }) := by
  obtain ⟨past, callers, h⟩ := h
  have hasked := h.office (asked _) (fun _ _ hx => absurd hx List.not_mem_nil) (h.ledger h₀).furnished.registry
  obtain ⟨past', c', hbegun⟩ := hasked.advance h₀ c.call.remaining
  exact ⟨past', callers ++ [c'], hbegun.adopted⟩

theorem start (h₀ : e₀.IsReady) (h : Reachable e₀ env t) (workflow : String) (trigger : Json) (key : Option String) :
    Reachable e₀ env (t.start workflow trigger key).2 :=
  h.begin h₀ (.ofWorkflow workflow trigger key) fun _ => .asked workflow trigger key

theorem startDefinition (h₀ : e₀.IsReady) (h : Reachable e₀ env t) (d : Definition) (trigger : Json)
    (key : Option String) : Reachable e₀ env (t.startDefinition d trigger key).2 :=
  h.begin h₀ (.ofDefinition d trigger key) fun _ => .given d trigger key

theorem serveRequests (h₀ : e₀.IsReady) (h : Reachable e₀ env t) (fuel : Nat) :
    Reachable e₀ env (t.serveRequests fuel) := by
  induction fuel generalizing t with
  | zero => exact h
  | succ fuel ih =>
    unfold Schedule.serveRequests
    split
    next => exact h
    next q rest hqueue =>
      obtain ⟨past, callers, h⟩ := h
      have htaken : Reachable e₀ env { t with engine := { t.engine with requests := rest } } :=
        ⟨_, _, h.office (.aside (.taken hqueue)) (fun _ _ hx => absurd hx List.not_mem_nil)
          (h.ledger h₀).furnished.registry⟩
      exact ih (htaken.start h₀ q.workflow q.trigger none)

theorem serve (h₀ : e₀.IsReady) (h : Reachable e₀ env t) (w : Work) : Reachable e₀ env (t.serve w) := by
  cases w with
  | run id => exact h.serveRun _ id
  | job run node => exact h.serveJob run node
  | requests => exact h.serveRequests h₀ _

theorem settleWithin (h₀ : e₀.IsReady) (h : Reachable e₀ env t) (fuel : Nat) :
    Reachable e₀ env (t.settleWithin fuel) := by
  induction fuel generalizing t with
  | zero => exact h
  | succ fuel ih =>
    unfold Schedule.settleWithin
    split
    next => exact h
    next w rest _ => exact ih ((h.aside rest t.calls).serve h₀ w)

theorem passUntil (h₀ : e₀.IsReady) (h : Reachable e₀ env t) (stop : Schedule → Bool) (limit : Option Nat) (fuel : Nat) :
    Reachable e₀ env (t.passUntil stop limit fuel) := by
  have hjump : ∀ {t : Schedule} now, Reachable e₀ env t → Reachable e₀ env (t.jump now) := fun now h =>
    ((h.passed now).enqueueAll _).settleWithin h₀ _
  induction fuel generalizing t with
  | zero => exact h
  | succ fuel ih =>
    unfold Schedule.passUntil
    split
    · exact h
    · split
      · split
        · exact ih (hjump _ h)
        · exact h
      · exact ih (hjump _ h)
      · exact h

theorem advance (h₀ : e₀.IsReady) (h : Reachable e₀ env t) (millis : Nat) : Reachable e₀ env (t.advance millis) :=
  ((h.settleWithin h₀ _).passUntil h₀ _ _ _).passed _

theorem waitFor (h₀ : e₀.IsReady) (h : Reachable e₀ env t) (run : String) : Reachable e₀ env (t.waitFor run).2 := by
  simp only [Schedule.waitFor]
  split
  · exact (h.settleWithin h₀ _).passUntil h₀ _ _ _
  · exact h

theorem watch (h₀ : e₀.IsReady) (h : Reachable e₀ env t) (run : String) : Reachable e₀ env (t.watch run).2 := by
  simp only [Schedule.watch]
  split
  · exact h
  · exact (h.settleWithin h₀ _).passUntil h₀ _ _ _

theorem callTool (h₀ : e₀.IsReady) (h : Reachable e₀ env t) (call : ToolCall) : Reachable e₀ env (t.callTool call).2 := by
  have hcalled := h.aside t.queue (t.calls ++ [call])
  simp only [Schedule.callTool]
  split
  · exact hcalled
  · exact hcalled.advance h₀ _

end Reachable

end Schedule
end
end Workflows
