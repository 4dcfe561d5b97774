/-
  Workflows.Proofs.Run.Recorded — what the store keeps of a run that goes on.

  What is kept of a node lags behind the record only while its writing is still to be carried
  out (`Recorded.synced`). Nothing is left to write when a node is started, so the nodes that
  feed it are kept as successes from then on (`Recorded.fed`).
-/

import Workflows.Proofs.Run.Tally

namespace Workflows

open Coordinator

structure Recorded (k : Kept) (c : Coordinator) : Prop where
  tidy : c.execution.Tidy
  strange : ∀ x, c.execution.nodeStatus? x = none → k.nodeStatus? x = none
  synced : ∀ x, .save ∉ c.errands → .saveNode x ∉ c.errands → k.nodeStatus? x = c.execution.nodeStatus? x
  fed : ∀ x, c.execution.HasStarted x → ∀ a, c.definition.Feeds a x → k.nodeStatus? a = some .success

namespace Recorded

variable {k : Kept} {c c' : Coordinator} {id : String}

/-- The first errand is dropped, with nothing left to write of it. -/
theorem drop {e : Errand} {rest : List Errand} (h : Recorded k c) (he : c.errands = e :: rest)
    (hsave : e = .save → ∀ x, k.nodeStatus? x = c.execution.nodeStatus? x)
    (hnode : ∀ x, e = .saveNode x → k.nodeStatus? x = c.execution.nodeStatus? x) :
    Recorded k { c with errands := rest } := by
  refine { h with synced := fun x hnosave hnonode => ?_ }
  by_cases h₁ : e = .save
  · exact hsave h₁ x
  by_cases h₂ : e = .saveNode x
  · exact hnode x h₂
  refine h.synced x ?_ ?_ <;> rw [he]
  · exact fun hmem => (List.mem_cons.mp hmem).elim (fun heq => h₁ heq.symm) hnosave
  · exact fun hmem => (List.mem_cons.mp hmem).elim (fun heq => h₂ heq.symm) hnonode

/-- The whole record is written. -/
theorem update (h : Recorded k c) (hs : c.Sound) : Recorded (k.update c.execution) c ∧
    ∀ x, (k.update c.execution).nodeStatus? x = c.execution.nodeStatus? x := by
  have hkept : ∀ x, (k.update c.execution).nodeStatus? x = c.execution.nodeStatus? x :=
    fun x => Kept.nodeStatus?_update h.tidy.sorted h.tidy.named (h.strange x)
  refine ⟨?_, hkept⟩
  exact
    { tidy := h.tidy
      strange := fun x hx => (hkept x).trans hx
      synced := fun x _ _ => hkept x
      fed := fun x hx a ha => (hkept a).trans (hs.fed x hx a ha) }

/-- The result of a node is written. -/
theorem putNode {r : NodeResult} (h : Recorded k c) (hs : c.Sound) (hr : c.execution.node? id = some r) :
    Recorded (k.putNode r) c ∧ (k.putNode r).nodeStatus? id = c.execution.nodeStatus? id := by
  have hid : r.nodeId = id := h.tidy.named id r hr
  have hthis : c.execution.nodeStatus? id = some r.status := Execution.nodeStatus?_eq_some.mpr ⟨r, hr, rfl⟩
  have hkept : ∀ x, (k.putNode r).nodeStatus? x = if x = id then some r.status else k.nodeStatus? x :=
    fun x => hid ▸ Kept.nodeStatus?_putNode k r
  -- what was kept of any node agrees with the record as far as it did before
  have hsame : ∀ x s, (x ≠ id → k.nodeStatus? x = s) → c.execution.nodeStatus? x = s →
      (k.putNode r).nodeStatus? x = s := by
    intro x s hother hx
    rw [hkept x]
    split
    next heq => rw [← hthis, ← heq, hx]
    next hne => exact hother hne
  refine ⟨?_, (hkept id).trans ((if_pos rfl).trans hthis.symm)⟩
  exact
    { tidy := h.tidy
      strange := fun x hx => hsame x none (fun _ => h.strange x hx) hx
      synced := fun x hsave hnode => hsame x _ (fun _ => h.synced x hsave hnode) rfl
      fed := fun x hx a ha => hsame a _ (fun _ => h.fed x hx a ha) (hs.fed x hx a ha) }

/-- The first errand is carried out. -/
theorem errand {e : Errand} {rest : List Errand} (h : Recorded k c) (now : Instant) (hs : c.Sound)
    (he : c.errands = e :: rest) :
    Recorded (k.after (.step ({ c with errands := rest }.perform now e).2)) { c with errands := rest } := by
  cases e with
  | save =>
    obtain ⟨hwritten, hkept⟩ := h.update hs
    exact hwritten.drop he (fun _ => hkept) (by simp)
  | saveNode id =>
    cases hr : c.execution.node? id with
    | none =>
      have hsame : k.after (.step ({ c with errands := rest }.perform now (.saveNode id)).2) = k := by
        simp only [perform, hr]
        rfl
      have hnone : c.execution.nodeStatus? id = none := by rw [Execution.nodeStatus?, hr]; rfl
      rw [hsame]
      refine h.drop he (by simp) fun x heq => ?_
      obtain rfl := Errand.saveNode.inj heq
      rw [hnone, h.strange _ hnone]
    | some r =>
      have hafter : k.after (.step ({ c with errands := rest }.perform now (.saveNode id)).2) = k.putNode r := by
        simp only [perform, hr]
        rfl
      obtain ⟨hwritten, hkept⟩ := h.putNode hs hr
      rw [hafter]
      refine hwritten.drop he (by simp) fun x heq => ?_
      obtain rfl := Errand.saveNode.inj heq
      exact hkept
  | emit | launch | skip | cancel | request | signalDone | leave => exact h.drop he (by simp) (by simp)

theorem kept_of_idle (h : Recorded k c) (idle : c.Idle) (x : String) : k.nodeStatus? x = c.execution.nodeStatus? x :=
  h.synced x (by simp [idle.errands]) (by simp [idle.errands])

/-- The result of one node changes and is still to be written. -/
theorem change {old r : NodeResult} (h : Recorded k c) (hold : c.execution.node? id = some old)
    (hset : c'.execution.nodeResults = (c.execution.setNode id r).nodeResults) (hr : r.nodeId = old.nodeId)
    (hdef : c'.definition = c.definition)
    (hwrite : .save ∈ c'.errands ∨ .saveNode id ∈ c'.errands)
    (hlag : ∀ x, .save ∉ c'.errands → .saveNode x ∉ c'.errands → .save ∉ c.errands ∧ .saveNode x ∉ c.errands)
    (hfed : c'.execution.HasStarted id → c.execution.HasStarted id ∨ c.execution.Fed c.definition id ∧ c.Idle) :
    Recorded k c' := by
  have hc : c.execution.Changes c'.execution id old.status r.status :=
    (Execution.changes_setNode (Execution.nodeStatus?_eq_some.mpr ⟨old, hold, rfl⟩)).congr hset
  refine
    { tidy := (h.tidy.setNode (hr.trans (h.tidy.named id old hold))).congr hset
      strange := fun x hx => ?_
      synced := fun x hsave hnode => ?_
      fed := fun x hx a ha => ?_ }
  · by_cases hxid : x = id
    · subst hxid
      exact absurd (hc.after.symm.trans hx) (Option.some_ne_none _)
    · exact h.strange x ((hc.other x hxid).symm.trans hx)
  · have hne : x ≠ id := by
      intro heq
      subst heq
      exact hwrite.elim hsave hnode
    rw [hc.other x hne]
    exact h.synced x (hlag x hsave hnode).1 (hlag x hsave hnode).2
  · rw [hdef] at ha
    have hbefore : c.execution.HasStarted x ∨ c.execution.Fed c.definition x ∧ c.Idle := by
      by_cases hxid : x = id
      · subst hxid
        exact hfed hx
      · exact .inl ((Execution.hasStarted_congr (hc.other x hxid)).mp hx)
    rcases hbefore with hx | ⟨hx, idle⟩
    · exact h.fed x hx a ha
    · exact (h.kept_of_idle idle a).trans (hx a ha)

/-- No result changes and the whole record is still to be written. -/
theorem unchanged (h : Recorded k c) (hdef : c'.definition = c.definition) (htidy : c'.execution.Tidy)
    (hstatus : ∀ x, c'.execution.nodeStatus? x = c.execution.nodeStatus? x) (hwrite : .save ∈ c'.errands) :
    Recorded k c' :=
  { tidy := htidy
    strange := fun x hx => h.strange x ((hstatus x).symm.trans hx)
    synced := fun _ hsave _ => absurd hwrite hsave
    fed := fun x hx a ha => h.fed x ((Execution.hasStarted_congr (hstatus x)).mp hx) a (hdef ▸ ha) }

theorem advance {canceled : Bool} {x : Happening} (h : Recorded k c) (hs : c.Sound) (ha : c.Advance canceled x c') :
    Recorded (k.after x) c' := by
  cases ha with
  | errand now he hskip => exact h.errand now hs he
  | passed he hskipped => exact h.errand .epoch hs he
  | @skipped id rest r now he hr hw =>
    refine h.change hr rfl rfl rfl (.inr List.mem_cons_self) (fun y hsave hnode => ?_) fun hy => ?_
    · rw [he]
      simp only [List.mem_append, List.mem_cons, List.not_mem_nil, or_false, not_or] at hsave hnode
      simp only [List.mem_cons, not_or]
      exact ⟨⟨nofun, hsave.2⟩, nofun, hnode.2⟩
    · have hskipped : (c.execution.setNode id { r with status := .skipped, stoppedAt := some now }).nodeStatus? id =
          some .skipped := Execution.nodeStatus?_setNode.trans (if_pos rfl)
      rcases hy with hy | hy | hy <;> exact absurd (hskipped.symm.trans hy) (by decide)
  | stopped now idle going asked =>
    exact h.unchanged rfl (h.tidy.congr rfl) (fun _ => rfl) List.mem_cons_self
  | @started id rest node r now idle going unasked slot first hn hr hw fed =>
    exact h.change hr rfl rfl rfl (.inr List.mem_cons_self) (fun y _ _ => by simp [idle.errands])
      fun _ => .inr ⟨fed, idle⟩
  | ended now idle landed hend =>
    exact h.unchanged rfl (tidy_finalRecord h.tidy) (fun _ => nodeStatus?_finalRecord) (by simp [finish])
  | timedOut now idle flying going unasked limit =>
    exact h.unchanged rfl (h.tidy.congr rfl) (fun _ => rfl) (by simp)
  | @succeeded id ports r pending ready now idle hr hrun =>
    have hrunning : c.execution.nodeStatus? id = some .running := Execution.nodeStatus?_eq_some.mpr ⟨r, hr, hrun⟩
    exact h.change hr rfl rfl rfl (.inl List.mem_cons_self) (fun y _ _ => by simp [idle.errands])
      fun _ => .inl (.inl hrunning)
  | @failed id err r now idle hr hrun =>
    have hrunning : c.execution.nodeStatus? id = some .running := Execution.nodeStatus?_eq_some.mpr ⟨r, hr, hrun⟩
    exact h.change hr rfl rfl rfl (.inr List.mem_cons_self) (fun y _ _ => by simp [idle.errands])
      fun _ => .inl (.inl hrunning)
  | canceled | elsewhere => exact h

end Recorded

namespace Engine

variable {r : StartRequest} {p : Plan} {id : String} {e₀ e : Engine} {past : List Moment} {run : ActiveRun}

theorem Lives.recorded (h₀ : Enters r p id e₀) (h : Lives id e₀ past e) (hr : e.run? id = some run) :
    ∃ k, e.store.kept? id = some k ∧ Recorded k run.coordinator := by
  induction h generalizing run with
  | start =>
    obtain ⟨-, types, config, record, hrecord, hrun, k, hk, hof⟩ := h₀.spec
    have hstatus := hof.nodeStatus? hrecord.tidy
    cases hrun.symm.trans hr
    have hnone : ∀ x, ¬ record.HasStarted x := by
      intro x hx
      rcases hx with hx | hx | hx <;> cases Execution.eq_waiting_of_waits hrecord.nodeStatus? hx
    exact ⟨k, hk, hrecord.tidy, fun x hx => (hstatus x).trans hx, fun x _ _ => hstatus x,
      fun x hx => absurd hx (hnone x)⟩
  | next hlife m ih =>
    obtain ⟨before, hbefore, hturn, -⟩ := m.turn hr
    obtain ⟨k, hk, hrecorded⟩ := ih hbefore
    have hruns := hlife.runs h₀ hbefore
    exact ⟨_, m.kept? hbefore hruns.id_eq hk, hrecorded.advance hruns.sound (hruns.sound.advance hturn)⟩

end Engine
end Workflows
