/-
  Workflows.Proofs.Engine.Pruned — what pruning leaves of a run.

  Pruning deletes what is kept of a run that has ended, or leaves it as it is (`spares_prune`).
  A run that is about to leave may be deleted before it is gone; what it still does is what it
  would do on the store that keeps it (`Moves.on_store`).
-/

import Workflows.Proofs.Engine.Hosts

namespace Workflows

namespace Store

variable {s s' : Store} {id : String} {before : Instant}

/-- Where keys are distinct, what is found under a key among those that pass is what is found under
it, if that passes. -/
theorem find?_filter_of_nodup {α : Type} {key : α → String} {q : α → Bool} {l : List α} (h : (l.map key).Nodup) :
    (l.filter q).find? (key · == id) = (l.find? (key · == id)).filter q := by
  induction l with
  | nil => rfl
  | cons a rest ih =>
    obtain ⟨hfirst, hrest⟩ := List.nodup_cons.mp h
    have hone : key a = id → rest.find? (key · == id) = none := fun ha => List.find?_eq_none.mpr fun b hb hkey =>
      hfirst (List.mem_map.mpr ⟨b, hb, (beq_iff_eq.mp hkey).trans ha.symm⟩)
    by_cases ha : key a = id
    · cases hq : q a <;> simp [hq, ha, ih hrest, hone ha, Option.filter]
    · have hne : (key a == id) = false := beq_eq_false_iff_ne.mpr ha
      cases hq : q a <;> simp [hq, hne, ih hrest]

/-- What is kept of an execution after pruning is what was, unless it has expired. -/
theorem kept?_prune (h : (s.stamps.map Stamp.id).Nodup) (before : Instant) :
    (s.prune before).1.kept? id = (s.kept? id).filter (!Kept.isExpired before ·) := by
  cases s with
  | memory m =>
    rw [stamps, List.map_map] at h
    rw [kept?, Option.filter_map]
    exact congrArg (Option.map _) (find?_filter_of_nodup h)
  | table t =>
    rw [stamps, List.map_map] at h
    rw [kept?, Option.filter_map]
    exact congrArg (Option.map _) (find?_filter_of_nodup h)

theorem stamps_prune (s : Store) (before : Instant) : (s.prune before).1.stamps.Sublist s.stamps := by
  cases s with
  | memory m => exact List.filter_sublist.map _
  | table t => exact List.filter_sublist.map _

/-- Writing to the store changes no id. -/
theorem ids_update {e : Execution} (h : s.update e = .ok s') : s'.stamps.map Stamp.id = s.stamps.map Stamp.id := by
  cases s with
  | memory m =>
    simp only [update, MemoryStore.update, MemoryStore.modify] at h
    split at h
    · cases h
      simp only [stamps, List.map_map]
      refine List.map_congr_left fun x _ => ?_
      simp only [Function.comp_apply]
      split
      next hid => exact hid.symm
      next => rfl
    · cases h
  | table t =>
    simp only [update, TableStore.update, TableStore.modify] at h
    split at h
    · cases h
      exact congrArg _ (map_stamp_replace ExecutionRow.stamp fun _ _ _ => rfl)
    · cases h

end Store

namespace Engine

variable {id : String} {e e' : Engine} {x : Happening}

/-- Pruning deletes only runs that have ended. -/
theorem spares_prune (h : (e.store.stamps.map Stamp.id).Nodup) (id : String) (before : Instant) :
    e.Spares id (e.prune before).1 := by
  refine ⟨rfl, ?_, rfl⟩
  have hkept : (e.prune before).1.store.kept? id = _ := Store.kept?_prune h before
  rw [hkept]
  cases e.store.kept? id with
  | none => exact .inl rfl
  | some k =>
    cases hexpired : k.isExpired before with
    | true =>
      refine .inr ⟨by simp [Option.filter, hexpired], fun k' hk' => ?_⟩
      cases hk'
      exact Kept.isTerminal_of_isExpired hexpired
    | false => exact .inl (by simp [Option.filter, hexpired])

/-! ## The ids in the store -/

theorem ids_store_write {f : Store → Except Failure Store}
    (hf : ∀ s, f e.store = .ok s → s.stamps.map Stamp.id = e.store.stamps.map Stamp.id) :
    (e.write f).store.stamps.map Stamp.id = e.store.stamps.map Stamp.id := by
  unfold write
  split
  next s hs => exact hf s hs
  next => rfl

theorem Moves.ids_store (m : e.Moves id x e') (happens : x ≠ .elsewhere) :
    e'.store.stamps.map Stamp.id = e.store.stamps.map Stamp.id := by
  cases m with
  | @step _ effect h =>
    obtain ⟨run, c, -, -, rfl⟩ := stepRun?_eq_some h
    cases effect with
    | none => rfl
    | some f =>
      cases f with
      | save record =>
        exact ids_store_write (e := e.withCoordinator id c) (f := (·.update record)) fun _ => Store.ids_update
      | saveNode execution r =>
        exact ids_store_write (e := e.withCoordinator id c) (f := (·.putNode execution r)) fun _ hs =>
          congrArg _ (Store.stamps_putNode hs)
      | emit | launch | cancel | request | signalDone | leave => rfl
  | cancel | timeUp | finished => rfl
  | elsewhere => exact absurd rfl happens

/-! ## The same turn on another store -/

/-- The engine with another store. -/
def onStore (e : Engine) (store : Store) : Engine := { e with store }

variable {store : Store}

theorem withCoordinator_onStore (c : Coordinator) :
    (e.onStore store).withCoordinator id c = (e.withCoordinator id c).onStore store := by
  simp only [withCoordinator, onStore, modifyRun]

theorem signal_onStore (e : Engine) (store : Store) (s : Signal) :
    (e.onStore store).signal id s = (e.signal id s).onStore store := by
  simp only [signal, readClock, onStore, modifyRun]

theorem stepRun?_of_step? {run : ActiveRun} {c : Coordinator} {effect : Option Effect} (hr : e.run? id = some run)
    (hstep : run.coordinator.step? run.canceled e.clock = some (c, effect)) :
    e.stepRun? id = some (effect.elim (e.withCoordinator id c) ((e.withCoordinator id c).apply id), effect) := by
  simp only [stepRun?, hr, hstep, bind, Option.bind_some]
  cases effect <;> rfl

/-- What an effect does to the engine but for its store does not depend on the store. -/
theorem apply_onStore (e : Engine) (id : String) (effect : Effect) (store : Store) :
    ∃ store', (e.onStore store).apply id effect = (e.apply id effect).onStore store' := by
  have hwrite : ∀ f : Store → Except Failure Store, ∃ store', (e.onStore store).write f = (e.write f).onStore store' := by
    intro f
    unfold write
    split <;> split <;> exact ⟨_, rfl⟩
  cases effect with
  | save record => exact hwrite (·.update record)
  | saveNode execution r => exact hwrite (·.putNode execution r)
  | emit | launch | cancel | request | signalDone | leave => exact ⟨_, rfl⟩

/-- A turn is the same whatever the store has kept. -/
theorem Moves.on_store (m : e.Moves id x e') (happens : x ≠ .elsewhere) (store : Store) :
    ∃ store', (e.onStore store).Moves id x (e'.onStore store') := by
  cases m with
  | @step _ effect h =>
    obtain ⟨run, c, hr, hstep, rfl⟩ := stepRun?_eq_some h
    have hmoves := Moves.step (stepRun?_of_step? (e := e.onStore store) hr hstep)
    rw [withCoordinator_onStore] at hmoves
    cases effect with
    | none => exact ⟨store, hmoves⟩
    | some f =>
      obtain ⟨store', heq⟩ := apply_onStore (e.withCoordinator id c) id f store
      rw [Option.elim_some, heq] at hmoves
      exact ⟨store', hmoves⟩
  | cancel => exact ⟨store, .cancel (e := e.onStore store)⟩
  | timeUp hr hw going limit =>
    exact ⟨store, signal_onStore e store _ ▸ .timeUp (e := e.onStore store) hr hw going limit⟩
  | @finished run node outcome hr hw flying =>
    exact ⟨store, signal_onStore e store _ ▸ .finished (e := e.onStore store) hr hw flying⟩
  | elsewhere => exact absurd rfl happens

/-- Nothing is kept anew by a turn. -/
theorem Moves.unkept (m : e.Moves id x e') (happens : x ≠ .elsewhere) (hk : e.store.kept? id = none) :
    e'.store.kept? id = none := by
  rw [Store.kept?_eq_none_iff] at hk ⊢
  rw [m.ids_store happens]
  exact hk

end Engine
end Workflows
