/-
  Workflows.Proofs.Engine.Guarded — starts under a key are served one at a time, whatever is
  pruned meanwhile.

  The lock is held by one call from before it looks for its key until its record is in the
  store. So when the record is put there the key is still not in use (`Guarded.vacant`), a key is
  used once for a workflow (`Guarded.keys`), and the id is new, so that the store takes every
  record that is made (`Guarded.create_eq_ok`). Pruning only takes stamps away, and no turn of a
  run changes any.
-/

import Workflows.Proofs.Engine.Chronicle

namespace Workflows

/-- What holds between any two steps of the calls of a history. -/
structure Guarded (past : List Entry) (s : Desk) : Prop where
  named : s.engine.catalog.Named
  /-- A key is used once for a workflow. -/
  keys : ∀ workflow key, s.engine.store.stamps.countP (·.isUnder workflow key) ≤ 1
  /-- One call holds the lock if it is taken, else none. -/
  one : s.callers.countP (·.call.holds) = s.engine.locked.toNat
  aims : ∀ c ∈ s.callers, c.call.IsFor c.workflow c.key
  vacant : ∀ c ∈ s.callers, c.IsVacant s.engine.store.stamps
  /-- What is stored under the id of a run comes from the start of that run. -/
  stamped : ∀ p : Prepared, p.MadeIn past → ∀ stamp ∈ s.engine.store.stamps, stamp.id = p.execution.id →
    stamp = p.execution.stamp

/-! ## Turns -/

theorem Stage.stamp_of_alive {past : List Entry} {s : Desk} {p : Prepared} {run : ActiveRun} (h : Stage past s p)
    (hr : s.engine.run? p.execution.id = some run) : run.coordinator.execution.stamp = p.execution.stamp := by
  cases h with
  | living _ origin _ entered lives =>
    exact Execution.stamp_eq_of_origin_eq ((lives.runs entered hr).origin.trans origin.symm)
  | made _ _ _ gone | dropped _ gone | recorded _ _ _ gone | announced _ _ _ gone | refused _ _ gone =>
    exact absurd (gone.symm.trans hr) nofun

/-- Nothing is kept yet of a run that a call is about to record. -/
theorem Stage.unkept_of_create {past : List Entry} {s : Desk} {p : Prepared} {i : Nat} {c : Caller} (h : Stage past s p)
    (hc : s.callers[i]? = some c) (hcall : c.call = .create p) : s.engine.store.kept? p.execution.id = none := by
  have hcarried := h.carried hc (by rw [hcall]; rfl)
  rw [hcall] at hcarried
  cases hcarried with
  | create _ _ unkept => exact unkept

namespace Engine

variable {e e' : Engine} {id : String} {x : Happening}

/-- A turn of a run changes neither the lock nor the catalog, nor what is known of starts. -/
theorem Moves.keeps_starts (m : e.Moves id x e') (happens : x ≠ .elsewhere)
    (hrun : ∀ run, e.run? id = some run → ∀ stamp ∈ e.store.stamps, stamp.id = run.coordinator.execution.id →
      stamp = run.coordinator.execution.stamp) :
    e'.store.stamps = e.store.stamps ∧ e'.locked = e.locked ∧ e'.catalog = e.catalog := by
  cases m with
  | @step _ effect h =>
    obtain ⟨run, c, hr, hstep, rfl⟩ := stepRun?_eq_some h
    cases effect with
    | none => exact ⟨rfl, rfl, rfl⟩
    | some f =>
      refine (apply_spec (e := e.withCoordinator id c) id ?_).2
      rintro record rfl
      exact (Coordinator.turn_of_step? hstep).save_eq ▸ hrun run hr
  | cancel | timeUp | finished => exact ⟨rfl, rfl, rfl⟩
  | elsewhere => exact absurd rfl happens

end Engine

/-! ## All steps -/

namespace Guarded

variable {past : List Entry} {s : Desk} {i : Nat} {c : Caller} {call : StartCall} {e e₀ : Engine}

theorem asked (h : Guarded past s) (hfor : c.call.IsFor c.workflow c.key) (hfree : c.call.holds = false)
    (hnew : c.IsVacant s.engine.store.stamps) : Guarded past { s with callers := s.callers ++ [c] } := by
  refine { h with one := ?_, aims := ?_, vacant := ?_ }
  · simp [List.countP_append, h.one, hfree]
  · exact List.forall_mem_append.mpr ⟨h.aims, List.forall_mem_singleton.mpr hfor⟩
  · exact List.forall_mem_append.mpr ⟨h.vacant, List.forall_mem_singleton.mpr hnew⟩

/-- The engine changes, but no call takes a step and no stamp is added. -/
theorem engine {past' : List Entry} (h : Guarded past s) (hnamed : e.catalog.Named) (hlocked : e.locked = s.engine.locked)
    (hstamps : e.store.stamps.Sublist s.engine.store.stamps)
    (hmade : ∀ q : Prepared, q.MadeIn past' ↔ q.MadeIn past) : Guarded past' { s with engine := e } where
  named := hnamed
  keys := fun workflow key => (hstamps.countP_le).trans (h.keys workflow key)
  one := hlocked ▸ h.one
  aims := h.aims
  vacant := fun c hc => (h.vacant c hc).mono hstamps.subset
  stamped := fun p hp stamp hstamp => h.stamped p ((hmade p).mp hp) stamp (hstamps.subset hstamp)

theorem turn {id : String} {x : Happening} (h : Guarded past s) (hchronicle : Chronicle e₀ past s)
    (m : s.engine.Moves id x e) (happens : x ≠ .elsewhere) :
    Guarded (past ++ [.turn id x]) { s with engine := e } := by
  obtain ⟨hstamps, hlocked, hcatalog⟩ := m.keeps_starts happens fun run hr stamp hstamp hid => by
    obtain ⟨p, hp, rfl⟩ := hchronicle.of_alive hr
    have hrun := (hchronicle.stages p hp).stamp_of_alive hr
    rw [hrun]
    exact h.stamped p hp stamp hstamp (hid.trans (congrArg Stamp.id hrun))
  exact h.engine (hcatalog ▸ h.named) hlocked (hstamps ▸ List.Sublist.refl _) fun _ => Prepared.madeIn_turn

theorem aside (h : Guarded past s) (m : s.engine.Aside e) : Guarded past { s with engine := e } := by
  obtain ⟨-, hstore, -, -, -, hlocked, hnamed⟩ := m.spec
  exact h.engine (hnamed h.named) hlocked (hstore ▸ List.Sublist.refl _) fun _ => Iff.rfl

/-! ### A step of a start call -/

theorem stamped_step (h : Guarded past s) (hchronicle : Chronicle e₀ past s)
    (hc : c ∈ s.callers) (hs : c.call.Strides s.engine call e) {q : Prepared}
    (hq : q.MadeIn past ∨ call = .create q) {stamp : Stamp} (hstamp : stamp ∈ e.store.stamps)
    (hid : stamp.id = q.execution.id) : stamp = q.execution.stamp := by
  rcases hq with hq | hq
  · rcases hs.store_eq with heq | ⟨p, hp, -, hcreate⟩
    · exact h.stamped q hq stamp (heq ▸ hstamp) hid
    rw [(Store.stamps_create hcreate).1, List.mem_append, List.mem_singleton] at hstamp
    rcases hstamp with hstamp | rfl
    · exact h.stamped q hq stamp hstamp hid
    · have hmade := hchronicle.carried c hc p (by rw [hp]; rfl)
      rw [hchronicle.once p q hmade hq hid]
  · -- the id of a record that has just been made is not in the store
    obtain ⟨-, ⟨-, hmakes, -⟩ | ⟨-, r, types, -, hmade, heq⟩⟩ := hs.ids_eq
    · exact absurd hq (hmakes q)
    · have hnamed : q.execution.id = e₀.ids.run s.engine.runsNamed := by
        rw [StartCall.create.inj (hq.symm.trans hmade), ← hchronicle.ids]
        exact StartCall.id_makeRecord r types s.engine
      have hunused := Store.kept?_eq_none_iff.mp (hchronicle.unused s.engine.runsNamed (Nat.le_refl _))
      have hstore : e.store = s.engine.store := by rw [heq]; rfl
      exact absurd (List.mem_map.mpr ⟨stamp, hstore ▸ hstamp, hid.trans hnamed⟩) hunused

theorem stride (h : Guarded past s) (hchronicle : Chronicle e₀ past s)
    (hc : s.callers[i]? = some c) (hstep : c.call.step? s.engine = some (call, e)) :
    Guarded (past ++ [.stride ⟨i, c, call, s.engine, e⟩]) ⟨e, s.callers.set i { c with call }⟩ := by
  have hs := StartCall.strides_of_step? hstep
  have hmem := List.mem_of_getElem? hc
  refine
    { named := hs.catalog_eq ▸ h.named
      keys := (h.vacant c hmem).keys_step (h.aims c hmem) hs h.keys
      one := Desk.one_step h.one hc (h.aims c hmem) hs
      aims := fun b hb => ?_
      vacant := fun b hb => ?_
      stamped := fun q hq stamp hstamp hid =>
        h.stamped_step hchronicle hmem hs (Prepared.madeIn_stride.mp hq) hstamp hid }
  · rcases List.mem_or_eq_of_mem_set hb with hb | rfl
    · exact h.aims b hb
    · exact hs.isFor h.named (h.aims c hmem)
  · obtain ⟨j, hj⟩ := List.mem_iff_getElem?.mp hb
    rw [Office.getElem?_set_eq hc] at hj
    split at hj
    next => cases hj; exact (h.vacant c hmem).step (h.aims c hmem) hs
    next hne =>
      have hold := List.mem_of_getElem? hj
      exact Desk.vacant_other h.one hc hs hj hne (h.aims b hold) (h.vacant b hold)

/-- The store takes every record that is made. -/
theorem create_eq_ok (h : Guarded past s) (hchronicle : Chronicle e₀ past s) (hc : s.callers[i]? = some c) {p : Prepared}
    (hp : c.call = .create p) : ∃ store, s.engine.store.create p.execution = .ok store := by
  have hmem := List.mem_of_getElem? hc
  have hcarried : c.call.carried? = some p := by rw [hp]; rfl
  refine Store.create_eq_ok ?_ fun key hkey stamp hstamp => ?_
  · have hunkept := (hchronicle.stages p (hchronicle.carried c hmem p hcarried)).unkept_of_create hc hp
    exact Store.kept?_eq_none_iff.mp hunkept
  · have hfor := h.aims c hmem
    rw [hp] at hfor
    rw [hfor.1]
    exact h.vacant c hmem (.inr ⟨p, hp⟩) key (hfor.2.symm.trans hkey) stamp hstamp

end Guarded

namespace Engine

theorem IsReady.guarded {e : Engine} (h : e.IsReady) : Guarded [] ⟨e, []⟩ where
  named := h.consistent.named
  keys := h.consistent.keys
  one := by rw [h.unlocked]; rfl
  aims := List.forall_mem_nil _
  vacant := List.forall_mem_nil _
  stamped := fun _ ⟨_, ht, _⟩ => absurd ht List.not_mem_nil

theorem Hosts.guarded {e₀ : Engine} {past : List Entry} {s : Desk} (h₀ : e₀.IsReady) (h : Hosts e₀ past s) :
    Guarded past s := by
  induction h with
  | opens => exact h₀.guarded
  | asked _ workflow trigger key ih =>
    exact ih.asked (c := .ofWorkflow workflow trigger key) ⟨rfl, rfl⟩ rfl (by simp [Caller.IsVacant, Caller.ofWorkflow])
  | given _ d trigger key ih =>
    exact ih.asked (c := .ofDefinition d trigger key) ⟨rfl, rfl⟩ rfl (by simp [Caller.IsVacant, Caller.ofDefinition])
  | stride h hc hstep ih => exact ih.stride (h.chronicle h₀) hc hstep
  | turn h m happens _ ih => exact ih.turn (h.chronicle h₀) m happens
  | aside _ m ih => exact ih.aside m
  | pruned _ before ih => exact ih.engine ih.named rfl (Store.stamps_prune _ _) fun _ => Iff.rfl

end Engine
end Workflows
