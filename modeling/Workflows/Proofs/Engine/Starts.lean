/-
  Workflows.Proofs.Engine.Starts — any number of start calls, in any order of their steps.

  A `Desk` is an engine with the start calls that have been made on it. `Serves` lists the
  steps these calls have taken (`Deed`), each with the engine before and after; between any two
  of them new calls may be made and the engine may do anything else but prune (`Elsewhere`).

  The lock is held by one call from before it looks for its key until its record is in the
  store (`Orderly.one`), so what the look found out still holds when the record is put there
  (`Orderly.stands`). `idempotentStart` reads off what clients see of it.
-/

import Workflows.Proofs.Engine.Strides

namespace Workflows

/-! ## Where there is at most one -/

/-- Of what there is at most one of, any two are at the same place. -/
theorem place_unique_of_countP_le_one {α : Type} {p : α → Bool} {l : List α} (h : l.countP p ≤ 1)
    {i j : Nat} {a b : α} (hi : l[i]? = some a) (hj : l[j]? = some b) (ha : p a = true) (hb : p b = true) : i = j := by
  induction l generalizing i j with
  | nil => cases hi
  | cons x rest ih =>
    rw [List.countP_cons] at h
    -- if the first has it, no other does
    have hfirst : p x = true → ∀ y ∈ rest, p y = true → False := by
      intro hx y hy hpy
      have : 0 < rest.countP p := List.countP_pos_iff.mpr ⟨y, hy, hpy⟩
      simp only [hx, if_true] at h
      omega
    cases i with
    | zero =>
      cases j with
      | zero => rfl
      | succ j => cases hi; exact (hfirst ha b (List.mem_of_getElem? hj) hb).elim
    | succ i =>
      cases j with
      | zero => cases hj; exact (hfirst hb a (List.mem_of_getElem? hi) ha).elim
      | succ j => exact congrArg _ (ih (by omega) hi hj)

theorem eq_of_countP_le_one {α : Type} {p : α → Bool} {l : List α} (h : l.countP p ≤ 1) {a b : α} (ha : a ∈ l)
    (hb : b ∈ l) (hpa : p a = true) (hpb : p b = true) : a = b := by
  obtain ⟨i, hi⟩ := List.mem_iff_getElem?.mp ha
  obtain ⟨j, hj⟩ := List.mem_iff_getElem?.mp hb
  have hij := place_unique_of_countP_le_one h hi hj hpa hpb
  rw [hij] at hi
  exact Option.some.inj (hi.symm.trans hj)

/-! ## Calls on one engine -/

/-- A start call of a client: the workflow and the key it is for, and how far it has come. -/
structure Caller where
  workflow : String
  key : Option String
  call : StartCall

/-- A call that starts a workflow of the catalog. -/
def Caller.ofWorkflow (workflow : String) (trigger : Json) (key : Option String) : Caller :=
  ⟨workflow, key, .lookUp workflow trigger key⟩

/-- A call that starts a definition as it is given. -/
def Caller.ofDefinition (d : Definition) (trigger : Json) (key : Option String) : Caller :=
  ⟨d.key, key, .takeTypes ⟨d, trigger, key⟩⟩

/-- An engine and the start calls made on it, in the order they were made. -/
structure Desk where
  engine : Engine
  callers : List Caller

/-- A step of a start call, with the engine before and after it. -/
structure Deed where
  /-- The place of the call among those made. -/
  caller : Nat
  workflow : String
  key : Option String
  before : Engine
  after : Engine

namespace Deed

/-- A record was put into the store. -/
def Creates (d : Deed) : Prop := d.after.store ≠ d.before.store

/-- The two are steps of one call. -/
structure SameCall (d d' : Deed) : Prop where
  caller : d'.caller = d.caller
  workflow : d'.workflow = d.workflow
  key : d'.key = d.key

/-- An event was announced, or a run entered among those that are alive. -/
def Shows (d : Deed) : Prop := d.after.events ≠ d.before.events ∨ d.after.active ≠ d.before.active

end Deed

/-- The record about to be put into the store, if any, has an id that no run has which is alive. -/
def StartCall.fresh : StartCall → Engine → Bool
  | .create p, e => e.running.all (·.id != p.execution.id)
  | _, _ => true

/-- The steps that start calls have taken on an engine that was at rest. -/
inductive Engine.Serves (e₀ : Engine) : List Deed → Desk → Prop
  | opens : Serves e₀ [] ⟨e₀, []⟩
  | asked {past : List Deed} {s : Desk} (h : Serves e₀ past s) (workflow : String) (trigger : Json)
      (key : Option String) : Serves e₀ past { s with callers := s.callers ++ [.ofWorkflow workflow trigger key] }
  | given {past : List Deed} {s : Desk} (h : Serves e₀ past s) (d : Definition) (trigger : Json)
      (key : Option String) : Serves e₀ past { s with callers := s.callers ++ [.ofDefinition d trigger key] }
  | step {past : List Deed} {s : Desk} {i : Nat} {c : Caller} {call : StartCall} {e : Engine} (h : Serves e₀ past s)
      (hc : s.callers[i]? = some c) (hstep : c.call.step? s.engine = some (call, e)) (fresh : c.call.fresh s.engine = true) :
      Serves e₀ (past ++ [⟨i, c.workflow, c.key, s.engine, e⟩]) ⟨e, s.callers.set i { c with call }⟩
  | elsewhere {past : List Deed} {s : Desk} {e : Engine} (h : Serves e₀ past s) (m : s.engine.Elsewhere e) :
      Serves e₀ past { s with engine := e }

/-! ## The lock -/

namespace Desk

variable {i : Nat} {c : Caller} {call : StartCall} {e : Engine}

/-- Where one call holds the lock if it is taken, who holds it finds it taken. -/
theorem locked_of_one (s : Desk) (one : s.callers.countP (·.call.holds) = s.engine.locked.toNat) (hc : c ∈ s.callers)
    (hholds : c.call.holds = true) : s.engine.locked = true := by
  have : 0 < s.callers.countP (·.call.holds) := List.countP_pos_iff.mpr ⟨c, hc, hholds⟩
  rw [one] at this
  cases hlocked : s.engine.locked with
  | true => rfl
  | false => rw [hlocked] at this; cases this

/-- A step takes the lock when nobody holds it, and only who holds it gives it back. -/
theorem one_step {s : Desk} (one : s.callers.countP (·.call.holds) = s.engine.locked.toNat) (hc : s.callers[i]? = some c)
    (hfor : c.call.IsFor c.workflow c.key) (hs : c.call.Strides s.engine call e) :
    (s.callers.set i { c with call }).countP (·.call.holds) = e.locked.toNat := by
  have hmem := List.mem_of_getElem? hc
  obtain ⟨hi, hget⟩ := List.getElem?_eq_some_iff.mp hc
  have hlock := hs.locked_add hfor (s.locked_of_one one hmem)
  have hpos : c.call.holds = true → 0 < s.callers.countP (·.call.holds) :=
    fun hholds => List.countP_pos_iff.mpr ⟨c, hmem, hholds⟩
  rw [List.countP_set hi, hget]
  cases hbefore : c.call.holds <;> cases hafter : call.holds <;>
    simp only [hbefore, hafter, Bool.toNat_true, Bool.toNat_false, if_true, Bool.false_eq_true, if_false,
      forall_const] at hlock hpos ⊢ <;> omega

end Desk

/-! ## The key of a start -/

/-- A call that is about to make its record or to put it into the store is not under a key that is
in use for its workflow. -/
def Caller.IsVacant (stamps : List Stamp) (c : Caller) : Prop :=
  (∃ r types, c.call = .prepare r types) ∨ (∃ p, c.call = .create p) →
    ∀ key, c.key = some key → ∀ x ∈ stamps, x.isUnder c.workflow key = false

section

variable {c : Caller} {call : StartCall} {e e' : Engine} {p : Prepared} {key : String}

theorem Caller.stamp_eq (hfor : c.call.IsFor c.workflow c.key)
    (hp : c.call = .create p ∨ c.call = .announce p ∨ ∃ plan, c.call = .enter p plan) :
    p.execution.stamp = ⟨p.execution.id, c.workflow, c.key⟩ := by
  obtain ⟨hworkflow, hkey⟩ : p.execution.workflowId = c.workflow ∧ p.execution.idempotencyKey = c.key := by
    rcases hp with hp | hp | ⟨plan, hp⟩ <;> · rw [hp] at hfor; exact hfor
  rw [Execution.stamp, hworkflow, hkey]

namespace Caller.IsVacant

theorem mono {stamps stamps' : List Stamp} (h : c.IsVacant stamps) (hsub : stamps' ⊆ stamps) : c.IsVacant stamps' :=
  fun hcall key hkey x hx => h hcall key hkey x (hsub hx)

theorem countP_eq_zero {stamps : List Stamp} (h : c.IsVacant stamps) (hcreate : c.call = .create p)
    (hkey : c.key = some key) : stamps.countP (·.isUnder c.workflow key) = 0 :=
  List.countP_eq_zero.mpr fun x hx => by rw [h (.inr ⟨p, hcreate⟩) key hkey x hx]; exact Bool.false_ne_true

/-- What a call finds of its own key in a step. -/
theorem step (h : c.IsVacant e.store.stamps) (hfor : c.call.IsFor c.workflow c.key) (hs : c.call.Strides e call e') :
    Caller.IsVacant e'.store.stamps { c with call } := by
  obtain ⟨workflow, key, before⟩ := c
  simp only at hs hfor
  unfold Caller.IsVacant at h ⊢
  simp only at h ⊢
  have hnot : ∀ {n : StartCall}, (∀ r types, n ≠ .prepare r types) → (∀ p, n ≠ .create p) →
      ¬ ((∃ r types, n = .prepare r types) ∨ ∃ p, n = .create p) := fun hprepare hcreate hcall =>
    hcall.elim (fun ⟨r, types, heq⟩ => hprepare r types heq) fun ⟨p, heq⟩ => hcreate p heq
  cases hs with
  | keyless hkey =>
    intro _ k hk
    rw [← hfor.2, hkey] at hk
    cases hk
  | @unused r types k _ hnone =>
    intro _ k' hk'
    have hk : k = k' := Option.some.inj (hfor.2.2.symm.trans hk')
    exact hfor.1 ▸ hk ▸ Store.find?_eq_none hnone
  | @prepared r types => exact fun _ => h (.inl ⟨r, types, rfl⟩)
  | lookedUp | unknown | keyed | locked | unread | found | created | uncreated | announced | refused | entered =>
    exact fun hcall => absurd hcall (hnot (by simp) (by simp))

/-- A key that is used once for a workflow stays so when a record is put into the store. -/
theorem keys_step (h : c.IsVacant e.store.stamps) (hfor : c.call.IsFor c.workflow c.key) (hs : c.call.Strides e call e')
    (hkeys : ∀ workflow key, e.store.stamps.countP (·.isUnder workflow key) ≤ 1) (workflow key : String) :
    e'.store.stamps.countP (·.isUnder workflow key) ≤ 1 := by
  rcases hs.store_eq with heq | ⟨p, hp, -, hcreate⟩
  · exact heq ▸ hkeys workflow key
  rw [(Store.stamps_create hcreate).1, List.countP_append, List.countP_singleton]
  split
  next hunder =>
    obtain ⟨rfl, hkey⟩ := Stamp.isUnder_iff.mp hunder
    rw [Caller.stamp_eq hfor (.inl hp)] at hkey ⊢
    rw [h.countP_eq_zero hp hkey]
  next => exact hkeys workflow key

end Caller.IsVacant

/-- What the call at another place finds of its key: only one of the two can hold the lock. -/
theorem Desk.vacant_other {s : Desk} {i j : Nat} {b : Caller} (one : s.callers.countP (·.call.holds) = s.engine.locked.toNat)
    (hc : s.callers[i]? = some c) (hs : c.call.Strides s.engine call e) (hb : s.callers[j]? = some b) (hne : j ≠ i)
    (hfor : b.call.IsFor b.workflow b.key) (h : b.IsVacant s.engine.store.stamps) : b.IsVacant e.store.stamps := by
  rcases hs.store_eq with heq | ⟨p, hp, -, hcreate⟩
  · exact heq ▸ h
  intro hcall key hkey x hx
  rw [(Store.stamps_create hcreate).1, List.mem_append, List.mem_singleton] at hx
  rcases hx with hx | rfl
  · exact h hcall key hkey x hx
  · by_contra hunder
    obtain ⟨-, hpkey⟩ := Stamp.isUnder_iff.mp (Bool.not_eq_false _ ▸ hunder)
    have hpkey : p.execution.idempotencyKey = some key := hpkey
    have hholds : b.call.holds = true := by
      rcases hcall with ⟨r, types, hb'⟩ | ⟨q, hb'⟩ <;> rw [hb'] at hfor ⊢ <;> rw [StartCall.holds, hfor.2, hkey] <;> rfl
    have hone : s.callers.countP (·.call.holds) ≤ 1 := one.le.trans (Bool.toNat_le _)
    exact hne (place_unique_of_countP_le_one hone hb hc hholds (by rw [hp, StartCall.holds, hpkey]; rfl))

end

/-! ## What holds between any two steps -/

/-- What the store says of the start a call is for. -/
def Caller.Stands (stamps : List Stamp) (c : Caller) : Prop :=
  match c.call with
  | .prepare _ _ | .create _ => ∀ key, c.key = some key → ∀ x ∈ stamps, x.isUnder c.workflow key = false
  | .announce p | .enter p _ => p.execution.stamp ∈ stamps
  | .answered (.ok id) => ⟨id, c.workflow, c.key⟩ ∈ stamps
  | _ => True

structure Orderly (past : List Deed) (s : Desk) : Prop where
  consistent : s.engine.Consistent
  /-- One call holds the lock if it is taken, else none. -/
  one : s.callers.countP (·.call.holds) = s.engine.locked.toNat
  aims : ∀ c ∈ s.callers, c.call.IsFor c.workflow c.key
  stands : ∀ c ∈ s.callers, c.Stands s.engine.store.stamps
  made : ∀ i c, s.callers[i]? = some c → c.call.HasCreated →
    ∃ d ∈ past, (d.caller = i ∧ d.workflow = c.workflow ∧ d.key = c.key) ∧ d.Creates
  stored : ∀ d ∈ past, d.Creates → ∃ x ∈ s.engine.store.stamps, x.workflow = d.workflow ∧ x.key = d.key
  once : past.Pairwise fun d d' => d.Creates → d'.Creates → d.workflow = d'.workflow → d.key = d'.key → d.key = none
  shown : ∀ d ∈ past, d.Shows → ∃ d' ∈ past, d.SameCall d' ∧ d'.Creates

namespace Orderly

variable {past : List Deed} {s : Desk} {i : Nat} {c : Caller} {call : StartCall} {e : Engine}

/-- A new call has taken no step. -/
theorem asks (h : Orderly past s) (hfor : c.call.IsFor c.workflow c.key) (hfree : c.call.holds = false)
    (hnew : ¬ c.call.HasCreated) (hstands : c.Stands s.engine.store.stamps) :
    Orderly past { s with callers := s.callers ++ [c] } := by
  refine { h with one := ?_, aims := ?_, stands := ?_, made := ?_ }
  · simp [List.countP_append, h.one, hfree]
  · exact List.forall_mem_append.mpr ⟨h.aims, List.forall_mem_singleton.mpr hfor⟩
  · exact List.forall_mem_append.mpr ⟨h.stands, List.forall_mem_singleton.mpr hstands⟩
  · intro j b hb hcreated
    rw [List.getElem?_append] at hb
    split at hb
    · exact h.made j b hb hcreated
    · have hmem := List.mem_singleton.mp (List.mem_of_getElem? hb)
      exact absurd (hmem ▸ hcreated) hnew

theorem elsewhere (h : Orderly past s) (m : s.engine.Elsewhere e) : Orderly past { s with engine := e } := by
  obtain ⟨-, hstamps, hlocked, -⟩ := m.spec h.consistent
  exact
    { consistent := m.consistent h.consistent
      one := h.one.trans (congrArg Bool.toNat hlocked.symm)
      aims := h.aims
      stands := hstamps.symm ▸ h.stands
      made := h.made
      stored := hstamps.symm ▸ h.stored
      once := h.once
      shown := h.shown }

/-! ## A step of one call -/

theorem vacant (h : Orderly past s) (hc : c ∈ s.callers) : c.IsVacant s.engine.store.stamps := by
  have hstands := h.stands c hc
  intro hcall
  rcases hcall with ⟨r, types, hcall⟩ | ⟨p, hcall⟩ <;> rw [Caller.Stands, hcall] at hstands <;> exact hstands

theorem stamp_eq (h : Orderly past s) (hc : c ∈ s.callers) {p : Prepared}
    (hp : c.call = .create p ∨ c.call = .announce p ∨ ∃ plan, c.call = .enter p plan) :
    p.execution.stamp = ⟨p.execution.id, c.workflow, c.key⟩ := Caller.stamp_eq (h.aims c hc) hp

/-- What the store holds after a step: as much as before, or what a call was about to put there. -/
theorem stamps_after (hs : c.call.Strides s.engine call e) :
    e.store.stamps = s.engine.store.stamps ∨ ∃ p, c.call = .create p ∧ call = .announce p ∧
      e.store.stamps = s.engine.store.stamps ++ [p.execution.stamp] ∧
      p.execution.id ∉ s.engine.store.stamps.map Stamp.id := by
  rcases hs.store_eq with heq | ⟨p, hp, hp', hstore⟩
  · exact .inl (congrArg Store.stamps heq)
  · exact .inr ⟨p, hp, hp', Store.stamps_create hstore⟩

theorem consistent_step (h : Orderly past s) (hc : c ∈ s.callers) (hs : c.call.Strides s.engine call e)
    (fresh : c.call.fresh s.engine = true) : e.Consistent := by
  have hnamed : e.catalog.Named := hs.catalog_eq ▸ h.consistent.named
  have hkeys := (h.vacant hc).keys_step (h.aims c hc) hs h.consistent.keys
  rcases stamps_after hs with heq | ⟨p, hp, hp', heq, hid⟩
  · refine { ids := heq ▸ h.consistent.ids, keys := hkeys, runs := ?_, named := hnamed }
    intro x hx stamp hstamp hid
    rw [heq] at hstamp
    rcases hs.running_subset hx with hx | ⟨p, plan, hp, rfl⟩
    · exact h.consistent.runs x hx stamp hstamp hid
    · have hheld := h.stands c hc
      rw [Caller.Stands, hp] at hheld
      exact List.inj_on_of_nodup_map h.consistent.ids hstamp hheld hid
  · refine { ids := ?_, keys := hkeys, runs := ?_, named := hnamed }
    · rw [heq, List.map_append]
      refine List.nodup_append.mpr ⟨h.consistent.ids, List.nodup_singleton _, ?_⟩
      rintro x hx y hy rfl
      rw [List.map_singleton, List.mem_singleton] at hy
      rw [hy] at hx
      exact hid hx
    · intro x hx stamp hmem hsame
      have hx : x ∈ s.engine.running := (hs.running_subset hx).resolve_right fun ⟨q, plan, hq, _⟩ => by
        rw [hp] at hq; cases hq
      rw [heq, List.mem_append, List.mem_singleton] at hmem
      rcases hmem with hmem | rfl
      · exact h.consistent.runs x hx stamp hmem hsame
      · rw [hp, StartCall.fresh, List.all_eq_true] at fresh
        exact absurd hsame.symm (bne_iff_ne.mp (fresh x hx))

/-- What the store said of a call at another place it still says. -/
theorem stands_other (h : Orderly past s) (hc : s.callers[i]? = some c) (hs : c.call.Strides s.engine call e) {j : Nat}
    {b : Caller} (hb : s.callers[j]? = some b) (hne : j ≠ i) : b.Stands e.store.stamps := by
  have hmem := List.mem_of_getElem? hb
  have hbefore := h.stands b hmem
  have hvacant := Desk.vacant_other h.one hc hs hb hne (h.aims b hmem) (h.vacant hmem)
  have hgrown : s.engine.store.stamps ⊆ e.store.stamps := by
    rcases stamps_after hs with heq | ⟨p, -, -, heq, -⟩ <;> rw [heq]
    · exact List.Subset.refl _
    · exact List.subset_append_left _ _
  unfold Caller.Stands at hbefore ⊢
  split at hbefore
  next r types hcall => exact hvacant (.inl ⟨r, types, hcall⟩)
  next q hcall => exact hvacant (.inr ⟨q, hcall⟩)
  next => exact hgrown hbefore
  next => exact hgrown hbefore
  next => exact hgrown hbefore
  next => exact True.intro

/-- What the store says of the call that has taken the step. -/
theorem stands_step (h : Orderly past s) (hc : c ∈ s.callers) (hs : c.call.Strides s.engine call e) :
    Caller.Stands e.store.stamps { c with call } := by
  have hstands := h.stands c hc
  have hfor := h.aims c hc
  have hstamp := fun p => h.stamp_eq (p := p) hc
  have hvacant := (h.vacant hc).step hfor hs
  obtain ⟨workflow, key, before⟩ := c
  simp only at hs hstands hfor hstamp hvacant
  generalize s.engine = e₀ at *
  cases hs with
  | @found r types k _ existing hfind =>
    obtain ⟨hmem, hunder⟩ := Store.find?_eq_some hfind
    obtain ⟨hworkflow, hkey⟩ := Stamp.isUnder_iff.mp hunder
    cases hrepeated : StartCall.repeated r.definition types existing with
    | error f => exact True.intro
    | ok id =>
      have hstamp : existing.stamp = ⟨id, workflow, key⟩ := by
        rw [StartCall.id_of_repeated hrepeated, ← hfor.1, hfor.2.2, ← hworkflow, ← hkey]
        rfl
      rw [hstamp] at hmem
      exact hmem
  | keyless | unused => exact hvacant (.inl ⟨_, _, rfl⟩)
  | prepared => exact hvacant (.inr ⟨_, rfl⟩)
  | @created p _ store hstore =>
    rw [Caller.Stands, (Store.stamps_create hstore).1]
    exact List.mem_append_right _ (List.mem_singleton.mpr rfl)
  | announced => rw [StartCall.unlock_eq]; exact hstands
  | @entered p plan =>
    have hheld : p.execution.stamp ∈ e₀.store.stamps := hstands
    rw [hstamp p (.inr (.inr ⟨plan, rfl⟩))] at hheld
    exact hheld
  | lookedUp | unknown | keyed | locked | unread | uncreated | refused => exact True.intro

/-- A step that changes the store is that of a call about to put its record there. -/
theorem creates_step (h : Orderly past s) (hc : c ∈ s.callers) (hs : c.call.Strides s.engine call e)
    (hne : e.store ≠ s.engine.store) : ∃ p, c.call = .create p ∧
      e.store.stamps = s.engine.store.stamps ++ [⟨p.execution.id, c.workflow, c.key⟩] := by
  obtain ⟨p, hp, -, hstore⟩ := hs.store_eq.resolve_left hne
  exact ⟨p, hp, h.stamp_eq hc (.inl hp) ▸ (Store.stamps_create hstore).1⟩

theorem stored_step (h : Orderly past s) (hc : c ∈ s.callers) (hs : c.call.Strides s.engine call e) :
    ∀ d ∈ past ++ [⟨i, c.workflow, c.key, s.engine, e⟩], d.Creates →
      ∃ x ∈ e.store.stamps, x.workflow = d.workflow ∧ x.key = d.key := by
  intro d hd hdid
  rcases List.mem_append.mp hd with hd | hd
  · obtain ⟨x, hx, hxd⟩ := h.stored d hd hdid
    refine ⟨x, ?_, hxd⟩
    rcases stamps_after hs with heq | ⟨p, -, -, heq, -⟩
    · exact heq ▸ hx
    · exact heq ▸ List.mem_append_left _ hx
  · cases List.mem_singleton.mp hd
    obtain ⟨p, -, heq⟩ := h.creates_step hc hs hdid
    exact ⟨_, heq ▸ List.mem_append_right _ (List.mem_singleton.mpr rfl), rfl, rfl⟩

/-- A record is put into the store under a key that nobody has used for its workflow. -/
theorem once_step (h : Orderly past s) (hc : c ∈ s.callers) (hs : c.call.Strides s.engine call e) :
    (past ++ [(⟨i, c.workflow, c.key, s.engine, e⟩ : Deed)]).Pairwise fun d d' =>
      d.Creates → d'.Creates → d.workflow = d'.workflow → d.key = d'.key → d.key = none := by
  refine List.pairwise_append.mpr ⟨h.once, List.pairwise_singleton _ _, ?_⟩
  rintro d hd d' hd' hdid hdid' hworkflow hkey
  cases List.mem_singleton.mp hd'
  obtain ⟨p, hp, -⟩ := h.creates_step hc hs hdid'
  obtain ⟨x, hx, hxworkflow, hxkey⟩ := h.stored d hd hdid
  cases hnone : d.key with
  | none => rfl
  | some key =>
    have hzero := List.countP_eq_zero.mp ((h.vacant hc).countP_eq_zero hp (hkey.symm.trans hnone)) x hx
    exact absurd (Stamp.isUnder_iff.mpr ⟨hxworkflow.trans hworkflow, hxkey.trans hnone⟩) hzero

theorem step (h : Orderly past s) (hc : s.callers[i]? = some c) (hs : c.call.Strides s.engine call e)
    (fresh : c.call.fresh s.engine = true) :
    Orderly (past ++ [⟨i, c.workflow, c.key, s.engine, e⟩]) ⟨e, s.callers.set i { c with call }⟩ := by
  have hmem := List.mem_of_getElem? hc
  -- after the step, who stands at another place is who stood there before
  have hplace : ∀ j b, (s.callers.set i { c with call })[j]? = some b →
      j = i ∧ b = { c with call } ∨ j ≠ i ∧ s.callers[j]? = some b := by
    intro j b hb
    rw [List.getElem?_set, if_pos (List.getElem?_eq_some_iff.mp hc).1] at hb
    split at hb
    next heq => exact .inl ⟨heq.symm, (Option.some.inj hb).symm⟩
    next hne => exact .inr ⟨fun heq => hne heq.symm, hb⟩
  have hold : ∀ {d}, d ∈ past → d ∈ past ++ [⟨i, c.workflow, c.key, s.engine, e⟩] := fun hd => List.mem_append_left _ hd
  refine
    { consistent := h.consistent_step hmem hs fresh
      one := Desk.one_step h.one hc (h.aims c hmem) hs
      aims := fun b hb => ?aims
      stands := fun b hb => ?stands
      made := fun j b hb hcreated => ?made
      stored := h.stored_step hmem hs
      once := h.once_step hmem hs
      shown := fun d hd hshows => ?shown }
  case aims =>
    obtain ⟨j, hj⟩ := List.mem_iff_getElem?.mp hb
    rcases hplace j b hj with ⟨-, rfl⟩ | ⟨-, hj⟩
    · exact hs.isFor h.consistent.named (h.aims c hmem)
    · exact h.aims b (List.mem_of_getElem? hj)
  case stands =>
    obtain ⟨j, hj⟩ := List.mem_iff_getElem?.mp hb
    rcases hplace j b hj with ⟨-, rfl⟩ | ⟨hne, hj⟩
    · exact h.stands_step hmem hs
    · exact h.stands_other hc hs hj hne
  case made =>
    rcases hplace j b hb with ⟨rfl, rfl⟩ | ⟨-, hj⟩
    · rcases hs.hasCreated hcreated with hcreated | hne
      · obtain ⟨d, hd, hdid⟩ := h.made j c hc hcreated
        exact ⟨d, hold hd, hdid⟩
      · exact ⟨_, List.mem_append_right _ (List.mem_singleton.mpr rfl), ⟨rfl, rfl, rfl⟩, hne⟩
    · obtain ⟨d, hd, hdid⟩ := h.made j b hj hcreated
      exact ⟨d, hold hd, hdid⟩
  case shown =>
    rcases List.mem_append.mp hd with hd | hd
    · obtain ⟨d', hd', hdid⟩ := h.shown d hd hshows
      exact ⟨d', hold hd', hdid⟩
    · cases List.mem_singleton.mp hd
      obtain ⟨d', hd', ⟨hcaller, hworkflow, hkey⟩, hdid⟩ := h.made i c hc (hs.hasCreated_of_seen hshows)
      exact ⟨d', hold hd', ⟨hcaller, hworkflow, hkey⟩, hdid⟩

/-! ## Waiting for the lock -/

theorem isSome_step?_of_holds {call : StartCall} (e : Engine) (h : call.holds = true) : (call.step? e).isSome = true := by
  cases call with
  | find r types key => simp only [StartCall.step?]; split <;> rfl
  | prepare r types => rfl
  | create p => simp only [StartCall.step?]; split <;> rfl
  | announce p => simp only [StartCall.step?]; split <;> rfl
  | lookUp | takeTypes | lock | enter | answered => cases h

/-- A call that cannot go on is over, or waits for the lock. -/
theorem locked_of_step?_eq_none {call : StartCall} {e : Engine} (h : call.step? e = none)
    (hgoing : ∀ r, call ≠ .answered r) : e.locked = true := by
  cases call with
  | lock r types key =>
    simp only [StartCall.step?] at h
    split at h
    next hlocked => exact hlocked
    next => cases h
  | lookUp | takeTypes => simp only [StartCall.step?] at h; split at h <;> cases h
  | prepare | enter => cases h
  | find r types key => exact absurd h (Option.isSome_iff_ne_none.mp (isSome_step?_of_holds e rfl))
  | create | announce => simp only [StartCall.step?] at h; split at h <;> cases h
  | answered r => exact absurd rfl (hgoing r)

/-- Unless all calls are over, one of them can go on. -/
theorem goesOn (h : Orderly past s) (hc : c ∈ s.callers) (hgoing : ∀ r, c.call ≠ .answered r) :
    ∃ b ∈ s.callers, (b.call.step? s.engine).isSome = true := by
  cases hstep : c.call.step? s.engine with
  | some _ => exact ⟨c, hc, by rw [hstep]; rfl⟩
  | none =>
    have hone := h.one
    rw [locked_of_step?_eq_none hstep hgoing] at hone
    obtain ⟨b, hb, hholds⟩ := List.countP_pos_iff.mp (hone.ge : 1 ≤ s.callers.countP (·.call.holds))
    exact ⟨b, hb, isSome_step?_of_holds _ hholds⟩

end Orderly

/-! ## What clients see -/

namespace Engine

variable {e₀ : Engine} {past : List Deed} {s : Desk}

theorem Serves.orderly (h₀ : e₀.Consistent) (hfree : e₀.locked = false) (h : Serves e₀ past s) : Orderly past s := by
  induction h with
  | opens =>
    exact
      { consistent := h₀
        one := by rw [hfree]; rfl
        aims := List.forall_mem_nil _
        stands := List.forall_mem_nil _
        made := fun i c hc => by cases hc
        stored := List.forall_mem_nil _
        once := .nil
        shown := List.forall_mem_nil _ }
  | asked _ workflow trigger key ih => exact ih.asks (c := .ofWorkflow workflow trigger key) ⟨rfl, rfl⟩ rfl id True.intro
  | given _ d trigger key ih => exact ih.asks (c := .ofDefinition d trigger key) ⟨rfl, rfl⟩ rfl id True.intro
  | step _ hc hstep fresh ih => exact ih.step hc (StartCall.strides_of_step? hstep) fresh
  | elsewhere _ m ih => exact ih.elsewhere m

/-- What start calls have come to, however their steps fell between each other. -/
structure IdempotentStart (past : List Deed) (s : Desk) : Prop where
  /-- The store holds at most one execution of a workflow and a key. -/
  kept : ∀ workflow key, s.engine.store.stamps.countP (·.isUnder workflow key) ≤ 1
  /-- Calls for one workflow under one key that are answered with a run are answered with the same. -/
  agree : ∀ a ∈ s.callers, ∀ b ∈ s.callers, ∀ key x y, a.workflow = b.workflow → a.key = some key → b.key = some key →
    a.call = .answered (.ok x) → b.call = .answered (.ok y) → x = y
  /-- It is a run of that workflow under that key, and the store holds it. -/
  answered : ∀ a ∈ s.callers, ∀ x, a.call = .answered (.ok x) → ⟨x, a.workflow, a.key⟩ ∈ s.engine.store.stamps
  /-- At most one record is created for a workflow and a key. -/
  creates : past.Pairwise fun d d' => d.Creates → d'.Creates → d.workflow = d'.workflow → d.key = d'.key → d.key = none
  /-- Only a call that has created a record announces anything or enters a run. -/
  shows : ∀ d ∈ past, d.Shows → ∃ d' ∈ past, d.SameCall d' ∧ d'.Creates
  /-- While some call is not over, some call can go on. -/
  goesOn : ∀ c ∈ s.callers, (∀ r, c.call ≠ .answered r) → ∃ b ∈ s.callers, (b.call.step? s.engine).isSome = true

/-- Starts under one key come to one run, whatever calls are served at once. -/
theorem idempotentStart (h₀ : e₀.Consistent) (hfree : e₀.locked = false) (h : Serves e₀ past s) :
    IdempotentStart past s := by
  have horderly := Serves.orderly h₀ hfree h
  have hanswered : ∀ a ∈ s.callers, ∀ x, a.call = .answered (.ok x) →
      ⟨x, a.workflow, a.key⟩ ∈ s.engine.store.stamps := by
    intro a ha x hx
    have hstands := horderly.stands a ha
    rwa [Caller.Stands, hx] at hstands
  refine
    { kept := horderly.consistent.keys
      agree := fun a ha b hb key x y hworkflow hakey hbkey hx hy => ?_
      answered := hanswered
      creates := horderly.once
      shows := horderly.shown
      goesOn := fun c hc => horderly.goesOn hc }
  have hunder : ∀ c : Caller, ∀ id, c.key = some key → (⟨id, c.workflow, c.key⟩ : Stamp).isUnder c.workflow key = true :=
    fun c id hkey => Stamp.isUnder_iff.mpr ⟨rfl, hkey⟩
  have hsame := eq_of_countP_le_one (horderly.consistent.keys a.workflow key) (hanswered a ha x hx)
    (hanswered b hb y hy) (hunder a x hakey) (hworkflow ▸ hunder b y hbkey)
  exact congrArg Stamp.id hsame

/-- An engine that has nothing yet is consistent. -/
theorem consistent_of_empty {e : Engine} (hstore : e.store.stamps = []) (hactive : e.active = [])
    (hcatalog : e.catalog.entries = []) : e.Consistent :=
  { ids := by rw [hstore]; exact .nil
    keys := fun _ _ => by rw [hstore]; exact Nat.zero_le _
    runs := fun _ hx => by rw [running, hactive] at hx; cases hx
    named := fun _ _ hd => by rw [hcatalog] at hd; cases hd }

/-- Lets the calls at some places take a step each, one after the other. -/
def takeTurns : List Nat → Desk → List Deed × Desk
  | [], s => ([], s)
  | i :: rest, s =>
    match s.callers[i]? with
    | none => takeTurns rest s
    | some c =>
      match c.call.step? s.engine, c.call.fresh s.engine with
      | some (call, e), true =>
        let (later, s') := takeTurns rest ⟨e, s.callers.set i { c with call }⟩
        (⟨i, c.workflow, c.key, s.engine, e⟩ :: later, s')
      | _, _ => takeTurns rest s

theorem Serves.takeTurns (h : Serves e₀ past s) (turns : List Nat) :
    Serves e₀ (past ++ (takeTurns turns s).1) (Engine.takeTurns turns s).2 := by
  induction turns generalizing past s with
  | nil => exact (List.append_nil past).symm ▸ h
  | cons i rest ih =>
    unfold Engine.takeTurns
    split
    next => exact ih h
    next c hc =>
      split
      next call e hstep fresh =>
        have := ih (h.step hc hstep fresh)
        rwa [List.append_assoc] at this
      next => exact ih h

end Engine

namespace Fork

/-- Two clients start the definition under one key. -/
def twoClients : Desk :=
  ⟨engine {}, [.ofDefinition definition (.string "go") (some "k"), .ofDefinition definition (.string "again") (some "k")]⟩

/-- Two clients take turns, the second waiting for the lock while the first holds it; both are
told of the one run. -/
theorem idempotentStart_twoClients : ∃ past s, Engine.Serves (engine {}) past s ∧ (engine {}).Consistent ∧
    (engine {}).locked = false ∧ s.callers.map (·.call.result) = [.ok "run", .ok "run"] ∧
    Engine.IdempotentStart past s := by
  have hasked : Engine.Serves (engine {}) [] twoClients :=
    .given (.given .opens definition (.string "go") (some "k")) definition (.string "again") (some "k")
  have hserves := hasked.takeTurns [0, 1, 0, 1, 0, 1, 0, 1, 0, 1, 0, 1, 0, 1, 1]
  have h₀ : (engine {}).Consistent := Engine.consistent_of_empty rfl rfl rfl
  exact ⟨_, _, hserves, h₀, rfl, rfl, Engine.idempotentStart h₀ rfl hserves⟩

end Fork
end Workflows
