/-
  Workflows.Proofs.Store.Agreement — a store of records and a store of rows answer alike.

  Two stores, one of each kind, are asked the same, call by call (`Store.serve`). As long as a
  table can hold what it is given, and a record is only written over an earlier one of its run
  (`StoreCall.Fits`), the rows are at every moment those of the records, in the order they were
  created (`Twins`). Every call keeps it so and gets the same answer from both, refusals
  included (`Twins.call`), so no sequence of calls tells the two apart (`storesAgree`).

  All but one, that is. The text of a cutoff after the year 9999 comes before all others
  (`Instant.columnText_lt_of_not_inColumn`), so the table deletes nothing then, and the records of all
  runs that have ended are deleted (`StoresAgree.late`, `told_apart_by_late_cutoff`).
-/

import Mathlib.Data.List.Induction
import Workflows.Proofs.Store.Rows

namespace Workflows

/-! ## Calls -/

/-- What a store is asked. -/
inductive StoreCall where
  | create (e : Execution)
  | update (e : Execution)
  | putNode (id : String) (r : NodeResult)
  | get (id : String)
  | list (workflow : String)
  | find (workflow key : String)
  | prune (before : Instant)

inductive StoreAnswer where
  | done
  | found (e : Option Execution)
  | listed (es : List Execution)
  | pruned (count : Nat)
deriving DecidableEq

namespace Store

/-- What a change of the store comes to; refused, it leaves the store as it was. -/
def changed (s : Store) : Except Failure Store → Except Failure StoreAnswer × Store
  | .ok s' => (.ok .done, s')
  | .error f => (.error f, s)

def call (s : Store) : StoreCall → Except Failure StoreAnswer × Store
  | .create e => s.changed (s.create e)
  | .update e => s.changed (s.update e)
  | .putNode id r => s.changed (s.putNode id r)
  | .get id => ((s.get? id).map .found, s)
  | .list workflow => ((s.list workflow).map .listed, s)
  | .find workflow key => ((s.find? workflow key).map .found, s)
  | .prune before => (.ok (.pruned (s.prune before).2), (s.prune before).1)

/-- The id of the record that a call has put into the store. -/
def createdBy : StoreCall → Except Failure StoreAnswer → Option String
  | .create e, .ok _ => some e.id
  | _, _ => none

/-- A store and what it has been asked so far. -/
structure Service where
  store : Store
  answers : List (Except Failure StoreAnswer) := []
  /-- The ids of the records put into it, the latest first. -/
  created : List String := []

def Service.ask (v : Service) (c : StoreCall) : Service :=
  { store := (v.store.call c).2, answers := v.answers ++ [(v.store.call c).1],
    created := (createdBy c (v.store.call c).1).toList ++ v.created }

/-- Asks a store one call after the other. -/
def serve (s : Store) (calls : List StoreCall) : Service := calls.foldl Service.ask { store := s }

theorem serve_append (s : Store) (calls : List StoreCall) (c : StoreCall) :
    s.serve (calls ++ [c]) = (s.serve calls).ask c := by
  rw [serve, List.foldl_append]
  rfl

end Store

/-- An engine asks this of a store that has the same records as `s`. -/
def StoreCall.Fits (s : Store) : StoreCall → Prop
  | .create e => e.Storable ∧ (s.get? e.id = .ok none → ∀ key, e.idempotencyKey = some key →
      s.find? e.workflowId key = .ok none)
  | .update e => e.Storable ∧ ∀ old, s.get? e.id = .ok (some old) → old.Keeps e
  | .putNode _ r => r.Legible
  | .prune before => before.date.year ≤ 9999 ∨ (s.prune before).2 = 0
  | .get _ | .list _ | .find _ _ => True

/-- Every call fits the records that those before it have left. -/
def Fitting (calls : List StoreCall) : Prop :=
  ∀ before c after, calls = before ++ c :: after → c.Fits ((Store.memory {}).serve before).store

theorem fitting_nil : Fitting [] := fun before c after h => absurd h (by simp)

theorem fitting_append_iff {calls : List StoreCall} {c : StoreCall} :
    Fitting (calls ++ [c]) ↔ Fitting calls ∧ c.Fits ((Store.memory {}).serve calls).store := by
  constructor
  · intro h
    refine ⟨fun before c' after heq => h before c' (after ++ [c]) ?_, h calls c [] rfl⟩
    rw [heq, List.append_assoc, List.cons_append]
  · intro h before c' after heq
    obtain ⟨hcalls, hc⟩ := h
    rcases List.eq_nil_or_concat after with rfl | ⟨after, last, rfl⟩
    · obtain ⟨rfl, hlast⟩ := List.append_inj' heq rfl
      cases hlast
      exact hc
    · rw [List.concat_eq_append, ← List.cons_append, ← List.append_assoc] at heq
      exact hcalls before c' after (List.append_inj' heq rfl).1

theorem Fitting.snoc {calls : List StoreCall} {c : StoreCall} (h : Fitting calls)
    (hc : c.Fits ((Store.memory {}).serve calls).store) : Fitting (calls ++ [c]) := fitting_append_iff.mpr ⟨h, hc⟩

/-! ## Listing -/

/-- A stable sort leaves what it does not tell apart in order. -/
theorem filter_mergeSort {α : Type} {le : α → α → Bool} {p : α → Bool} (l : List α)
    (trans : ∀ a b c, le a b → le b c → le a c) (total : ∀ a b, le a b || le b a)
    (hp : ∀ a b, p a → p b → le a b) : (l.mergeSort le).filter p = l.filter p := by
  have halike : (l.filter p).Pairwise (le · ·) := List.pairwise_of_forall_mem_list fun a ha b hb =>
    hp a b (List.mem_filter.mp ha).2 (List.mem_filter.mp hb).2
  have hsub : (l.filter p).Sublist (l.mergeSort le) := List.sublist_mergeSort trans total halike List.filter_sublist
  have hfiltered := hsub.filter p
  rw [List.filter_filter] at hfiltered
  simp only [Bool.and_self] at hfiltered
  exact (hfiltered.eq_of_length ((List.mergeSort_perm l le).filter p).length_eq.symm).symm

/-- Sorted by time, the latest first, what comes at one time stands in the reverse of its order. -/
theorem pairwise_latestFirst {α : Type} {at? : α → Instant} (l : List α) :
    (l.reverse.mergeSort fun a b => decide (at? b ≤ at? a)).Pairwise fun a b =>
      at? b < at? a ∨ at? a = at? b ∧ [b, a].Sublist l := by
  have trans : ∀ a b c : α, decide (at? b ≤ at? a) = true → decide (at? c ≤ at? b) = true →
      decide (at? c ≤ at? a) = true := by
    intro a b c hab hbc
    rw [decide_eq_true_eq] at *
    exact Instant.le_trans hbc hab
  have total : ∀ a b : α, (decide (at? b ≤ at? a) || decide (at? a ≤ at? b)) = true := by
    intro a b
    rw [Bool.or_eq_true, decide_eq_true_eq, decide_eq_true_eq]
    exact Instant.le_total _ _
  refine List.pairwise_iff_forall_sublist.mpr fun {a b} hab => ?_
  have hle : at? b ≤ at? a :=
    of_decide_eq_true (List.pairwise_iff_forall_sublist.mp (List.pairwise_mergeSort trans total _) hab)
  by_cases hlt : at? b < at? a
  · exact .inl hlt
  · -- the two are of one time, where sorting has changed nothing
    have heq : at? a = at? b := Instant.le_antisymm hlt hle
    have hsame := filter_mergeSort (p := fun x => decide (at? x = at? a)) l.reverse trans total fun x y hx hy => by
      rw [decide_eq_true_eq] at *
      rw [hx, hy]
      exact (Instant.le_total _ _).elim id id
    have hpair := hab.filter fun x => decide (at? x = at? a)
    rw [hsame] at hpair
    simp only [List.filter_cons, decide_true, if_true, ← heq, List.filter_nil] at hpair
    exact .inr ⟨heq, List.reverse_sublist.mp (hpair.trans List.filter_sublist)⟩

namespace MemoryStore

variable {m : MemoryStore} {workflow : String} {created : List String}

theorem mem_list {e : Execution} : e ∈ m.list workflow ↔ e ∈ m.records ∧ e.workflowId = workflow := by
  rw [list, List.mem_mergeSort, List.mem_reverse, List.mem_filter, beq_iff_eq]

/-- The latest start comes first, and of equal starts the latest created. -/
theorem list_ordered (h : m.records.Pairwise fun a b => created.idxOf b.id < created.idxOf a.id) :
    (m.list workflow).Pairwise fun a b =>
      b.startedAt < a.startedAt ∨ a.startedAt = b.startedAt ∧ created.idxOf a.id < created.idxOf b.id := by
  refine (pairwise_latestFirst (m.records.filter (·.workflowId == workflow))).imp fun {a b} hab => ?_
  rcases hab with hlt | ⟨heq, hsub⟩
  · exact .inl hlt
  · exact .inr ⟨heq, List.pairwise_iff_forall_sublist.mp h (hsub.trans List.filter_sublist)⟩

end MemoryStore

/-! ## Rows of records -/

/-- The rows are those of the records, which stand in the order `created` tells, the latest first. -/
structure Twins (created : List String) (m : MemoryStore) (t : TableStore) : Prop where
  rows : t.rows = m.records.map ExecutionRow.ofExecution
  storable : ∀ e ∈ m.records, e.Storable
  ordered : m.records.Pairwise fun a b => created.idxOf b.id < created.idxOf a.id
  /-- No two records of a workflow have the same key. -/
  keyed : m.records.Pairwise fun a b =>
    a.workflowId = b.workflowId → a.idempotencyKey = b.idempotencyKey → a.idempotencyKey = none

/-- Both stores have been changed, or the change was refused by both for the same reason. -/
inductive Alike (created : List String) : Except Failure MemoryStore → Except Failure TableStore → Prop
  | accepted {m : MemoryStore} {t : TableStore} (h : Twins created m t) : Alike created (.ok m) (.ok t)
  | refused (f : Failure) : Alike created (.error f) (.error f)

theorem eq_of_pairwise {α : Type} {R : α → α → Prop} {l : List α} (h : l.Pairwise R) {a b : α} (ha : a ∈ l)
    (hb : b ∈ l) (hab : ¬ R a b) (hba : ¬ R b a) : a = b := by
  induction h with
  | nil => cases ha
  | cons hx _ ih =>
    rcases List.mem_cons.mp ha with rfl | ha' <;> rcases List.mem_cons.mp hb with rfl | hb'
    · rfl
    · exact absurd (hx b hb') hab
    · exact absurd (hx a ha') hba
    · exact ih ha' hb'

namespace Twins

variable {created : List String} {m : MemoryStore} {t : TableStore} {e : Execution} {id workflow key : String}

theorem nil : Twins [] {} {} := ⟨rfl, by simp, .nil, .nil⟩

/-! ### Reading -/

theorem get?_eq_some (h : Twins created m t) : m.get? id = some e ↔ e ∈ m.records ∧ e.id = id := by
  constructor
  · intro hget
    exact ⟨List.mem_of_find?_eq_some hget, by simpa using List.find?_some hget⟩
  · intro hmem
    obtain ⟨hmem, rfl⟩ := hmem
    cases hget : m.get? e.id with
    | none => exact absurd (List.find?_eq_none.mp hget e hmem) (by simp)
    | some old =>
      have hid : old.id = e.id := by simpa using List.find?_some hget
      have hne : ∀ a b : Execution, a.id = b.id → ¬ created.idxOf b.id < created.idxOf a.id := by
        intro a b hab
        rw [hab]
        exact Nat.lt_irrefl _
      rw [eq_of_pairwise h.ordered (List.mem_of_find?_eq_some hget) hmem (hne old e hid) (hne e old hid.symm)]

theorem find?_eq_some (h : Twins created m t) :
    m.find? workflow key = some e ↔ e ∈ m.records ∧ e.workflowId = workflow ∧ e.idempotencyKey = some key := by
  constructor
  · intro hfind
    exact ⟨List.mem_of_find?_eq_some hfind, by simpa using List.find?_some hfind⟩
  · intro hmem
    obtain ⟨hmem, hworkflow, hkey⟩ := hmem
    cases hfind : m.find? workflow key with
    | none => exact absurd hkey (by simpa [hworkflow] using List.find?_eq_none.mp hfind e hmem)
    | some old =>
      obtain ⟨hworkflow', hkey'⟩ : old.workflowId = workflow ∧ old.idempotencyKey = some key := by
        simpa using List.find?_some hfind
      have hne : ∀ a b : Execution, a.workflowId = workflow → b.workflowId = workflow →
          a.idempotencyKey = some key → b.idempotencyKey = some key →
          ¬ (a.workflowId = b.workflowId → a.idempotencyKey = b.idempotencyKey → a.idempotencyKey = none) := by
        intro a b ha hb hka hkb hnone
        rw [hnone (ha.trans hb.symm) (hka.trans hkb.symm)] at hka
        cases hka
      rw [eq_of_pairwise h.keyed (List.mem_of_find?_eq_some hfind) hmem (hne old e hworkflow' hworkflow hkey' hkey)
        (hne e old hworkflow hworkflow' hkey hkey')]

theorem row? (h : Twins created m t) (id : String) : t.row? id = (m.get? id).map ExecutionRow.ofExecution := by
  rw [TableStore.row?, h.rows, List.find?_map]
  rfl

/-- The row of a record is read as the record. -/
theorem execution (h : Twins created m t) (he : e ∈ m.records) : (ExecutionRow.ofExecution e).execution = .ok e :=
  ExecutionRow.execution_ofExecution (h.storable e he)

theorem get? (h : Twins created m t) (id : String) : t.get? id = .ok (m.get? id) := by
  rw [TableStore.get?, h.row? id]
  cases hget : m.get? id with
  | none => rfl
  | some e => simp only [Option.map_some, h.execution (h.get?_eq_some.mp hget).1, Except.map]

theorem find? (h : Twins created m t) (workflow key : String) : t.find? workflow key = .ok (m.find? workflow key) := by
  have hrow : t.rows.find? (fun r => r.workflowId == workflow && r.idempotencyKey == some key) =
      (m.find? workflow key).map ExecutionRow.ofExecution := by
    rw [h.rows, List.find?_map]
    rfl
  rw [TableStore.find?, hrow]
  cases hfind : m.find? workflow key with
  | none => rfl
  | some e => simp only [Option.map_some, h.execution (h.find?_eq_some.mp hfind).1, Except.map]

theorem list (h : Twins created m t) (workflow : String) : t.list workflow = .ok (m.list workflow) := by
  have hsorted : (m.list workflow).map ExecutionRow.ofExecution =
      (t.rows.filter (·.workflowId == workflow)).reverse.mergeSort fun a b => decide (b.startedAt ≤ a.startedAt) := by
    rw [h.rows, List.filter_map, ← List.map_reverse]
    refine List.map_mergeSort fun a ha b hb => ?_
    have hstart : ∀ x ∈ (m.records.filter (·.workflowId == workflow)).reverse, x.startedAt.InColumn := fun x hx =>
      (h.storable x (List.mem_filter.mp (List.mem_reverse.mp hx)).1).started
    exact decide_eq_decide.mpr (Instant.columnText_le_iff (hstart b hb) (hstart a ha)).symm
  rw [TableStore.list, ← hsorted, List.mapM_map]
  refine (mapM_ok (g := fun e => e) fun e he => ?_).trans (by rw [List.map_id'])
  exact h.execution (MemoryStore.mem_list.mp he).1

/-! ### Writing -/

/-- One more record and its row, under a new id and a key that is new to its workflow. -/
theorem snoc (h : Twins created m t) (he : e.Storable) (hid : ∀ old ∈ m.records, old.id ≠ e.id)
    (hkey : ∀ old ∈ m.records, old.workflowId = e.workflowId → old.idempotencyKey = e.idempotencyKey →
      old.idempotencyKey = none) :
    Twins (e.id :: created) ⟨m.records ++ [e]⟩ ⟨t.rows ++ [.ofExecution e]⟩ := by
  have hshift : ∀ x ∈ m.records, (e.id :: created).idxOf x.id = created.idxOf x.id + 1 := by
    intro x hx
    rw [List.idxOf_cons, beq_eq_false_iff_ne.mpr (hid x hx).symm, cond_false]
  refine
    { rows := by rw [h.rows, List.map_append]; rfl
      storable := List.forall_mem_append.mpr ⟨h.storable, List.forall_mem_singleton.mpr he⟩
      ordered := List.pairwise_append.mpr
        ⟨h.ordered.imp_of_mem fun {a b} ha hb hab => ?_, List.pairwise_singleton _ _, fun a ha b hb => ?_⟩
      keyed := List.pairwise_append.mpr ⟨h.keyed, List.pairwise_singleton _ _, fun a ha b hb => ?_⟩ }
  · rw [hshift a ha, hshift b hb]
    exact Nat.succ_lt_succ hab
  · rw [List.mem_singleton.mp hb, List.idxOf_cons_self, hshift a ha]
    exact Nat.succ_pos _
  · rw [List.mem_singleton.mp hb]
    exact hkey a ha

/-- No row stands in the way of a new one if its id is new, and its key to its workflow. -/
theorem any_clashes (h : Twins created m t) : t.rows.any (TableStore.clashes · (.ofExecution e)) = false ↔
    ∀ old ∈ m.records, old.id ≠ e.id ∧ (old.workflowId = e.workflowId → old.idempotencyKey = e.idempotencyKey →
      old.idempotencyKey = none) := by
  rw [h.rows, List.any_map, List.any_eq_false]
  refine forall₂_congr fun old _ => ?_
  simp only [TableStore.clashes, ExecutionRow.ofExecution, ExecutionRow.putNodes, Function.comp_apply,
    Bool.or_eq_true, beq_iff_eq, Bool.and_eq_true, not_or, not_and, Option.isSome_iff_ne_none]
  refine and_congr_right fun _ => ⟨fun hfree hworkflow hsame => ?_, fun hnone hworkflow hsame => ?_⟩
  · by_contra hsome
    exact hfree ⟨hworkflow, hsame ▸ hsome⟩ hsame
  · exact hworkflow.2 (hsame ▸ hnone hworkflow.1 hsame)

theorem create (h : Twins created m t) (he : e.Storable)
    (hnew : m.get? e.id = none → ∀ key, e.idempotencyKey = some key → m.find? e.workflowId key = none) :
    Alike (e.id :: created) (m.create e) (t.create e) := by
  cases hget : m.get? e.id with
  | some old =>
    obtain ⟨hold, hid⟩ := h.get?_eq_some.mp hget
    have hclash : t.rows.any (TableStore.clashes · (.ofExecution e)) = true :=
      Bool.not_eq_false _ ▸ fun hfree => (h.any_clashes.mp hfree old hold).1 hid
    simp only [MemoryStore.create, TableStore.create, hget, hclash, Option.isSome_some, if_true]
    exact .refused _
  | none =>
    have hid : ∀ old ∈ m.records, old.id ≠ e.id := by simpa using List.find?_eq_none.mp hget
    have hkey : ∀ old ∈ m.records, old.workflowId = e.workflowId → old.idempotencyKey = e.idempotencyKey →
        old.idempotencyKey = none := by
      intro old hold hworkflow hsame
      cases hk : old.idempotencyKey with
      | none => rfl
      | some key =>
        have hfound := h.find?_eq_some.mpr ⟨hold, hworkflow, hk⟩
        rw [hnew hget key (hsame.symm.trans hk)] at hfound
        cases hfound
    have hclash := h.any_clashes.mpr fun old hold => ⟨hid old hold, hkey old hold⟩
    simp only [MemoryStore.create, TableStore.create, hget, hclash, Option.isSome_none, Bool.false_eq_true, if_false]
    exact .accepted (h.snoc he hid hkey)

/-- The records and the rows under an id change in the same way. -/
theorem modify {f : Execution → Execution} {g : ExecutionRow → ExecutionRow} (h : Twins created m t)
    (hchange : ∀ old, m.get? id = some old → g (.ofExecution old) = .ofExecution (f old) ∧ (f old).Storable ∧
      (f old).origin = old.origin) : Alike created (m.modify id f) (t.modify id g) := by
  have hsome : (t.row? id).isSome = (m.get? id).isSome := by rw [h.row? id, Option.isSome_map]
  simp only [MemoryStore.modify, TableStore.modify, hsome]
  split
  · have hsame : ∀ old ∈ m.records, (if old.id = id then f old else old).origin = old.origin := by
      intro old hold
      split
      next hid => exact (hchange old (h.get?_eq_some.mpr ⟨hold, hid⟩)).2.2
      next => rfl
    refine .accepted ⟨?_, fun x hx => ?_, ?_, ?_⟩
    · rw [h.rows, List.map_map, List.map_map]
      refine List.map_congr_left fun old hold => ?_
      simp only [Function.comp_apply, show (ExecutionRow.ofExecution old).id = old.id from rfl]
      split
      next hid => exact (hchange old (h.get?_eq_some.mpr ⟨hold, hid⟩)).1
      next => rfl
    · obtain ⟨old, hold, rfl⟩ := List.mem_map.mp hx
      split
      next hid => exact (hchange old (h.get?_eq_some.mpr ⟨hold, hid⟩)).2.1
      next => exact h.storable old hold
    · refine List.pairwise_map.mpr (h.ordered.imp_of_mem fun {a b} ha hb hab => ?_)
      have hid := fun x hx => congrArg Execution.Origin.id (hsame x hx)
      simp only [Execution.origin] at hid
      rw [hid a ha, hid b hb]
      exact hab
    · refine List.pairwise_map.mpr (h.keyed.imp_of_mem fun {a b} ha hb hab => ?_)
      have hworkflow := fun x hx => congrArg Execution.Origin.workflowId (hsame x hx)
      have hkey := fun x hx => congrArg Execution.Origin.idempotencyKey (hsame x hx)
      simp only [Execution.origin] at hworkflow hkey
      rw [hworkflow a ha, hworkflow b hb, hkey a ha, hkey b hb]
      exact hab
  · exact .refused _

theorem update (h : Twins created m t) (he : e.Storable) (hkeeps : ∀ old, m.get? e.id = some old → old.Keeps e) :
    Alike created (m.update e) (t.update e) :=
  h.modify fun old hget => ⟨ExecutionRow.putNodes_of_keeps he.tidy (h.storable old (h.get?_eq_some.mp hget).1).tidy
    (hkeeps old hget), he, (hkeeps old hget).origin⟩

theorem putNode {r : NodeResult} (h : Twins created m t) (id : String) (hr : r.Legible) :
    Alike created (m.putNode id r) (t.putNode id r) := by
  refine h.modify fun old hget => ?_
  have hold := h.storable old (h.get?_eq_some.mp hget).1
  exact ⟨(ExecutionRow.ofExecution_setNode hold.tidy).symm, hold.setNode hr, rfl⟩

/-- To delete records and to delete rows come to the same if they agree on which. -/
theorem filter {p : Execution → Bool} {q : ExecutionRow → Bool} (h : Twins created m t)
    (hsame : ∀ e ∈ m.records, q (.ofExecution e) = p e) :
    Twins created ⟨m.records.filter fun e => !p e⟩ ⟨t.rows.filter fun r => !q r⟩ ∧
      (t.rows.filter q).length = (m.records.filter p).length := by
  have hfilter : ∀ f : Bool → Bool, t.rows.filter (fun r => f (q r)) =
      (m.records.filter fun e => f (p e)).map ExecutionRow.ofExecution := by
    intro f
    rw [h.rows, List.filter_map]
    refine congrArg _ (List.filter_congr fun e he => ?_)
    rw [Function.comp_apply, hsame e he]
  refine ⟨⟨hfilter not, fun e he => h.storable e (List.mem_filter.mp he).1, h.ordered.filter _, h.keyed.filter _⟩, ?_⟩
  have hlength := congrArg List.length (hfilter id)
  rw [List.length_map] at hlength
  exact hlength

/-- Before a cutoff in the years up to 9999 the same records and rows have stopped. -/
theorem isExpired_ofExecution {before : Instant} (he : e.Storable) (hbefore : before.date.year ≤ 9999) :
    TableStore.isExpired before.columnText (.ofExecution e) = MemoryStore.isExpired before e := by
  simp only [TableStore.isExpired, MemoryStore.isExpired, ExecutionRow.ofExecution, ExecutionRow.putNodes]
  cases hs : e.stoppedAt with
  | none => rfl
  | some stop =>
    have htext : decide (stop.columnText < before.columnText) = stop.before before := by
      rw [Bool.eq_iff_iff, decide_eq_true_eq]
      exact Instant.columnText_lt_iff_of_year_le (he.stopped stop hs) hbefore
    rw [Option.map_some, Option.any_some, Option.any_some, htext]
    rfl

/-- Before a later cutoff every record that has ended has stopped, and no row. -/
theorem isExpired_of_late {before : Instant} (he : e.Storable) (hlate : 9999 < before.date.year) :
    TableStore.isExpired before.columnText (.ofExecution e) = false ∧
      MemoryStore.isExpired before e = (e.isTerminal && e.stoppedAt.isSome) := by
  simp only [TableStore.isExpired, MemoryStore.isExpired, ExecutionRow.ofExecution, ExecutionRow.putNodes]
  cases hs : e.stoppedAt with
  | none => exact ⟨Bool.and_false _, rfl⟩
  | some stop =>
    have hstop := he.stopped stop hs
    have hbefore : ¬ before.InColumn := fun hcolumn => absurd hcolumn.2 (by omega)
    have htext : ¬ stop.columnText < before.columnText := fun hlt =>
      String.lt_irrefl _ (String.lt_trans hlt (Instant.columnText_lt_of_not_inColumn hstop hbefore))
    have htime : stop < before := Instant.lt_of_year_lt (Int.lt_of_le_of_lt hstop.2 hlate)
    rw [Option.map_some, Option.any_some, decide_eq_false htext, Bool.and_false, Option.any_some, Option.isSome_some]
    exact ⟨rfl, congrArg _ htime⟩

/-- The table deletes nothing then. -/
theorem prune_of_late {before : Instant} (h : Twins created m t) (hlate : 9999 < before.date.year) :
    t.prune before = (t, 0) := by
  have hnone : ∀ row ∈ t.rows, TableStore.isExpired before.columnText row = false := by
    rw [h.rows]
    exact List.forall_mem_map.mpr fun e he => (isExpired_of_late (h.storable e he) hlate).1
  have hkept : t.rows.filter (fun row => !TableStore.isExpired before.columnText row) = t.rows :=
    List.filter_eq_self.mpr fun row hrow => by rw [hnone row hrow, Bool.not_false]
  have hgone : t.rows.filter (TableStore.isExpired before.columnText) = [] :=
    List.filter_eq_nil_iff.mpr fun row hrow => by rw [hnone row hrow]; exact Bool.false_ne_true
  rw [TableStore.prune, hkept, hgone]
  rfl

theorem prune {before : Instant} (h : Twins created m t) (hbefore : before.date.year ≤ 9999 ∨ (m.prune before).2 = 0) :
    Twins created (m.prune before).1 (t.prune before).1 ∧ (t.prune before).2 = (m.prune before).2 := by
  by_cases hyear : before.date.year ≤ 9999
  · exact h.filter fun e he => isExpired_ofExecution (h.storable e he) hyear
  · have hnone := hbefore.resolve_left hyear
    have hkept : (m.prune before).1 = m := congrArg MemoryStore.mk <| List.filter_eq_self.mpr fun e he => by
      have hexpired : MemoryStore.isExpired before e = false :=
        Bool.eq_false_iff.mpr (List.filter_eq_nil_iff.mp (List.eq_nil_of_length_eq_zero hnone) e he)
      rw [hexpired, Bool.not_false]
    rw [h.prune_of_late (Int.not_le.mp hyear), hkept, hnone]
    exact ⟨h, rfl⟩

/-! ### Calls -/

/-- Changed in the same way, the two stores give the same answer. -/
theorem changed {created' : List String} {x : Except Failure MemoryStore} {y : Except Failure TableStore}
    (h : Twins created m t) (halike : Alike created' x y) :
    ∃ m' t' answer, (Store.memory m).changed (x.map .memory) = (answer, .memory m') ∧
      (Store.table t).changed (y.map .table) = (answer, .table t') ∧
      (answer = .ok .done ∧ Twins created' m' t' ∨ (∃ f, answer = .error f) ∧ Twins created m' t') := by
  cases halike with
  | @accepted m' t' h' => exact ⟨m', t', .ok .done, rfl, rfl, .inl ⟨rfl, h'⟩⟩
  | refused f => exact ⟨m, t, .error f, rfl, rfl, .inr ⟨⟨f, rfl⟩, h⟩⟩

/-- Every call that fits gets the same answer from both stores. -/
theorem call {c : StoreCall} (h : Twins created m t) (hfits : c.Fits (.memory m)) :
    ∃ m' t' answer, (Store.memory m).call c = (answer, .memory m') ∧ (Store.table t).call c = (answer, .table t') ∧
      Twins ((Store.createdBy c answer).toList ++ created) m' t' := by
  cases c with
  | create e =>
    obtain ⟨he, hnew⟩ := hfits
    obtain ⟨m', t', answer, hm, ht, ⟨rfl, h'⟩ | ⟨⟨f, rfl⟩, h'⟩⟩ := h.changed <| h.create he fun hget key hkey =>
      Except.ok.inj (hnew (congrArg Except.ok hget) key hkey)
    · exact ⟨m', t', _, hm, ht, h'⟩
    · exact ⟨m', t', _, hm, ht, h'⟩
  | update e =>
    obtain ⟨he, hkeeps⟩ := hfits
    obtain ⟨m', t', answer, hm, ht, h'⟩ := h.changed <| h.update he fun old hget =>
      hkeeps old (congrArg Except.ok hget)
    exact ⟨m', t', answer, hm, ht, h'.elim (·.2) (·.2)⟩
  | putNode id r =>
    obtain ⟨m', t', answer, hm, ht, h'⟩ := h.changed (h.putNode id hfits)
    exact ⟨m', t', answer, hm, ht, h'.elim (·.2) (·.2)⟩
  | get id =>
    refine ⟨m, t, .ok (.found (m.get? id)), rfl, ?_, h⟩
    simp only [Store.call, Store.get?, h.get? id, Except.map]
  | list workflow =>
    refine ⟨m, t, .ok (.listed (m.list workflow)), rfl, ?_, h⟩
    simp only [Store.call, Store.list, h.list workflow, Except.map]
  | find workflow key =>
    refine ⟨m, t, .ok (.found (m.find? workflow key)), rfl, ?_, h⟩
    simp only [Store.call, Store.find?, h.find? workflow key, Except.map]
  | prune before =>
    obtain ⟨h', hcount⟩ := h.prune hfits
    refine ⟨_, _, .ok (.pruned (m.prune before).2), rfl, ?_, h'⟩
    simp only [Store.call, Store.prune, hcount]

end Twins

/-- Whatever the two stores have been asked, the rows of one are those of the records of the other. -/
theorem Fitting.twins {calls : List StoreCall} (h : Fitting calls) :
    ∃ m t, ((Store.memory {}).serve calls).store = .memory m ∧ ((Store.table {}).serve calls).store = .table t ∧
      ((Store.table {}).serve calls).answers = ((Store.memory {}).serve calls).answers ∧
      Twins ((Store.memory {}).serve calls).created m t := by
  induction calls using List.reverseRecOn with
  | nil => exact ⟨{}, {}, rfl, rfl, rfl, .nil⟩
  | append_singleton calls c ih =>
    obtain ⟨hcalls, hfits⟩ := fitting_append_iff.mp h
    obtain ⟨m, t, hm, ht, hanswers, htwins⟩ := ih hcalls
    rw [hm] at hfits
    obtain ⟨m', t', answer, hm', ht', htwins'⟩ := htwins.call hfits
    rw [Store.serve_append, Store.serve_append, Store.Service.ask, Store.Service.ask, hm, ht, hm', ht', hanswers]
    exact ⟨m', t', rfl, rfl, rfl, htwins'⟩

/-! ## No call tells them apart -/

/-- A store of records and a store of rows that have been asked the same. -/
structure StoresAgree (s t : Store.Service) : Prop where
  /-- They have given the same answers, refusals included. -/
  answers : t.answers = s.answers
  get : ∀ id, t.store.get? id = s.store.get? id
  /-- One execution at most is found under a key of a workflow, by both. -/
  find : ∀ workflow key, ∃ found, s.store.find? workflow key = .ok found ∧ t.store.find? workflow key = .ok found ∧
    ∀ e, found = some e ↔
      s.store.get? e.id = .ok (some e) ∧ e.workflowId = workflow ∧ e.idempotencyKey = some key
  /-- Both list the executions of a workflow, the latest start first and of equal starts the latest created. -/
  list : ∀ workflow, ∃ l, s.store.list workflow = .ok l ∧ t.store.list workflow = .ok l ∧
    (∀ e, e ∈ l ↔ s.store.get? e.id = .ok (some e) ∧ e.workflowId = workflow) ∧
    l.Pairwise fun a b => b.startedAt < a.startedAt ∨
      a.startedAt = b.startedAt ∧ s.created.idxOf a.id < s.created.idxOf b.id
  /-- A record put in is read as it was given; nothing of an earlier one under its id comes back. -/
  create : ∀ e, (StoreCall.create e).Fits s.store → s.store.get? e.id = .ok none →
    ∃ s' t', s.store.create e = .ok s' ∧ t.store.create e = .ok t' ∧
      s'.get? e.id = .ok (some e) ∧ t'.get? e.id = .ok (some e)
  duplicate : ∀ e old, (StoreCall.create e).Fits s.store → s.store.get? e.id = .ok (some old) →
    s.store.create e = .error (MemoryStore.duplicate e.id) ∧ t.store.create e = .error (MemoryStore.duplicate e.id)
  missing : ∀ e, s.store.get? e.id = .ok none →
    s.store.update e = .error (.executionNotFound e.id) ∧ t.store.update e = .error (.executionNotFound e.id) ∧
    ∀ r, s.store.putNode e.id r = .error (.executionNotFound e.id) ∧
      t.store.putNode e.id r = .error (.executionNotFound e.id)
  /-- Both delete as many executions, and the same ones. -/
  prune : ∀ before, before.date.year ≤ 9999 → (t.store.prune before).2 = (s.store.prune before).2 ∧
    ∀ id, (t.store.prune before).1.get? id = (s.store.prune before).1.get? id
  /-- A later cutoff deletes no row at all, and the record of every run that has ended. -/
  late : ∀ before, 9999 < before.date.year →
    (t.store.prune before).2 = 0 ∧ (∀ id, (t.store.prune before).1.get? id = t.store.get? id) ∧
    ∀ e, (s.store.prune before).1.get? e.id = .ok (some e) ↔
      s.store.get? e.id = .ok (some e) ∧ ¬ (e.isTerminal = true ∧ e.stoppedAt.isSome = true)

namespace Twins

variable {created : List String} {m : MemoryStore} {t : TableStore} {e : Execution}

theorem live_iff (h : Twins created m t) : (Store.memory m).get? e.id = .ok (some e) ↔ e ∈ m.records := by
  rw [Store.get?, Except.ok.injEq, h.get?_eq_some]
  exact and_iff_left rfl

theorem live_prune_iff_of_late {before : Instant} (h : Twins created m t) (hlate : 9999 < before.date.year) :
    (Store.memory (m.prune before).1).get? e.id = .ok (some e) ↔
      (Store.memory m).get? e.id = .ok (some e) ∧ ¬ (e.isTerminal = true ∧ e.stoppedAt.isSome = true) := by
  -- the records that are left are those of some table
  have hleft := (h.filter (p := MemoryStore.isExpired before) (q := fun row => row.status.isTerminal && row.stoppedAt.isSome)
    fun old hold => by
      rw [(isExpired_of_late (h.storable old hold) hlate).2]
      simp only [ExecutionRow.ofExecution, ExecutionRow.putNodes, Option.isSome_map]
      rfl).1
  rw [h.live_iff, ← Bool.and_eq_true_iff]
  refine (hleft.live_iff (e := e)).trans (List.mem_filter.trans (and_congr_right fun hmem => ?_))
  rw [(isExpired_of_late (h.storable e hmem) hlate).2, Bool.not_eq_true', Bool.not_eq_true]

theorem get?_of_create (h : Twins created m t) (hfits : (StoreCall.create e).Fits (.memory m))
    (hget : m.get? e.id = none) : ∃ m' t', m.create e = .ok m' ∧ t.create e = .ok t' ∧
      m'.get? e.id = some e ∧ t'.get? e.id = .ok (some e) := by
  obtain ⟨he, hnew⟩ := hfits
  have halike := h.create he fun hget key hkey => Except.ok.inj (hnew (congrArg Except.ok hget) key hkey)
  have hm : m.create e = .ok ⟨m.records ++ [e]⟩ := by simp [MemoryStore.create, hget]
  rw [hm] at halike
  generalize ht : t.create e = y at halike
  cases halike with
  | @accepted _ t' h' =>
    have hread : MemoryStore.get? ⟨m.records ++ [e]⟩ e.id = some e :=
      h'.get?_eq_some.mpr ⟨List.mem_append_right _ List.mem_cons_self, rfl⟩
    exact ⟨_, t', hm, rfl, hread, (h'.get? e.id).trans (congrArg Except.ok hread)⟩

theorem duplicate_of_create {old : Execution} (h : Twins created m t) (hfits : (StoreCall.create e).Fits (.memory m))
    (hget : m.get? e.id = some old) :
    m.create e = .error (MemoryStore.duplicate e.id) ∧ t.create e = .error (MemoryStore.duplicate e.id) := by
  have halike := h.create hfits.1 fun hnone => by
    rw [hnone] at hget
    cases hget
  have hm : m.create e = .error (MemoryStore.duplicate e.id) := by simp [MemoryStore.create, hget]
  rw [hm] at halike
  generalize ht : t.create e = y at halike
  cases halike
  exact ⟨hm, rfl⟩

theorem modify_missing {id : String} (h : Twins created m t) (hget : m.get? id = none) :
    (∀ f, m.modify id f = .error (.executionNotFound id)) ∧ ∀ g, t.modify id g = .error (.executionNotFound id) :=
  ⟨fun f => by simp [MemoryStore.modify, hget], fun g => by simp [TableStore.modify, h.row? id, hget]⟩

end Twins

/-- No sequence of calls that fit tells a store of records and a store of rows apart. -/
theorem storesAgree {calls : List StoreCall} (h : Fitting calls) :
    StoresAgree ((Store.memory {}).serve calls) ((Store.table {}).serve calls) := by
  obtain ⟨m, t, hm, ht, hanswers, htwins⟩ := h.twins
  refine
    { answers := hanswers
      get := fun id => ?get
      find := fun workflow key => ?find
      list := fun workflow => ?list
      create := fun e hfits hget => ?create
      duplicate := fun e old hfits hget => ?duplicate
      missing := fun e hget => ?missing
      prune := fun before hbefore => ?prune
      late := fun before hlate => ?late }
  all_goals rw [hm] at *
  all_goals rw [ht]
  case get => exact htwins.get? id
  case find =>
    refine ⟨m.find? workflow key, rfl, htwins.find? workflow key, fun e => ?_⟩
    rw [htwins.find?_eq_some, htwins.live_iff]
  case list =>
    refine ⟨m.list workflow, rfl, htwins.list workflow, fun e => ?_, MemoryStore.list_ordered htwins.ordered⟩
    rw [MemoryStore.mem_list, htwins.live_iff]
  case create =>
    obtain ⟨m', t', hm', ht', hread, hread'⟩ := htwins.get?_of_create hfits (Except.ok.inj hget)
    refine ⟨.memory m', .table t', ?_, ?_, congrArg Except.ok hread, hread'⟩
    · rw [Store.create, hm']
      rfl
    · rw [Store.create, ht']
      rfl
  case duplicate =>
    obtain ⟨hm', ht'⟩ := htwins.duplicate_of_create hfits (Except.ok.inj hget)
    rw [Store.create, Store.create, hm', ht']
    exact ⟨rfl, rfl⟩
  case missing =>
    have hnone := Except.ok.inj hget
    refine ⟨?_, ?_, fun r => ⟨?_, ?_⟩⟩
    · rw [Store.update, MemoryStore.update, (htwins.modify_missing hnone).1]
      rfl
    · rw [Store.update, TableStore.update, (htwins.modify_missing hnone).2]
      rfl
    · rw [Store.putNode, MemoryStore.putNode, (htwins.modify_missing hnone).1]
      rfl
    · rw [Store.putNode, TableStore.putNode, (htwins.modify_missing hnone).2]
      rfl
  case prune =>
    obtain ⟨htwins', hcount⟩ := htwins.prune (.inl hbefore)
    exact ⟨hcount, fun id => htwins'.get? id⟩
  case late =>
    refine ⟨congrArg Prod.snd (htwins.prune_of_late hlate), fun id => ?_, fun e => htwins.live_prune_iff_of_late hlate⟩
    rw [Store.prune, htwins.prune_of_late hlate]

/-! ## A run that is deleted and created again -/

namespace Rerun

/-- A run under a key. -/
def first : Execution := .fresh "1" "w" 1 .null (some "k") .epoch

/-- Another run that starts at the same time. -/
def second : Execution := .fresh "2" "w" 1 .null none .epoch

def result : NodeResult := .waiting "a"

/-- The first run at its end. -/
def ended : Execution := { first.setNode "a" result with status := .canceled, stoppedAt := some .epoch }

/-- The first run is deleted after its end, and its id is used again. -/
def calls : List StoreCall :=
  [.create first, .putNode "1" result, .create second, .list "w", .create first, .update ended,
    .prune (.addSeconds .epoch 1), .create first, .get "1", .list "w"]

theorem storable_first : first.Storable := ⟨by decide +kernel, Keyed.sorted_nil, nofun⟩

theorem storable_second : second.Storable := ⟨by decide +kernel, Keyed.sorted_nil, nofun⟩

theorem storable_ended : ended.Storable := by
  have htidy : (first.setNode "a" result).Tidy := storable_first.tidy.setNode rfl
  exact ⟨by decide +kernel, htidy.congr rfl⟩

theorem fitting : Fitting calls := by
  have hfirst : Fitting [.create first] := fitting_nil.snoc (c := .create first)
    ⟨storable_first, fun _ key hkey => by cases hkey; rfl⟩
  have hputNode : Fitting [.create first, .putNode "1" result] :=
    hfirst.snoc (c := .putNode "1" result) (show result.Legible by decide +kernel)
  have hsecond := hputNode.snoc (c := .create second) ⟨storable_second, nofun⟩
  -- the id is taken
  have hagain := (hsecond.snoc (c := .list "w") trivial).snoc (c := .create first) ⟨storable_first, nofun⟩
  have hended := hagain.snoc (c := .update ended) ⟨storable_ended, fun old hget => by
    obtain rfl : first.setNode "a" result = old := Option.some.inj (Except.ok.inj hget)
    exact ⟨rfl, rfl, fun _ hx => hx⟩⟩
  have hprune := hended.snoc (c := .prune (.addSeconds .epoch 1)) (.inl (by decide +kernel))
  have hlast := hprune.snoc (c := .create first) ⟨storable_first, fun _ key hkey => by cases hkey; rfl⟩
  exact (hlast.snoc (c := .get "1") trivial).snoc (c := .list "w") trivial

/-- The second run at its end. -/
def stopped : Execution := { second with id := "1", status := .canceled, stoppedAt := some .epoch }

def once : List StoreCall := [.create stopped]

theorem fitting_once : Fitting once :=
  fitting_nil.snoc (c := .create stopped) ⟨⟨by decide +kernel, Keyed.sorted_nil, nofun⟩, nofun⟩

end Rerun

/-- The result of its node does not come back with the run. -/
theorem storesAgree_rerun : Fitting Rerun.calls ∧
    ((Store.memory {}).serve Rerun.calls).store.get? "1" = .ok (some Rerun.first) ∧
    StoresAgree ((Store.memory {}).serve Rerun.calls) ((Store.table {}).serve Rerun.calls) :=
  ⟨Rerun.fitting, rfl, storesAgree Rerun.fitting⟩

/-- The two stores have the same run that has ended. Asked to delete what has stopped before the year
10000 one deletes it, and the other does not. -/
theorem told_apart_by_late_cutoff : Fitting Rerun.once ∧ (Instant.addSeconds .epoch 253402300800).date.year = 10000 ∧
    ((Store.memory {}).serve Rerun.once).store.get? "1" = .ok (some Rerun.stopped) ∧
    ((Store.table {}).serve Rerun.once).store.get? "1" = .ok (some Rerun.stopped) ∧
    (((Store.memory {}).serve Rerun.once).store.prune (.addSeconds .epoch 253402300800)).2 = 1 ∧
    (((Store.table {}).serve Rerun.once).store.prune (.addSeconds .epoch 253402300800)).2 = 0 := by
  refine ⟨Rerun.fitting_once, ?_, ?_, ?_, ?_, ?_⟩ <;> decide +kernel

end Workflows
