/-
  Workflows.Proofs.Store.Chronological — rows order by their texts as they do by time.

  A table compares the texts of instants only. In the years 0 to 9999, leap seconds included,
  a text reads back as its instant and two texts order as their instants do (`TellTime`).

  What a table has been given in those years it has in columns of such texts
  (`ExecutionRow.InColumn`), and every call keeps it so (`TableStore.InColumn.call`). So
  whatever it has been asked, all of its rows can be read, it lists the latest start first and
  of equal starts the latest created, and it prunes what stopped before the cutoff and nothing
  else, by the instants of the records that are read (`chronological`).
-/

import Workflows.Proofs.Store.Agreement

namespace Workflows

/-! ## Texts -/

/-- Texts in a column stand for their instants. -/
structure TellTime : Prop where
  /-- The same instant, to the nanosecond. -/
  readBack : ∀ a : Instant, a.InColumn → Instant.ofColumn? a.columnText = some a
  lt_iff : ∀ a b : Instant, a.InColumn → b.InColumn → (a.columnText < b.columnText ↔ a < b)
  eq_iff : ∀ a b : Instant, a.InColumn → b.InColumn → (a.columnText = b.columnText ↔ a = b)
  /-- A record is read from its row with all its instants; only payloads go through their texts. -/
  record : ∀ e : Execution, e.Tidy → e.InColumn →
    (ExecutionRow.ofExecution e).execution = .ok (e.mapPayloads Json.readBack)

theorem Instant.columnText_inj {a b : Instant} (ha : a.InColumn) (hb : b.InColumn) :
    a.columnText = b.columnText ↔ a = b := by
  constructor
  · intro h
    have hread := Instant.ofColumn?_columnText hb
    rw [← h, Instant.ofColumn?_columnText ha] at hread
    exact Option.some.inj hread
  · rintro rfl
    rfl

theorem tellTime : TellTime where
  readBack _ ha := Instant.ofColumn?_columnText ha
  lt_iff _ _ ha hb := Instant.columnText_lt_iff ha hb
  eq_iff _ _ ha hb := Instant.columnText_inj ha hb
  record _ htidy h := ExecutionRow.execution_ofExecution_mapPayloads htidy h

/-- The text of an instant in a column. -/
def IsStamp (s : String) : Prop := ∃ a : Instant, a.InColumn ∧ a.columnText = s

theorem isStamp_columnText {a : Instant} (h : a.InColumn) : IsStamp a.columnText := ⟨a, h, rfl⟩

theorem isStamp_map {a : Option Instant} (h : ∀ t ∈ a, t.InColumn) : ∀ s ∈ a.map Instant.columnText, IsStamp s := by
  intro s hs
  obtain ⟨t, ht, rfl⟩ := Option.mem_map.mp hs
  exact isStamp_columnText (h t ht)

namespace IsStamp

theorem read {s : String} (h : IsStamp s) :
    ∃ a : Instant, instantOfColumn s = .ok a ∧ a.InColumn ∧ a.columnText = s := by
  obtain ⟨a, ha, rfl⟩ := h
  exact ⟨a, instantOfColumn_columnText ha, ha, rfl⟩

theorem read? {s : Option String} (h : ∀ x ∈ s, IsStamp x) :
    ∃ a : Option Instant, instantOfColumn? s = .ok a ∧ (∀ t ∈ a, t.InColumn) ∧ a.map Instant.columnText = s := by
  cases s with
  | none => exact ⟨none, rfl, nofun, rfl⟩
  | some x =>
    obtain ⟨a, hread, ha, rfl⟩ := (h x rfl).read
    refine ⟨some a, ?_, fun t ht => Option.some.inj ht ▸ ha, rfl⟩
    rw [instantOfColumn?, hread]
    rfl

end IsStamp

/-! ## Rows -/

/-- The columns of instants hold their texts. -/
structure NodeRow.InColumn (row : NodeRow) : Prop where
  started : ∀ s ∈ row.startedAt, IsStamp s
  stopped : ∀ s ∈ row.stoppedAt, IsStamp s

theorem NodeRow.InColumn.ofResult {r : NodeResult} (h : r.InColumn) : (NodeRow.ofResult r).InColumn :=
  ⟨isStamp_map h.1, isStamp_map h.2⟩

theorem NodeRow.InColumn.read {row : NodeRow} (h : row.InColumn) (id : String) : ∃ r, row.result id = .ok r := by
  obtain ⟨start, hstart, -, -⟩ := IsStamp.read? h.started
  obtain ⟨stop, hstop, -, -⟩ := IsStamp.read? h.stopped
  simp only [NodeRow.result, hstart, hstop, bind, Except.bind, pure, Except.pure]
  exact ⟨_, rfl⟩

structure ExecutionRow.InColumn (row : ExecutionRow) : Prop where
  started : IsStamp row.startedAt
  stopped : ∀ s ∈ row.stoppedAt, IsStamp s
  nodes : ∀ p ∈ row.nodes, p.2.InColumn

/-- The record that is read from a row; its instants are those the texts tell. -/
structure ExecutionRow.Reads (row : ExecutionRow) (e : Execution) : Prop where
  read : row.execution = .ok e
  workflow : e.workflowId = row.workflowId
  status : e.status = row.status
  startInColumn : e.startedAt.InColumn
  started : e.startedAt.columnText = row.startedAt
  stopInColumn : ∀ t ∈ e.stoppedAt, t.InColumn
  stopped : e.stoppedAt.map Instant.columnText = row.stoppedAt

namespace ExecutionRow.InColumn

variable {row : ExecutionRow} {e : Execution} {results : List NodeResult}

theorem putNodes (h : row.InColumn) (hresults : ∀ r ∈ results, r.InColumn) : (row.putNodes results).InColumn := by
  refine ⟨h.started, h.stopped, fun p hp => ?_⟩
  rcases Keyed.mem_of_mem_insertAll hp with hnew | hold
  · obtain ⟨r, hr, rfl⟩ := List.mem_map.mp hnew
    exact .ofResult (hresults r hr)
  · exact h.nodes p hold

theorem values (h : e.InColumn) : ∀ r ∈ Keyed.values e.nodeResults, r.InColumn := by
  intro r hr
  obtain ⟨p, hp, rfl⟩ := List.mem_map.mp hr
  exact h.nodes p hp

theorem ofExecution (h : e.InColumn) : (ExecutionRow.ofExecution e).InColumn := by
  refine putNodes ⟨isStamp_columnText h.started, isStamp_map h.stopped, fun p hp => ?_⟩ (values h)
  cases hp

/-- Every such row is read. -/
theorem reads (h : row.InColumn) : ∃ e, row.Reads e := by
  obtain ⟨start, hstart, hin, hstarted⟩ := h.started.read
  obtain ⟨stop, hstop, hin', hstopped⟩ := IsStamp.read? h.stopped
  have hnode : ∀ p : String × NodeRow, ∃ r, p ∈ row.nodes → p.2.result p.1 = .ok r := by
    intro p
    by_cases hp : p ∈ row.nodes
    · obtain ⟨r, hr⟩ := (h.nodes p hp).read p.1
      exact ⟨r, fun _ => hr⟩
    · exact ⟨.waiting p.1, fun hmem => absurd hmem hp⟩
  choose read hread using hnode
  have hexecution : ∃ e : Execution, row.execution = .ok e ∧ e.workflowId = row.workflowId ∧ e.status = row.status ∧
      e.startedAt = start ∧ e.stoppedAt = stop := by
    rw [ExecutionRow.execution, hstart, hstop, mapM_ok (g := fun p => (p.1, read p)) fun p hp => ?nodes]
    case nodes =>
      obtain ⟨id, n⟩ := p
      have hresult : n.result id = .ok (read (id, n)) := hread (id, n) hp
      simp only [hresult]
      rfl
    exact ⟨_, rfl, rfl, rfl, rfl, rfl⟩
  obtain ⟨e, hread, hworkflow, hstatus, rfl, rfl⟩ := hexecution
  exact ⟨e, hread, hworkflow, hstatus, hin, hstarted, hin', hstopped⟩

end ExecutionRow.InColumn

/-! ## The table -/

def TableStore.InColumn (t : TableStore) : Prop := ∀ row ∈ t.rows, row.InColumn

/-- The instants that a call brings lie in the years 0 to 9999. -/
def StoreCall.InColumn : StoreCall → Prop
  | .create e | .update e => e.InColumn
  | .putNode _ r => r.InColumn
  | .prune before => before.InColumn
  | .get _ | .list _ | .find _ _ => True

namespace TableStore.InColumn

variable {t t' : TableStore} {e : Execution}

theorem create (h : t.InColumn) (he : e.InColumn) (hcreate : t.create e = .ok t') : t'.InColumn := by
  unfold TableStore.create at hcreate
  simp only at hcreate
  split at hcreate
  · cases hcreate
  · cases hcreate
    intro row hrow
    rcases List.mem_append.mp hrow with hold | hnew
    · exact h row hold
    · rw [List.mem_singleton.mp hnew]
      exact .ofExecution he

theorem modify {id : String} {f : ExecutionRow → ExecutionRow} (h : t.InColumn)
    (hf : ∀ row : ExecutionRow, row.InColumn → (f row).InColumn) (hmodify : t.modify id f = .ok t') : t'.InColumn := by
  unfold TableStore.modify at hmodify
  split at hmodify
  · cases hmodify
    intro row hrow
    obtain ⟨old, hold, rfl⟩ := List.mem_map.mp hrow
    split
    · exact hf old (h old hold)
    · exact h old hold
  · cases hmodify

/-- Whatever a call gives, the table it leaves has such columns again. -/
theorem changed {x : Except Failure TableStore} (h : t.InColumn) (hx : ∀ t', x = .ok t' → t'.InColumn) :
    ∃ t', ((Store.table t).changed (x.map .table)).2 = .table t' ∧ t'.InColumn := by
  cases x with
  | error f => exact ⟨t, rfl, h⟩
  | ok t' => exact ⟨t', rfl, hx t' rfl⟩

theorem call {c : StoreCall} (h : t.InColumn) (hc : c.InColumn) :
    ∃ t', ((Store.table t).call c).2 = .table t' ∧ t'.InColumn := by
  cases c with
  | create e => exact h.changed fun _ hcreate => h.create hc hcreate
  | update e =>
    refine h.changed fun _ hupdate => h.modify (fun row hrow => ?_) hupdate
    exact ExecutionRow.InColumn.putNodes ⟨hrow.started, isStamp_map hc.stopped, hrow.nodes⟩
      (ExecutionRow.InColumn.values hc)
  | putNode id r =>
    refine h.changed fun _ hput => h.modify (fun row hrow => ?_) hput
    exact hrow.putNodes fun x hx => List.mem_singleton.mp hx ▸ hc
  | prune before => exact ⟨_, rfl, fun row hrow => h row (List.mem_filter.mp hrow).1⟩
  | get _ | list _ | find _ _ => exact ⟨t, rfl, h⟩

/-- Whatever it has been asked, a table has the texts of instants in its columns. -/
theorem serve {calls : List StoreCall} (h : ∀ c ∈ calls, c.InColumn) :
    ∃ t, ((Store.table {}).serve calls).store = .table t ∧ t.InColumn := by
  induction calls using List.reverseRecOn with
  | nil => exact ⟨{}, rfl, fun row hrow => by cases hrow⟩
  | append_singleton calls c ih =>
    obtain ⟨t, ht, hcolumns⟩ := ih fun x hx => h x (List.mem_append_left _ hx)
    obtain ⟨t', ht', hcolumns'⟩ := hcolumns.call (h c (List.mem_append_right _ List.mem_cons_self))
    refine ⟨t', ?_, hcolumns'⟩
    rw [Store.serve_append, Store.Service.ask, ht]
    exact ht'

end TableStore.InColumn

/-! ## What is listed and pruned -/

/-- A table and the records that are read from its rows, in the order of their creation. -/
structure Chronological (t : TableStore) (records : List Execution) : Prop where
  read : t.rows.mapM ExecutionRow.execution = .ok records
  /-- The latest start comes first, and of equal starts the latest created. -/
  listed : ∀ workflow, ∃ es, t.list workflow = .ok es ∧ es.Perm (records.filter (·.workflowId == workflow)) ∧
    es.Pairwise fun a b => b.startedAt < a.startedAt ∨ a.startedAt = b.startedAt ∧ [b, a].Sublist records
  /-- What has ended and stopped before the cutoff is deleted and counted, all else is kept. -/
  pruned : ∀ before : Instant, before.InColumn →
    (t.prune before).1.rows.mapM ExecutionRow.execution =
        .ok (records.filter fun e => !MemoryStore.isExpired before e) ∧
      (t.prune before).2 = (records.filter (MemoryStore.isExpired before)).length

namespace ExecutionRow

variable {row : ExecutionRow} {e : Execution}

theorem Reads.isExpired (h : row.Reads e) {before : Instant} (hbefore : before.InColumn) :
    TableStore.isExpired before.columnText row = MemoryStore.isExpired before e := by
  unfold TableStore.isExpired MemoryStore.isExpired
  rw [Execution.isTerminal, h.status, ← h.stopped]
  cases hstop : e.stoppedAt with
  | none => rfl
  | some stop =>
    have htext : decide (stop.columnText < before.columnText) = stop.before before := by
      rw [Bool.eq_iff_iff, decide_eq_true_eq]
      exact Instant.columnText_lt_iff (h.stopInColumn stop hstop) hbefore
    rw [Option.map_some, Option.any_some, Option.any_some, htext]

end ExecutionRow

theorem TableStore.InColumn.exists_chronological {t : TableStore} (h : t.InColumn) : ∃ records, Chronological t records := by
  have hreads : ∀ row : ExecutionRow, ∃ e, row ∈ t.rows → row.Reads e := by
    intro row
    by_cases hrow : row ∈ t.rows
    · obtain ⟨e, he⟩ := (h row hrow).reads
      exact ⟨e, fun _ => he⟩
    · exact ⟨.fresh row.id row.workflowId row.workflowVersion .null none .epoch, fun hmem => absurd hmem hrow⟩
  choose record hrecord using hreads
  have hread : ∀ rows : List ExecutionRow, (∀ row ∈ rows, row ∈ t.rows) →
      rows.mapM ExecutionRow.execution = .ok (rows.map record) := fun rows hrows =>
    mapM_ok fun row hrow => (hrecord row (hrows row hrow)).read
  have hfilter (p : ExecutionRow → Bool) (q : Execution → Bool) (hpq : ∀ row ∈ t.rows, p row = q (record row)) :
      (t.rows.filter p).map record = (t.rows.map record).filter q := by
    rw [List.filter_map]
    exact congrArg _ (List.filter_congr hpq)
  refine ⟨t.rows.map record, hread _ fun _ hrow => hrow, fun workflow => ?_, fun before hbefore => ⟨?_, ?_⟩⟩
  · have hworkflow := hfilter (·.workflowId == workflow) (·.workflowId == workflow) fun row hrow => by
      rw [(hrecord row hrow).workflow]
    have hmem : ∀ row ∈ (t.rows.filter (·.workflowId == workflow)).reverse, row ∈ t.rows := fun row hrow =>
      (List.mem_filter.mp (List.mem_reverse.mp hrow)).1
    -- sorting by the texts is sorting by the instants
    have hsorted : ((t.rows.filter (·.workflowId == workflow)).reverse.mergeSort
          fun a b => decide (b.startedAt ≤ a.startedAt)).map record =
        (((t.rows.map record).filter (·.workflowId == workflow)).reverse.mergeSort
          fun a b => decide (b.startedAt ≤ a.startedAt)) := by
      rw [← hworkflow, ← List.map_reverse]
      refine List.map_mergeSort fun a ha b hb => ?_
      have hra := hrecord a (hmem a ha)
      have hrb := hrecord b (hmem b hb)
      rw [← hra.started, ← hrb.started]
      exact decide_eq_decide.mpr (Instant.columnText_le_iff hrb.startInColumn hra.startInColumn)
    refine ⟨_, hread _ fun row hrow => hmem row (List.mem_mergeSort.mp hrow), ?_, ?_⟩
    · rw [hsorted]
      exact (List.mergeSort_perm _ _).trans (List.reverse_perm _)
    · rw [hsorted]
      refine (pairwise_latestFirst _).imp fun {a b} hab => ?_
      rcases hab with hlt | ⟨heq, hsub⟩
      · exact .inl hlt
      · exact .inr ⟨heq, hsub.trans List.filter_sublist⟩
  · rw [← hfilter (fun row => !TableStore.isExpired before.columnText row) _ fun row hrow => by
      rw [(hrecord row hrow).isExpired hbefore]]
    exact hread _ fun row hrow => (List.mem_filter.mp hrow).1
  · rw [← hfilter (TableStore.isExpired before.columnText) _ fun row hrow => (hrecord row hrow).isExpired hbefore,
      List.length_map]
    rfl

/-- Whatever a table has been asked in the years 0 to 9999, it orders and compares its rows by time. -/
theorem chronological {calls : List StoreCall} (h : ∀ c ∈ calls, c.InColumn) :
    TellTime ∧ ∃ t records, ((Store.table {}).serve calls).store = .table t ∧ Chronological t records := by
  obtain ⟨t, ht, hcolumns⟩ := TableStore.InColumn.serve h
  obtain ⟨records, hrecords⟩ := hcolumns.exists_chronological
  exact ⟨tellTime, t, records, ht, hrecords⟩

/-! ## A run that ends within a leap second -/

namespace LeapSecond

/-- Three quarters of a second into the leap second at the end of 2005. -/
def within : Instant := ⟨1136073599, 1750000000, by omega, by omega⟩

/-- The first instant of 2006. -/
def after : Instant := Instant.epoch.addSeconds 1136073600

def first : Execution := .fresh "1" "w" 1 .null none within

def second : Execution := .fresh "2" "w" 1 .null none after

def ended : Execution := { first with status := .canceled, stoppedAt := some within }

def calls : List StoreCall :=
  [.create first, .create second, .update ended, .list "w", .prune within, .prune after]

theorem inColumn : ∀ c ∈ calls, c.InColumn := by
  have hwithin : within.InColumn := by decide +kernel
  have hafter : after.InColumn := by decide +kernel
  have hnone : ∀ t ∈ (none : Option Instant), t.InColumn := nofun
  have hended : ∀ t ∈ some within, t.InColumn := fun t ht => Option.some.inj ht ▸ hwithin
  intro c hc
  simp only [calls, List.mem_cons, List.not_mem_nil, or_false] at hc
  rcases hc with rfl | rfl | rfl | rfl | rfl | rfl
  · exact ⟨hwithin, hnone, nofun⟩
  · exact ⟨hafter, hnone, nofun⟩
  · exact ⟨hwithin, hended, nofun⟩
  · trivial
  · exact hwithin
  · exact hafter

end LeapSecond

/-- What stopped within the leap second did not stop before that instant, but before the next. -/
theorem chronological_leapSecond : (∀ c ∈ LeapSecond.calls, c.InColumn) ∧
    LeapSecond.within.columnText = "2005-12-31T23:59:60.750000000Z" ∧
    ((Store.table {}).serve LeapSecond.calls).answers.drop 4 = [.ok (.pruned 0), .ok (.pruned 1)] ∧
    TellTime ∧ ∃ t records, ((Store.table {}).serve LeapSecond.calls).store = .table t ∧ Chronological t records :=
  ⟨LeapSecond.inColumn, by decide +kernel, by decide +kernel, chronological LeapSecond.inColumn⟩

end Workflows
