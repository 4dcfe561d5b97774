/-
  Workflows.Proofs.Run.Documents — records of runs and what they announce read back from the
  documents they are written as.

  A record is written with what is absent left out, its node results by node and each error as an
  object of its own; an event is written with the member that tells which of the four it is. All
  of it is plain as it is written (`Execution.conform_toJson`), so reading takes from the document
  the record it was written from (`Execution.ofPlain_toJson`). What that needs is that the version
  is a word and that the instants are of years that can be told (`Execution.Representable`), as
  all of the years 0 to 9999 are (`Execution.representable_of_inColumn`), and as is every record
  that was read from a document (`Execution.representable_of_ofJson`). Events need nothing
  (`Event.ofJson_toJson`).
-/

import Workflows.Proofs.Definition.Roundtrip
import Workflows.Proofs.Store.Rows
import Workflows.Run.Event

namespace Workflows

open Shape

/-! ## Documents that lose nothing -/

/-- Values of a kind, of which those that `Holds` are written as documents that lose nothing. -/
structure Faithful {α : Type} (Holds : α → Prop) (write : α → Json) (read : Json → Except Mismatch α) : Prop where
  /-- A value reads back from its document. -/
  back : ∀ a, Holds a → read (write a) = .ok a
  /-- Writing what was read from a document of a value gives that document again. -/
  again : ∀ a, Holds a → (read (write a)).map write = .ok (write a)
  /-- No two values share a document. -/
  apart : ∀ a b, Holds a → Holds b → write a = write b → a = b
  /-- Whatever document a value was read from, it reads back from its own. -/
  settles : ∀ j a, read j = .ok a → Holds a ∧ read (write a) = .ok a

/-- It is enough that a value reads back, and that what was read is such a value. -/
theorem Faithful.of_back {α : Type} {Holds : α → Prop} {write : α → Json} {read : Json → Except Mismatch α}
    (hback : ∀ a, Holds a → read (write a) = .ok a) (hheld : ∀ j a, read j = .ok a → Holds a) :
    Faithful Holds write read where
  back := hback
  again a ha := by rw [hback a ha, Except.map]
  apart a b ha hb heq := by
    have hread := hback a ha
    rw [heq, hback b hb] at hread
    exact (Except.ok.inj hread).symm
  settles j a hread := ⟨hheld j a hread, hback a (hheld j a hread)⟩

/-! ## Statuses and errors -/

@[simp] theorem RunStatus.conform_text (s : RunStatus) :
    conform (.oneOf names) (.string s.text) = .ok (.string s.text) := by
  cases s <;> rfl

@[simp] theorem RunStatus.ofText?_text (s : RunStatus) : ofText? s.text = some s := by
  cases s <;> rfl

@[simp] theorem NodeStatus.conform_text (s : NodeStatus) :
    conform (.oneOf names) (.string s.text) = .ok (.string s.text) := by
  cases s <;> rfl

@[simp] theorem NodeStatus.ofText?_text (s : NodeStatus) : ofText? s.text = some s := by
  cases s <;> rfl

@[simp] theorem NodeError.conform_toJson (e : NodeError) : shape.conform e.toJson = .ok e.toJson := by
  obtain ⟨kind, message⟩ := e
  cases kind <;> rfl

@[simp] theorem NodeError.ofPlain_toJson (e : NodeError) : ofPlain e.toJson = e := by
  obtain ⟨kind, message⟩ := e
  cases kind <;> rfl

theorem NodeError.faithful : Faithful (fun _ => True) toJson ofJson :=
  .of_back (fun e _ => by rw [ofJson, conform_toJson, Except.map, ofPlain_toJson]) fun _ _ _ => trivial

/-- The error of a node is told from none at all by its being there. -/
@[simp] theorem NodeError.unlessNull?_getD (o : Option NodeError) :
    (((o.map toJson).getD .null).unlessNull?).map ofPlain = o := by
  cases o with
  | none => rfl
  | some e => exact congrArg some e.ofPlain_toJson

/-! ## The result of a node -/

namespace NodeResult

variable {r : NodeResult}

/-- The instants are of years that can be told. -/
structure Representable (r : NodeResult) : Prop where
  startedAt : ∀ t ∈ r.startedAt, t.inRange = true
  stoppedAt : ∀ t ∈ r.stoppedAt, t.inRange = true

theorem ofPlain_toJson (h : r.Representable) : ofPlain r.toJson = r := by
  have hstarted := Json.bind_parse_getD h.startedAt
  have hstopped := Json.bind_parse_getD h.stoppedAt
  simp [toJson, ofPlain, Json.member, Json.text?, Json.time?, hstarted, hstopped]

theorem conform_toJson (h : r.Representable) : shape.conform r.toJson = .ok r.toJson := by
  have hstarted := fun t ht => conform_nullable (conform_time (h.startedAt t ht))
  have hstopped := fun t ht => conform_nullable (conform_time (h.stoppedAt t ht))
  refine conform_record ?_ (by simp [field, fieldOpt, fieldDef])
  simpa [field, fieldOpt, fieldDef] using And.intro hstarted hstopped

theorem representable_ofPlain (j : Json) : (ofPlain j).Representable :=
  ⟨Json.inRange_of_time?, Json.inRange_of_time?⟩

theorem faithful : Faithful Representable toJson ofJson :=
  .of_back (fun r h => by rw [ofJson, conform_toJson h, Except.map, ofPlain_toJson h]) fun j r h => by
    obtain ⟨plain, -, rfl⟩ := exists_of_map_eq_ok h
    exact representable_ofPlain plain

end NodeResult

/-! ## The record of a run -/

namespace Execution

variable {e : Execution}

/-- What the program can hold: the version is a word of 32 bits and the instants are of years that can
be told. -/
structure Representable (e : Execution) : Prop where
  version : e.workflowVersion < pow2 32
  startedAt : e.startedAt.inRange = true
  stoppedAt : ∀ t ∈ e.stoppedAt, t.inRange = true
  nodes : ∀ p ∈ e.nodeResults, p.2.Representable

/-- The years 0 to 9999 can be told. -/
theorem representable_of_inColumn (hversion : e.workflowVersion < pow2 32) (h : e.InColumn) : e.Representable where
  version := hversion
  startedAt := Instant.inRange_of_inColumn h.started
  stoppedAt t ht := Instant.inRange_of_inColumn (h.stopped t ht)
  nodes p hp := ⟨fun t ht => Instant.inRange_of_inColumn ((h.nodes p hp).1 t ht),
    fun t ht => Instant.inRange_of_inColumn ((h.nodes p hp).2 t ht)⟩

theorem ofPlain_toJson (h : e.Representable) : ofPlain e.toJson = e := by
  have hstarted := Json.bind_parse h.startedAt
  have hstopped := Json.bind_parse_getD h.stoppedAt
  have hnodes := Keyed.mapValues_mapValues_eq_self fun p hp => NodeResult.ofPlain_toJson (h.nodes p hp)
  simp [toJson, ofPlain, Json.member, Json.natOf, Json.text?, Json.time?, hstarted, hstopped, hnodes]

theorem conform_toJson (h : e.Representable) : shape.conform e.toJson = .ok e.toJson := by
  have hnodes : conform (.dict NodeResult.shape) (.object (Keyed.mapValues NodeResult.toJson e.nodeResults)) =
      .ok (.object (Keyed.mapValues NodeResult.toJson e.nodeResults)) := by
    refine conform_dict fun m hm => ?_
    obtain ⟨p, hp, rfl⟩ := List.mem_map.mp hm
    exact NodeResult.conform_toJson (h.nodes p hp)
  have hstopped := fun t ht => conform_nullable (conform_time (h.stoppedAt t ht))
  refine conform_record ?_ (by simp [field, fieldOpt, fieldDef])
  simpa [field, fieldOpt, fieldDef, conform_u32 h.version, conform_time h.startedAt, hnodes] using hstopped

/-- A version is read as a word; an instant that cannot be taken from the document is the epoch. -/
theorem representable_of_ofJson {j : Json} (h : ofJson j = .ok e) : e.Representable := by
  obtain ⟨plain, hplain, rfl⟩ := exists_of_map_eq_ok h
  refine ⟨?_, ?_, Json.inRange_of_time?, fun p hp => ?_⟩
  · show ((plain.member "workflowVersion").natural?).getD 0 < pow2 32
    cases hn : (plain.member "workflowVersion").natural? with
    | none => decide
    | some n => exact lt_of_member_u32 hplain (by simp [field, fieldOpt, fieldDef]) hn
  · show ((plain.time? "startedAt").getD .epoch).inRange = true
    cases ht : plain.time? "startedAt" with
    | none => decide
    | some t => exact Json.inRange_of_time? t ht
  · obtain ⟨q, -, rfl⟩ := List.mem_map.mp hp
    exact NodeResult.representable_ofPlain _

theorem faithful : Faithful Representable toJson ofJson :=
  .of_back (fun e h => by rw [ofJson, conform_toJson h, Except.map, ofPlain_toJson h])
    fun _ _ => representable_of_ofJson

end Execution

/-! ## What a run announces -/

namespace Event

theorem ofJson_toJson (e : Event) : ofJson e.toJson = .ok e := by
  cases e with
  | runStarted => rfl
  | nodeStarted => rfl
  | nodeFinished id node status error => cases error <;> rfl
  | runFinished id status error => cases error <;> rfl

theorem faithful : Faithful (fun _ => True) toJson ofJson :=
  .of_back (fun e _ => ofJson_toJson e) fun _ _ _ => trivial

end Event

/-! ## Instants -/

/-- What the text of an instant tells: all of it, by as few digits as do. -/
structure Instant.Printed (t : Instant) : Prop where
  back : parse t.text = .ok t
  apart : ∀ u : Instant, u.inRange = true → u.text = t.text → u = t
  digits : ∃ ds, Tell t.fraction ds ∧
    t.text = String.ofList (t.dateTimeChars ++ (if ds.isEmpty then [] else '.' :: ds) ++ ['Z'])

theorem Instant.printed {t : Instant} (h : t.inRange = true) : t.Printed where
  back := parse_text h
  apart u hu heq := by
    have hread := parse_text hu
    rw [heq, parse_text h] at hread
    exact (Except.ok.inj hread).symm
  digits := by
    obtain ⟨ds, htell, hds⟩ := exists_tell (show t.fraction < 1000000000 from Nat.mod_lt _ (by decide))
    exact ⟨ds, htell, by rw [text, hds]⟩

/-! ## There and back -/

/-- Records and events are written as documents that lose nothing: a record that the program can hold,
so every record whose instants lie in the years 0 to 9999, and any event at all. So are the results
of nodes and their errors by themselves, and the texts of instants, of 0, 3, 6 or 9 digits after
the second. -/
theorem records_and_events_lose_nothing :
    Faithful Execution.Representable Execution.toJson Execution.ofJson ∧
      (∀ e : Execution, e.workflowVersion < pow2 32 → e.InColumn → e.Representable) ∧
      Faithful (fun _ : Event => True) Event.toJson Event.ofJson ∧
      Faithful NodeResult.Representable NodeResult.toJson NodeResult.ofJson ∧
      Faithful (fun _ : NodeError => True) NodeError.toJson NodeError.ofJson ∧
      ∀ t : Instant, t.inRange = true → t.Printed :=
  ⟨Execution.faithful, fun _ => Execution.representable_of_inColumn, Event.faithful, NodeResult.faithful,
    NodeError.faithful, fun _ => Instant.printed⟩

/-- A quarter into the leap second in the middle of 2015. -/
def Instant.leapSecond : Instant := ⟨1435708799, 1250000000, by decide, by decide⟩

/-- The first nanosecond of the year 0. -/
def Instant.firstNano : Instant := ⟨-62167219200, 1, by decide, by decide⟩

/-- The last microsecond of the year 9999. -/
def Instant.lastMicro : Instant := ⟨253402300799, 999999000, by decide, by decide⟩

/-- A record with nodes of every status and errors of every kind. -/
def Execution.nightly : Execution :=
  { id := "run", workflowId := "nightly", workflowVersion := 4294967295, status := .error, startedAt := .firstNano,
    stoppedAt := some .lastMicro, data := .object [("fetch", .object [("main", .array [.null, .integer (-7)])])],
    error := some "late", triggerData := .bool false,
    nodeResults := [("abort", { nodeId := "abort", status := .error, error := some .canceled }),
      ("fetch", { nodeId := "fetch", status := .success, output := .string "", startedAt := some .leapSecond }),
      ("mail", { nodeId := "mail", status := .error, error := some (.timedOut 1500), stoppedAt := some .epoch }),
      ("parse", { nodeId := "parse", status := .error, error := some (.failed "") }),
      ("read", { nodeId := "read", status := .error, error := some (.invalidInput "no input") }),
      ("rest", { nodeId := "rest", status := .skipped }), ("sort", { nodeId := "sort", status := .running }),
      ("wait", .waiting "wait")] }

/-- An empty error is told from none, in the record of a run as in an event. -/
theorem nightly_loses_nothing :
    Execution.nightly.InColumn ∧ Execution.ofJson Execution.nightly.toJson = .ok .nightly ∧
      { Execution.nightly with error := some "" }.toJson ≠ { Execution.nightly with error := none }.toJson ∧
      Event.ofJson (Event.ofEnded .nightly).toJson = .ok (.runFinished "run" "error" (some "late")) ∧
      (Event.runFinished "run" "error" (some "")).toJson ≠ (Event.runFinished "run" "error" none).toJson ∧
      NodeError.ofJson (NodeError.timedOut 1500).toJson = .ok (.timedOut 1500) ∧
      Instant.leapSecond.text = "2015-06-30T23:59:60.250Z" ∧
      Instant.parse "2015-06-30T23:59:60.250Z" = .ok .leapSecond ∧
      Instant.firstNano.text = "0000-01-01T00:00:00.000000001Z" ∧
      Instant.lastMicro.text = "9999-12-31T23:59:59.999999Z" := by
  obtain ⟨hrecords, hyears, hevents, -, herrors, hinstants⟩ := records_and_events_lose_nothing
  have hnodes : ∀ p ∈ Execution.nightly.nodeResults,
      (∀ t ∈ p.2.startedAt, t.InColumn) ∧ ∀ t ∈ p.2.stoppedAt, t.InColumn := by decide
  have hcolumn : Execution.nightly.InColumn := ⟨by decide, by decide, hnodes⟩
  have hnightly (error : Option String) : { Execution.nightly with error }.Representable :=
    hyears _ (show 4294967295 < pow2 32 by decide) ⟨hcolumn.1, hcolumn.2, hcolumn.3⟩
  have hleap : Instant.leapSecond.text = "2015-06-30T23:59:60.250Z" := by decide +kernel
  refine ⟨hcolumn, hrecords.back _ (hnightly _), fun heq => ?_, hevents.back _ trivial, fun heq => ?_,
    herrors.back _ trivial, hleap, ?_, by decide +kernel, by decide +kernel⟩
  · have hsame := congrArg Execution.error (hrecords.apart _ _ (hnightly _) (hnightly _) heq)
    cases hsame
  · cases hevents.apart _ _ trivial trivial heq
  · rw [← hleap]
    exact (hinstants Instant.leapSecond (by decide)).back

end Workflows
