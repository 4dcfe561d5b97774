/-
  Workflows.Proofs.Definition.Roundtrip — a definition reads back from the document it is
  written as.

  Writing leaves out what is absent; reading takes `null`, an absent member and a default for
  one another, and tells the two forms of ports apart by their shape alone. The two meet in
  the middle: a written document is plain already, so reading leaves it as it stands
  (`Definition.conform_toJson`), and the record taken from it is the definition it was written
  from (`Definition.ofPlain_toJson`). Both need only that the version is a word and the
  timestamps are of years that can be told, and whatever is read from a document is so
  (`Definition.representable_of_ofJson`). Hence rewriting a document a second time changes
  nothing (`Definition.reads_back`). Coordinates are carried as they are.
-/

import Workflows.Definition.Codec
import Workflows.Proofs.Shape.Plain
import Workflows.Proofs.Time.Printed

namespace Workflows

open Shape

/-! ## Values taken from a plain document -/

namespace Json

@[simp] theorem textOf_string (s : String) : (string s).textOf = s := rfl

@[simp] theorem itemsOf_array (items : List Json) : (array items).itemsOf = items := rfl

@[simp] theorem membersOf_object (members : Keyed Json) : (object members).membersOf = members := rfl

@[simp] theorem natural?_ofNat (n : Nat) : (ofNat n).natural? = some n := by simp [ofNat, natural?]

@[simp] theorem string?_getD (o : Option String) : ((o.map string).getD .null).string? = o := by
  cases o <;> rfl

@[simp] theorem string?_ofOption (o : Option String) : (ofOption string o).string? = o := by
  cases o <;> rfl

@[simp] theorem map_textOf_string (names : List String) : (names.map string).map textOf = names := by
  simp [Function.comp_def]

/-- Tags are left out when there are none. -/
theorem map_textOf_tags (tags : List String) :
    ((if tags.isEmpty then none else some (ofStrings tags)).getD .null).itemsOf.map textOf = tags := by
  cases tags with
  | nil => rfl
  | cons tag rest => exact map_textOf_string (tag :: rest)

theorem bind_parse {t : Instant} (h : t.inRange = true) :
    ((ofInstant t).string?.bind fun s => (Instant.parse s).toOption) = some t := by
  simp only [ofInstant, string?, Option.bind_some, Instant.parse_text h, Except.toOption]

theorem bind_parse_getD {o : Option Instant} (h : ∀ t ∈ o, t.inRange = true) :
    (((o.map ofInstant).getD .null).string?.bind fun s => (Instant.parse s).toOption) = o := by
  cases o with
  | none => rfl
  | some t => exact bind_parse (h t rfl)

theorem inRange_of_time? {j : Json} {key : String} : ∀ t ∈ j.time? key, t.inRange = true := by
  intro t ht
  obtain ⟨s, -, hs⟩ := Option.bind_eq_some_iff.mp ht
  cases hparse : Instant.parse s with
  | error e =>
    rw [hparse] at hs
    cases hs
  | ok a =>
    rw [hparse] at hs
    cases hs
    exact Instant.inRange_of_parse hparse

end Json

@[simp] theorem PortDecl.ofPlain?_getD (o : Option PortDecl) :
    PortDecl.ofPlain? ((o.map PortDecl.toJson).getD .null) = o := by
  match o with
  | none => rfl
  | some (.described members) => rfl
  | some (.names ports) => exact congrArg (fun names => some (PortDecl.names names)) (Json.map_textOf_string ports)

/-! ## Records are taken from the documents they are written as -/

theorem Position.ofPlain_toJson (p : Position) : ofPlain p.toJson = p := rfl

theorem Node.ofPlain_toJson (n : Node) : ofPlain n.toJson = n := by
  simp [ofPlain, toJson, Json.member, Json.text?, Position.ofPlain_toJson]

theorem Connection.ofPlain_toJson (c : Connection) : ofPlain c.toJson = c := by
  simp [ofPlain, toJson, Json.member, Json.text?]

theorem SavePolicy.ofPlain_text (p : SavePolicy) : ofPlain (.string p.text) = p := by
  cases p <;> rfl

theorem Settings.toJson_eq_record (s : Settings) :
    s.toJson = .record [("errorWorkflow", some (.ofOption .string s.errorWorkflow)),
      ("saveDataErrorExecution", some (.string s.saveOnError.text)),
      ("saveDataSuccessExecution", some (.string s.saveOnSuccess.text)), ("timezone", some (.string s.timezone))] := rfl

theorem Settings.ofPlain_toJson (s : Settings) : ofPlain s.toJson = s := by
  simp [toJson_eq_record, ofPlain, Json.member, Json.text?, SavePolicy.ofPlain_text]
  rfl

/-- What the program can hold: the version is a word of 32 bits and the timestamps are of years that
can be told, as those from 0 to 9999 are (`Instant.inRange_of_inColumn`). -/
structure Definition.Representable (d : Definition) : Prop where
  version : d.version < pow2 32
  createdAt : ∀ t ∈ d.createdAt, t.inRange = true
  updatedAt : ∀ t ∈ d.updatedAt, t.inRange = true

theorem Definition.ofPlain_toJson {d : Definition} (h : d.Representable) : ofPlain d.toJson = d := by
  have hnodes : (d.nodes.map Node.toJson).map Node.ofPlain = d.nodes := by
    simp [Function.comp_def, Node.ofPlain_toJson]
  have hconnections : (d.connections.map Connection.toJson).map Connection.ofPlain = d.connections := by
    simp [Function.comp_def, Connection.ofPlain_toJson]
  have hcreated := Json.bind_parse_getD h.createdAt
  have hupdated := Json.bind_parse_getD h.updatedAt
  simp [-List.map_map, -List.isEmpty_iff, toJson, ofPlain, Json.member, Json.text?, Json.time?, hcreated, hupdated,
    Settings.ofPlain_toJson, hnodes, hconnections, Json.map_textOf_tags]

/-! ## Written records are read as they stand -/

@[simp] theorem conform_ofOption (o : Option String) :
    conform (.nullable .text) (.ofOption .string o) = .ok (.ofOption .string o) := by
  cases o with
  | none => rfl
  | some s => exact conform_nullable (conform_text s)

theorem conform_time {t : Instant} (h : t.inRange = true) : conform .time (.ofInstant t) = .ok (.ofInstant t) := by
  rw [Json.ofInstant, conform, checkTime, Instant.parse_text h]

theorem conform_u32 {n : Nat} (h : n < pow2 32) : conform .u32 (.ofNat n) = .ok (.ofNat n) := by
  rw [u32, Json.ofNat, conform, checkNatural, if_pos]
  omega

@[simp] theorem Position.conform_toJson (p : Position) : shape.conform p.toJson = .ok p.toJson := rfl

@[simp] theorem PortDecl.conform_toJson (p : PortDecl) : conform (.names "PortDecl") p.toJson = .ok p.toJson := by
  cases p with
  | described => rfl
  | names ports =>
    have hall : (ports.map Json.string).all (fun x => x.string?.isSome) = true := by simp [Json.string?]
    rw [toJson, Json.ofStrings, conform, checkNames, if_pos hall]

@[simp] theorem SavePolicy.conform_text (p : SavePolicy) : shape.conform (.string p.text) = .ok (.string p.text) := by
  cases p <;> rfl

-- of each record: its members stand by the fields of their names, and none that is required is left out

@[simp] theorem Node.conform_toJson (n : Node) : shape.conform n.toJson = .ok n.toJson := by
  refine conform_record ?_ (by simp [field, fieldOpt, fieldDef])
  simp [field, fieldOpt, fieldDef]

@[simp] theorem Connection.conform_toJson (c : Connection) : shape.conform c.toJson = .ok c.toJson := by
  refine conform_record ?_ (by simp [field, fieldOpt])
  simp [field, fieldOpt]

@[simp] theorem Settings.conform_toJson (s : Settings) : shape.conform s.toJson = .ok s.toJson := by
  rw [toJson_eq_record]
  refine conform_record ?_ (by simp [fieldOpt, fieldDef])
  simp [fieldOpt, fieldDef]

theorem Definition.conform_toJson {d : Definition} (h : d.Representable) : shape.conform d.toJson = .ok d.toJson := by
  refine conform_record ?_ (by simp [field, fieldOpt, fieldDef])
  simp [field, fieldOpt, fieldDef, conform_u32 h.version, Json.ofStrings]
  exact ⟨fun t ht => conform_nullable (conform_time (h.createdAt t ht)),
    fun t ht => conform_nullable (conform_time (h.updatedAt t ht))⟩

/-! ## What is read can be written -/

theorem lt_of_conform_u32 {j x : Json} {n : Nat} (h : conform .u32 j = .ok x) (hx : x.natural? = some n) :
    n < pow2 32 := by
  cases j with
  | integer m =>
    rw [u32, conform, checkNatural] at h
    split at h
    next hbounds =>
      cases h
      rw [Json.natural?, if_pos hbounds.1] at hx
      have htop : m ≤ ((pow2 32 - 1 : Nat) : Int) := hbounds.2
      have hn : m.toNat = n := Option.some.inj hx
      have hword : pow2 32 = 4294967296 := by decide
      rw [hword] at htop ⊢
      omega
    next => cases h
  | _ =>
    rw [u32, conform] at h
    · cases h
    all_goals simp

/-- A word that was read as the member of a record. -/
theorem lt_of_member_u32 {fields : List (String × Presence × Shape)} {label key : String} {j plain : Json} {n : Nat}
    (h : conform (.record label fields) j = .ok plain)
    (hfields : ∀ presence shape, (key, presence, shape) ∈ fields → shape = .u32)
    (hn : (plain.member key).natural? = some n) : n < pow2 32 := by
  cases hx : plain.member? key with
  | none =>
    rw [Json.member, hx] at hn
    cases hn
  | some x =>
    obtain ⟨presence, shape, value, hmem, hvalue⟩ := member_of_conform_record h hx
    rw [hfields presence shape hmem] at hvalue
    rw [Json.member, hx] at hn
    exact lt_of_conform_u32 hvalue hn

/-- A version that is left out is 1, and any other has been read as a word. -/
theorem Definition.version_lt {j plain : Json} (h : shape.conform j = .ok plain) :
    (ofPlain plain).version < pow2 32 := by
  show ((plain.member "version").natural?).getD 1 < pow2 32
  cases hn : (plain.member "version").natural? with
  | none => decide
  | some n => exact lt_of_member_u32 h (by simp [field, fieldOpt, fieldDef]) hn

theorem Definition.representable_of_ofJson {j : Json} {d : Definition} (h : ofJson j = .ok d) : d.Representable := by
  obtain ⟨plain, hplain, rfl⟩ := exists_of_map_eq_ok h
  exact ⟨version_lt hplain, Json.inRange_of_time?, Json.inRange_of_time?⟩

/-! ## There and back -/

/-- Reading a document and writing what was read. -/
def Definition.recode (j : Json) : Except Mismatch Json := (ofJson j).map toJson

/-- A definition reads back from the document it is written as. So whatever document a definition
was read from, writing it and reading that again gives the same definition, and a document that
was rewritten once is left as it is. -/
theorem Definition.reads_back :
    (∀ d : Definition, d.Representable → ofJson d.toJson = .ok d) ∧
      (∀ (j : Json) (d : Definition), ofJson j = .ok d → ofJson d.toJson = .ok d) ∧
      ∀ j j' : Json, recode j = .ok j' → recode j' = .ok j' := by
  have hback (d : Definition) (h : d.Representable) : ofJson d.toJson = .ok d := by
    rw [ofJson, conform_toJson h, Except.map, ofPlain_toJson h]
  refine ⟨hback, fun j d h => hback d (representable_of_ofJson h), fun j j' h => ?_⟩
  cases hread : ofJson j with
  | error e =>
    rw [recode, hread] at h
    cases h
  | ok d =>
    rw [recode, hread] at h
    cases h
    rw [recode, hback d (representable_of_ofJson hread), Except.map]

/-- Both forms of ports, a leap second, and members left out here and there. -/
def Definition.invoice : Definition :=
  { id := some "invoice", version := 4294967295, name := "Send invoice",
    nodes := [{ id := "due", type := "trigger", outputs := some (.names ["main"]) },
      { id := "send", type := "mail", name := some "Mail", data := .object [("to", .array [.null, .integer (-7)])],
        inputs := some (.described [("main", .object [])]) }],
    connections := [{ id := "c", source := "due", target := "send", targetHandle := some "main" }],
    vars := [("rate", .bool true)], settings := { errorWorkflow := some "alert", saveOnSuccess := .none },
    tags := ["mail"], createdAt := some ⟨1483228799, 1500000000, by decide, by decide⟩ }

/-- As a person writes one: a connection as a list, an offset, a member nobody knows, and `null`
where there is no description. -/
def Definition.draft : Json :=
  .object [("connections", .array [.array [.string "c", .string "due", .string "send", .null, .string "main"]]),
    ("createdAt", .string "2024-02-29T23:30:00.250+01:00"), ("description", .null), ("name", .string "Send invoice"),
    ("note", .integer 1), ("settings", .object [("timezone", .string "Europe/Paris")])]

/-- The draft is read, an hour earlier by the clock of Greenwich, and is another document when it is
rewritten; that one stays. -/
theorem Definition.invoice_reads_back :
    invoice.Representable ∧ ofJson invoice.toJson = .ok invoice ∧
      (∃ d, ofJson draft = .ok d ∧ d.createdAt = some ⟨1709245800, 250000000, by decide, by decide⟩ ∧
        ofJson d.toJson = .ok d) ∧
      ∃ j, recode draft = .ok j ∧ j ≠ draft ∧ recode j = .ok j := by
  have hinvoice : invoice.Representable := ⟨by decide, by decide, by decide⟩
  obtain ⟨d, hread, hcreated⟩ : ∃ d, ofJson draft = .ok d ∧
      d.createdAt = some ⟨1709245800, 250000000, by decide, by decide⟩ := ⟨_, rfl, by decide +kernel⟩
  have hrecode : recode draft = .ok d.toJson := by rw [recode, hread, Except.map]
  have hother : d.toJson ≠ draft := by
    intro heq
    have hnote : d.toJson.member? "note" = none := by simp [toJson]
    rw [heq, show draft.member? "note" = some (.integer 1) from rfl] at hnote
    cases hnote
  exact ⟨hinvoice, reads_back.1 _ hinvoice, ⟨d, hread, hcreated, reads_back.2.1 _ _ hread⟩, _, hrecode, hother,
    reads_back.2.2 _ _ hrecode⟩

end Workflows
