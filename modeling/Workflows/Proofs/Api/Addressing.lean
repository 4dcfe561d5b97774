/-
  Workflows.Proofs.Api.Addressing — which workflows can be reached through their paths.

  A workflow is asked for by its id, percent-encoded, as a segment of a path. Whatever the id
  is, its segment holds no slash and reads back (`PathEscape.percentDecode?_segmentOf`), and it
  is a word of the routes only if the id is that word (`PathEscape.segmentOf_eq_iff`). Since a
  route with the word stands before one that captures, a request is for the workflow exactly
  if the id is not reserved in the place it has there (`addressable_unless_reserved`). Three
  words are reserved: `import` and `node-types` where the id ends the path, `executions` where
  something follows it. Creation takes them all the same, so that the law does not hold of
  every id (`Shelf.not_every_id_is_addressable`).
-/

import Mathlib.Data.List.TakeWhile
import Workflows.Api.Serve
import Workflows.NodeType.Builtin
import Workflows.Proofs.Definition.Roundtrip
import Workflows.Proofs.Web.Percent

namespace Workflows.Api

open Web (percentEncode percentDecode?)

/-! ## Paths -/

/-- A path of segments. -/
def pathOf (parts : List String) : String := String.ofList (parts.flatMap fun s => '/' :: s.toList)

/-- A segment is written as it stands. -/
def IsSegment (s : String) : Prop := ∀ c ∈ s.toList, c ≠ '/' ∧ c ≠ '?' ∧ c ≠ '#'

instance (s : String) : Decidable (IsSegment s) :=
  List.decidableBAll (fun c => c ≠ '/' ∧ c ≠ '?' ∧ c ≠ '#') s.toList

theorem splitSlashes_append {part rest : List Char} {parts : List (List Char)} (h : ∀ c ∈ part, c ≠ '/')
    (hrest : splitSlashes rest = [] :: parts) : splitSlashes (part ++ rest) = part :: parts := by
  induction part with
  | nil => exact hrest
  | cons c cs ih =>
    have hc : (c == '/') = false := beq_eq_false_iff_ne.mpr (h c List.mem_cons_self)
    rw [List.cons_append, splitSlashes, ih fun d hd => h d (List.mem_cons_of_mem _ hd), hc]

theorem splitSlashes_flatMap (parts : List (List Char)) (h : ∀ part ∈ parts, ∀ c ∈ part, c ≠ '/') :
    splitSlashes (parts.flatMap fun part => '/' :: part) = [] :: parts := by
  induction parts with
  | nil => rfl
  | cons part parts ih =>
    have hrest := ih fun p hp => h p (List.mem_cons_of_mem _ hp)
    rw [List.flatMap_cons, List.cons_append, splitSlashes, splitSlashes_append (h part List.mem_cons_self) hrest]
    rfl

/-- A path is taken apart into the segments it was made of. -/
theorem segments_pathOf {parts : List String} (h : ∀ s ∈ parts, IsSegment s) : segments (pathOf parts) = parts := by
  have hpath : ∀ c ∈ parts.flatMap (fun s => '/' :: s.toList), (c ≠ '?' && c ≠ '#') = true := by
    intro c hc
    obtain ⟨s, hs, hc⟩ := List.mem_flatMap.mp hc
    rcases List.mem_cons.mp hc with rfl | hc
    · decide
    · simp [h s hs c hc]
  have hsplit : splitSlashes (parts.flatMap fun s => '/' :: s.toList) = [] :: parts.map String.toList := by
    rw [← splitSlashes_flatMap (parts.map String.toList), List.flatMap_map]
    intro part hpart c hc
    obtain ⟨s, hs, rfl⟩ := List.mem_map.mp hpart
    exact (h s hs c hc).1
  rw [segments, pathOf, String.toList_ofList, List.takeWhile_eq_self_iff.mpr hpath, hsplit]
  simp

/-! ## Ids in paths -/

/-- The characters that need no escape anywhere in an address. -/
def isUnreserved (c : Char) : Bool :=
  ('a' ≤ c && c ≤ 'z') || ('A' ≤ c && c ≤ 'Z') || ('0' ≤ c && c ≤ '9') || "-._~".toList.contains c

/-- The characters that may stand in a segment of a path. -/
def isPathChar (c : Char) : Bool := isUnreserved c || "!$&\x27()*+,;=:@".toList.contains c

/-- How a client writes an id into a path: it keeps what needs no escape, and escapes what may not
stand there. -/
structure PathEscape (keep : Char → Bool) : Prop where
  unreserved : ∀ c, isUnreserved c = true → keep c = true
  pathChar : ∀ c, keep c = true → isPathChar c = true

section

variable {keep : Char → Bool}

theorem PathEscape.not_keep (h : PathEscape keep) {c : Char} (hc : isPathChar c = false) : keep c = false := by
  cases hkeep : keep c with
  | false => rfl
  | true => rw [h.pathChar c hkeep] at hc; cases hc

/-- The segment of an id. -/
def segmentOf (keep : Char → Bool) (id : String) : String := String.ofList (percentEncode keep id.toList)

theorem PathEscape.isSegment (h : PathEscape keep) (id : String) : IsSegment (segmentOf keep id) := by
  have hnot {mark : Char} (hmark : isPathChar mark = false) (hpercent : mark ≠ '%')
      (hdigit : Web.hexValue? mark = none) : mark ∉ (segmentOf keep id).toList := by
    rw [segmentOf, String.toList_ofList]
    exact Web.not_mem_percentEncode (h.not_keep hmark) hpercent hdigit _
  intro c hc
  refine ⟨?_, ?_, ?_⟩ <;> rintro rfl
  · exact hnot (by decide) (by decide) (by decide) hc
  · exact hnot (by decide) (by decide) (by decide) hc
  · exact hnot (by decide) (by decide) (by decide) hc

theorem PathEscape.percentDecode?_segmentOf (h : PathEscape keep) (id : String) :
    percentDecode? (segmentOf keep id) = some id :=
  Web.percentDecode?_percentEncode (h.not_keep (by decide)) id

theorem PathEscape.segmentOf_of_unreserved (h : PathEscape keep) {word : String}
    (hword : word.toList.all (fun c => c.toNat < 128 && isUnreserved c) = true) : segmentOf keep word = word := by
  have hkept : ∀ c ∈ word.toList, c.toNat < 128 ∧ keep c = true := by
    intro c hc
    have := List.all_eq_true.mp hword c hc
    rw [Bool.and_eq_true, decide_eq_true_eq] at this
    exact ⟨this.1, h.unreserved c this.2⟩
  rw [segmentOf, Web.percentEncode_eq_self hkept, String.ofList_toList]

/-- The segment of an id is a word that needs no escape if and only if the id is. -/
theorem PathEscape.segmentOf_eq_iff (h : PathEscape keep) (id word : String)
    (hword : word.toList.all (fun c => c.toNat < 128 && isUnreserved c) = true) :
    segmentOf keep id = word ↔ id = word := by
  have hself := h.segmentOf_of_unreserved hword
  refine ⟨fun heq => ?_, fun heq => heq ▸ hself⟩
  exact Web.percentEncode_inj (h.not_keep (by decide)) (String.ofList_injective (heq.trans hself.symm))

end

/-! ## Operations on one workflow -/

/-- What can be done with one workflow through its path. -/
inductive Operation where
  | read | replace | remove | exported | validate | execute | runs
deriving DecidableEq, Repr

namespace Operation

def method : Operation → Method
  | read | exported | runs => .get
  | validate | execute => .post
  | replace => .put
  | remove => .delete

def suffix : Operation → List String
  | read | replace | remove => []
  | exported => ["export"]
  | validate => ["validate"]
  | execute => ["execute"]
  | runs => ["executions"]

def action : Operation → Action
  | read => .getWorkflow
  | replace => .updateWorkflow
  | remove => .deleteWorkflow
  | exported => .exportWorkflow
  | validate => .validateWorkflow
  | execute => .executeWorkflow
  | runs => .listExecutions

/-- The path of an operation on a workflow. -/
def target (op : Operation) (keep : Char → Bool) (id : String) : String :=
  pathOf (["api", "v1", "workflows", segmentOf keep id] ++ op.suffix)

/-- The ids that are words of the routes where the operation has the id. -/
def reserved : Operation → List String
  | read | replace | remove => ["import", "node-types"]
  | exported | validate | execute | runs => ["executions"]

/-- What a request for the operation on a reserved id is taken for. -/
def mistaken (id : String) : Operation → Resolution
  | read => if id = "node-types" then .found .listNodeTypes [] else .wrongMethod
  | replace | remove | validate | execute => .wrongMethod
  | exported => .found .getExecution ["export"]
  | runs => .found .getExecution ["executions"]

end Operation

variable {keep : Char → Bool}

/-- The route that has an operation. -/
def Operation.route : Operation → Route
  | read | replace | remove =>
    .workflows [.capture] [(.get, .getWorkflow), (.put, .updateWorkflow), (.delete, .deleteWorkflow)]
  | exported => .workflows [.capture, .literal "export"] [(.get, .exportWorkflow)]
  | validate => .workflows [.capture, .literal "validate"] [(.post, .validateWorkflow)]
  | execute => .workflows [.capture, .literal "execute"] [(.post, .executeWorkflow)]
  | runs => .workflows [.capture, .literal "executions"] [(.get, .listExecutions)]

theorem Operation.action?_route (op : Operation) : op.route.action? op.method = some op.action := by
  cases op <;> rfl

/-- A segment that no other route has as a word in its place is captured. -/
theorem Operation.find?_captured (op : Operation) {e : String} (he : e.isEmpty = false) (hfree : e ∉ op.reserved) :
    Route.find? (["api", "v1", "workflows", e] ++ op.suffix) = some (op.route, [e]) := by
  have hne (word : String) (hword : word ∈ op.reserved) : ¬ word = e := fun heq => hfree (heq ▸ hword)
  cases op with
  | read | replace | remove =>
    simp [Route.find?, Route.all, Route.captures?, Route.workflows, Route.tools, Route.ofLiterals, suffix, route,
      hne "import" (by decide), hne "node-types" (by decide), he]
  | exported | validate | execute | runs =>
    simp [Route.find?, Route.all, Route.captures?, Route.workflows, Route.tools, Route.ofLiterals, suffix, route,
      hne "executions" (by decide), he]

theorem Operation.segments_target (op : Operation) (h : PathEscape keep) (id : String) :
    segments (op.target keep id) = ["api", "v1", "workflows", segmentOf keep id] ++ op.suffix := by
  have hsuffix : ∀ s ∈ op.suffix, IsSegment s := by cases op <;> decide
  refine segments_pathOf fun s hs => ?_
  simp only [List.cons_append, List.nil_append, List.mem_cons] at hs
  rcases hs with rfl | rfl | rfl | rfl | hs
  · decide
  · decide
  · decide
  · exact h.isSegment id
  · exact hsuffix s hs

/-- A request for an operation on an id is taken for what it is, if the id is no word of a route. -/
theorem resolve_target (h : PathEscape keep) {id : String} (hid : id ≠ "") (op : Operation) :
    resolve op.method (op.target keep id) =
      if id ∈ op.reserved then op.mistaken id else .found op.action [id] := by
  have hsegments := op.segments_target h id
  have hwords : ∀ word ∈ op.reserved, word.toList.all (fun c => c.toNat < 128 && isUnreserved c) = true := by
    cases op <;> decide
  split
  next hreserved =>
    have hself : segmentOf keep id = id := h.segmentOf_of_unreserved (hwords id hreserved)
    rw [resolve, hsegments, hself]
    cases op with
    | read | replace | remove =>
      simp only [Operation.reserved, List.mem_cons, List.not_mem_nil, or_false] at hreserved
      rcases hreserved with rfl | rfl <;> rfl
    | exported | validate | execute | runs =>
      obtain rfl := List.mem_singleton.mp hreserved
      rfl
  next hfree =>
    have hword : segmentOf keep id ∉ op.reserved := fun hmem =>
      hfree ((h.segmentOf_eq_iff id _ (hwords _ hmem)).mp rfl ▸ hmem)
    have hempty : (segmentOf keep id).isEmpty = false := by
      rw [String.isEmpty_eq_false_iff]
      exact fun hnil => hid ((h.segmentOf_eq_iff id "" rfl).mp hnil)
    simp only [resolve, hsegments, op.find?_captured hempty hword, op.action?_route, List.mapM_cons,
      h.percentDecode?_segmentOf id]
    rfl

/-! ## What an operation does -/

/-- What is stored when the entry of a workflow is replaced: the next version, under its own id and
time of creation. -/
def successor (id : String) (old : Definition) (now : Instant) (new : Definition) : Definition :=
  { new with id := some id, version := old.version + 1, createdAt := old.createdAt, updatedAt := some now }

/-- The answer to an operation on a workflow of the catalog, and what it leaves behind. -/
def Operation.outcome (s : Schedule) (id : String) (d : Definition) (body : String) : Operation → Answer × Schedule
  | read | exported => (.document 200 d.toJson, s)
  | replace =>
    match readDefinition body with
    | .error f => (.ofFailure f, s)
    | .ok new =>
      let d' := successor id d s.engine.clock new
      (.document 200 d'.toJson, { s with engine := { s.engine with
        clock := s.engine.clock.tick, catalog := ⟨Keyed.insert s.engine.catalog.entries id d'⟩ } })
  | remove =>
    (.empty 204, { s with engine := { s.engine with catalog := ⟨Keyed.erase s.engine.catalog.entries id⟩ } })
  | validate => (.document 200 (d.check s.engine.registry).toJson, s)
  | execute =>
    match readStart body with
    | .error f => (.ofFailure f, s)
    | .ok (trigger, key) =>
      match s.startDefinition d trigger key with
      | (.ok run, s) => (.ofResult 202 (record s run), s)
      | (.error f, s) => (.ofFailure f, s)
  | runs => (.ofResult 200 (listExecutions s id), s)

theorem start_eq_startDefinition {s : Schedule} {id : String} {d : Definition} (hd : s.engine.catalog.get id = .ok d)
    (trigger : Json) (key : Option String) : s.start id trigger key = s.startDefinition d trigger key := by
  have hstep : (StartCall.lookUp id trigger key).step? s.engine = some (.takeTypes ⟨d, trigger, key⟩, s.engine) := by
    rw [StartCall.step?, hd]
  have hbegin : s.engine.start id trigger key = s.engine.startDefinition d trigger key := by
    simp only [Engine.start, Engine.startDefinition, Engine.begin, StartCall.remaining, StartCall.advance, hstep]
  rw [Schedule.start, Schedule.startDefinition, hbegin]

theorem Operation.perform_action {s : Schedule} {id : String} {d : Definition} (hd : s.engine.catalog.get id = .ok d)
    (op : Operation) (body : String) : perform s op.action id body = op.outcome s id d body := by
  cases op with
  | read => simp only [action, perform, outcome, hd, Except.map, Answer.ofResult]
  | exported => simp only [action, perform, outcome, Catalog.exportDocument, hd, Except.map, Answer.ofResult]
  | replace =>
    simp only [action, perform, outcome, updateWorkflow]
    cases readDefinition body with
    | error f => rfl
    | ok new => simp only [bind, Except.bind, Engine.updateWorkflow, Engine.readClock, Catalog.update, hd, pure, Except.pure, afterChange, successor]
  | remove => simp only [action, perform, outcome, deleteWorkflow, Engine.deleteWorkflow, Catalog.delete, bind, Except.bind, hd, pure, Except.pure]
  | validate => simp only [action, perform, outcome, validateWorkflow, hd, Except.map, Answer.ofResult]
  | execute =>
    cases hread : readStart body with
    | error f => simp only [action, perform, outcome, executeWorkflow, hread]
    | ok start =>
      obtain ⟨trigger, key⟩ := start
      obtain ⟨result, s', hstart⟩ : ∃ result s', s.startDefinition d trigger key = (result, s') := ⟨_, _, rfl⟩
      cases result <;> simp only [action, perform, outcome, executeWorkflow, start_eq_startDefinition hd, hread, hstart]
  | runs => rfl

/-! ## Ids that are accepted -/

/-- Creation or import over the API has answered with the id. -/
inductive Accepted (id : String) : Prop where
  | created (s : Schedule) (body : String) {j : Json} (hnames : ∀ n, s.engine.ids.workflow n ≠ "")
      (h : (serve s ⟨.post, "/api/v1/workflows", body⟩).1 = .document 201 j) (hid : j.text? "id" = some id)
  | imported (s : Schedule) (body : String) {j : Json} (hnames : ∀ n, s.engine.ids.workflow n ≠ "")
      (h : (serve s ⟨.post, "/api/v1/workflows/import", body⟩).1 = .document 201 j) (hid : j.text? "id" = some id)

theorem statusOf_ne_created (f : Failure) : statusOf f ≠ 201 := by
  cases f <;> simp [statusOf]

theorem id_of_createWorkflow {e e' : Engine} {d d' : Definition} (hnames : ∀ n, e.ids.workflow n ≠ "")
    (h : e.createWorkflow d = .ok (e', d')) : ∃ id, d'.id = some id ∧ id ≠ "" := by
  obtain ⟨⟨catalog, made⟩, hcatalog, h⟩ := exists_of_bind_eq_ok h
  cases h
  rw [Catalog.create] at hcatalog
  split at hcatalog
  · cases hcatalog
  · cases hcatalog
    refine ⟨_, rfl, ?_⟩
    cases hrequested : Catalog.requestedId? d with
    | none => exact hnames _
    | some id =>
      obtain ⟨-, hblank⟩ := Option.filter_eq_some_iff.mp hrequested
      rintro rfl
      simp [Text.isBlank] at hblank

/-- The document of a definition that was just made has its id. -/
theorem ne_empty_of_afterChange {s : Schedule} {r : Except Failure (Engine × Definition)} {j : Json} {id : String}
    (hmade : ∀ e d, r = .ok (e, d) → ∃ id, d.id = some id ∧ id ≠ "")
    (h : (afterChange s 201 r).1 = .document 201 j) (hid : j.text? "id" = some id) : id ≠ "" := by
  cases r with
  | error f => exact absurd (Answer.document.inj h).1 (statusOf_ne_created f)
  | ok made =>
    obtain ⟨e, d⟩ := made
    obtain ⟨id', hd, hne⟩ := hmade e d rfl
    have hj : d.toJson = j := (Answer.document.inj h).2
    have hsome : d.toJson.text? "id" = d.id := by simp [Definition.toJson, Json.text?, Json.member]
    rw [← hj, hsome, hd] at hid
    exact Option.some.inj hid ▸ hne

/-- An accepted id is not empty. -/
theorem Accepted.ne_empty {id : String} (h : Accepted id) : id ≠ "" := by
  cases h with
  | created s body hnames h hid =>
    have hresolve : resolve .post "/api/v1/workflows" = .found .createWorkflow [] := by decide
    simp only [serve, hresolve, perform, createWorkflow] at h
    refine ne_empty_of_afterChange (fun e d hmade => ?_) h hid
    obtain ⟨new, -, hnew⟩ := exists_of_bind_eq_ok hmade
    exact id_of_createWorkflow hnames hnew
  | imported s body hnames h hid =>
    have hresolve : resolve .post "/api/v1/workflows/import" = .found .importWorkflow [] := by decide
    simp only [serve, hresolve, perform, importWorkflow] at h
    refine ne_empty_of_afterChange (fun e d hmade => ?_) h hid
    obtain ⟨document, -, hdocument⟩ := exists_of_bind_eq_ok hmade
    rw [Engine.importWorkflow] at hdocument
    split at hdocument
    · exact id_of_createWorkflow hnames hdocument
    · cases hdocument

/-! ## Requests -/

/-- What a request for an operation on a reserved id is answered with. -/
def Operation.elsewhere (s : Schedule) (id : String) : Operation → Answer × Schedule
  | read => (if id = "node-types" then .ok s.engine.registry.describe else .empty 405, s)
  | replace | remove | validate | execute => (.empty 405, s)
  | exported => (.ofResult 200 (record s "export"), s)
  | runs => (.ofResult 200 (record s "executions"), s)

theorem serve_of_found {s : Schedule} {r : Request} {action : Action} {captured : List String}
    (hoptions : r.method ≠ .options) (hhead : r.method ≠ .head) (h : resolve r.method r.target = .found action captured) :
    serve s r = perform s action (captured.headD "") r.body := by
  simp only [serve, if_neg hoptions, h]
  exact if_neg hhead

/-- A request for an operation. -/
def Operation.request (op : Operation) (keep : Char → Bool) (id body : String) : Request :=
  ⟨op.method, op.target keep id, body⟩

/-- A workflow of the catalog can be read, replaced, removed, exported, validated, run and asked for
its runs through its path, unless its id is a word of the routes there. Then the request is one
for something else. -/
theorem addressable_unless_reserved (op : Operation) (hkeep : PathEscape keep) {id : String} (hid : Accepted id)
    {s : Schedule} {d : Definition} (hd : s.engine.catalog.get id = .ok d) (body : String) :
    serve s (op.request keep id body) =
      if id ∈ op.reserved then op.elsewhere s id else op.outcome s id d body := by
  have hoptions : op.method ≠ .options := by cases op <;> decide
  have hhead : op.method ≠ .head := by cases op <;> decide
  have hresolve := resolve_target hkeep hid.ne_empty op
  by_cases hreserved : id ∈ op.reserved
  · rw [if_pos hreserved] at hresolve ⊢
    simp only [serve, Operation.request, if_neg hoptions, hresolve]
    cases op with
    | read =>
      by_cases htypes : id = "node-types"
      · simp only [Operation.mistaken, Operation.elsewhere, if_pos htypes]
        rfl
      · simp only [Operation.mistaken, Operation.elsewhere, if_neg htypes]
    | replace | remove | validate | execute | exported | runs => rfl
  · rw [if_neg hreserved] at hresolve ⊢
    have hfound : resolve (op.request keep id body).method (op.request keep id body).target = .found op.action [id] :=
      hresolve
    have hserve := serve_of_found (s := s) hoptions hhead hfound
    rw [hserve]
    exact op.perform_action hd body

deriving instance DecidableEq for Answer

namespace Shelf

/-- A service whose catalog is empty. -/
def bare : Schedule :=
  { engine := { registry := NodeType.builtins, ids := { run := fun n => toString n } },
    surroundings := { callTool := fun _ => (0, .ok .null), fetch := fun _ => (0, .error (.failed "offline")) } }

/-- A submission under an id. -/
def submission (id : String) : String := (Json.object [("id", .string id), ("name", .string "Shelf")]).compact

/-- The service after a workflow has been created under an id. -/
def stocked (id : String) : Schedule := (serve bare ⟨.post, "/api/v1/workflows", submission id⟩).2

def entry (id : String) : Definition :=
  { id := some id, name := "Shelf", createdAt := some .epoch, updatedAt := some .epoch }

/-- An id of marks that all need an escape. -/
def odd : String := "a/b 50%?"

theorem pathEscape_isUnreserved : PathEscape isUnreserved :=
  ⟨fun _ h => h, fun c h => by rw [isPathChar, h, Bool.true_or]⟩

theorem generatedId_ne_empty (n : Nat) : Catalog.generatedId n ≠ "" := by
  intro h
  have hlength := congrArg String.length h
  simp [Catalog.generatedId] at hlength

theorem accepted_odd : Accepted odd :=
  .created bare (submission odd) (j := (entry odd).toJson) generatedId_ne_empty (by decide +kernel)
    (by decide +kernel)

theorem accepted_nodeTypes : Accepted "node-types" :=
  .created bare (submission "node-types") (j := (entry "node-types").toJson) generatedId_ne_empty
    (by decide +kernel) (by decide +kernel)

/-- The odd id is reached, to read its workflow and to remove it; under `node-types` the node types
are listed and nothing is removed. -/
theorem serves_odd :
    (stocked odd).engine.catalog.get odd = .ok (entry odd) ∧
      serve (stocked odd) (Operation.read.request isUnreserved odd "") = (.document 200 (entry odd).toJson, stocked odd) ∧
      (serve (stocked odd) (Operation.remove.request isUnreserved odd "")).1 = .empty 204 ∧
      serve (stocked "node-types") (Operation.remove.request isUnreserved "node-types" "") =
        (.empty 405, stocked "node-types") := by
  have hodd : (stocked odd).engine.catalog.get odd = .ok (entry odd) := by decide +kernel
  have htypes : (stocked "node-types").engine.catalog.get "node-types" = .ok (entry "node-types") := by decide +kernel
  have hread := addressable_unless_reserved .read pathEscape_isUnreserved accepted_odd hodd ""
  have hremove := addressable_unless_reserved .remove pathEscape_isUnreserved accepted_odd hodd ""
  have hmistaken := addressable_unless_reserved .remove pathEscape_isUnreserved accepted_nodeTypes htypes ""
  rw [if_neg (by decide)] at hread hremove
  rw [if_pos (by decide)] at hmistaken
  exact ⟨hodd, hread, by rw [hremove]; rfl, hmistaken⟩

/-- Not every workflow can be reached: creation takes the id `node-types`, and a request for that
workflow is answered with the node types. -/
theorem not_every_id_is_addressable :
    ¬ ∀ (op : Operation) (keep : Char → Bool) (id : String) (s : Schedule) (d : Definition) (body : String),
      PathEscape keep → Accepted id → s.engine.catalog.get id = .ok d →
        serve s (op.request keep id body) = op.outcome s id d body := by
  intro hall
  have hread := hall .read isUnreserved "node-types" (stocked "node-types") (entry "node-types") ""
    pathEscape_isUnreserved accepted_nodeTypes (by decide +kernel)
  have hlisted : (serve (stocked "node-types") (Operation.read.request isUnreserved "node-types" "")).1 ≠
      .document 200 (entry "node-types").toJson := by decide +kernel
  exact hlisted (by rw [hread]; rfl)

end Shelf

end Workflows.Api
