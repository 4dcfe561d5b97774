/-
  Workflows.Proofs.Run.Inputs — what a node receives when it is started.

  A node that no connection leads to receives the trigger of the run on `main`; these nodes are
  the roots of the plan. Any other node has a value on each port that some connection leads to,
  and on no other: what the one connection brings, or the list of what they bring, in ascending
  order of their ids (`Resolved`). Where ids tell connections apart that order leaves no choice
  (`Definition.eq_of_ascending`), so the inputs depend on what the connections are and on what
  their producers have put out, and on nothing else (`resolvesInputs`).
-/

import Workflows.Proofs.Run.Results

namespace Workflows

/-! ## Connections in ascending order of their ids -/

namespace Definition

/-- The connections to a port of a node, in ascending order of their ids; one that names no port
leads to `main`. -/
structure InOrder (d : Definition) (node port : String) (feeds : List Connection) : Prop where
  ascending : feeds.Pairwise (·.id < ·.id)
  mem : ∀ c, c ∈ feeds ↔ c ∈ d.connections ∧ c.target = node ∧ c.targetHandle.getD "main" = port

variable {d : Definition} {node : String} {feeds feeds' : List Connection}

/-- The ids put connections in one order only. -/
theorem eq_of_ascending (h : feeds.Pairwise (·.id < ·.id)) (h' : feeds'.Pairwise (·.id < ·.id))
    (hmem : ∀ c, c ∈ feeds ↔ c ∈ feeds') : feeds = feeds' := by
  have hdistinct : ∀ {l : List Connection}, l.Pairwise (·.id < ·.id) → l.Nodup := by
    intro l hl
    refine hl.imp fun {b c} hlt => ?_
    intro heq
    subst heq
    exact String.lt_irrefl _ hlt
  have hperm : feeds.Perm feeds' := (List.perm_ext_iff_of_nodup (hdistinct h) (hdistinct h')).mpr hmem
  exact hperm.eq_of_pairwise (fun _ _ _ _ hlt hgt => absurd (String.lt_trans hlt hgt) (String.lt_irrefl _)) h h'

theorem mem_incoming {c : Connection} : c ∈ d.incoming node ↔ c ∈ d.connections ∧ c.target = node := by
  rw [incoming, List.mem_filter, beq_iff_eq]

theorem incoming_eq_nil : d.incoming node = [] ↔ ∀ c ∈ d.connections, c.target ≠ node := by
  rw [List.eq_nil_iff_forall_not_mem]
  exact forall_congr' fun c => by rw [mem_incoming, not_and]

theorem nodup_ids_incoming (h : (d.connections.map (·.id)).Nodup) : ((d.incoming node).map (·.id)).Nodup :=
  h.sublist (List.filter_sublist.map _)

end Definition

namespace DataBag

variable {d d' : Definition} {bag : DataBag} {node : String} {trigger trigger' : Json}

theorem ascending_insertById {c : Connection} {cs : List Connection} (h : cs.Pairwise (·.id < ·.id))
    (hnew : ∀ b ∈ cs, b.id ≠ c.id) : (insertById c cs).Pairwise (·.id < ·.id) := by
  induction cs with
  | nil => exact List.pairwise_singleton _ _
  | cons b rest ih =>
    obtain ⟨hb, hrest⟩ := List.pairwise_cons.mp h
    have hdiffers : b.id ≠ c.id := hnew b List.mem_cons_self
    unfold insertById
    split
    next hlt =>
      refine List.pairwise_cons.mpr ⟨fun x hx => ?_, h⟩
      rcases List.mem_cons.mp hx with rfl | hx
      · exact hlt
      · exact String.lt_trans hlt (hb x hx)
    next hle =>
      refine List.pairwise_cons.mpr ⟨fun x hx => ?_, ih hrest fun x hx => hnew x (List.mem_cons_of_mem _ hx)⟩
      rcases mem_insertById.mp hx with rfl | hx
      · exact string_lt_of_not_lt hle hdiffers.symm
      · exact hb x hx

/-- Connections that their ids tell apart are put in ascending order of them. -/
theorem ascending_byId {cs : List Connection} (h : (cs.map (·.id)).Nodup) : (byId cs).Pairwise (·.id < ·.id) := by
  have place : ∀ (cs acc : List Connection), acc.Pairwise (·.id < ·.id) → (cs.map (·.id)).Nodup →
      (∀ c ∈ cs, ∀ b ∈ acc, b.id ≠ c.id) → (cs.foldl (fun acc c => insertById c acc) acc).Pairwise (·.id < ·.id) := by
    intro cs
    induction cs with
    | nil => exact fun acc hacc _ _ => hacc
    | cons c rest ih =>
      intro acc hacc hnodup hapart
      obtain ⟨hc, hrest⟩ := List.nodup_cons.mp hnodup
      refine ih _ (ascending_insertById hacc (hapart c List.mem_cons_self)) hrest fun x hx b hb => ?_
      rcases mem_insertById.mp hb with rfl | hb
      · exact fun heq => hc (List.mem_map.mpr ⟨x, hx, heq.symm⟩)
      · exact hapart x (List.mem_cons_of_mem _ hx) b hb
  exact place cs [] List.Pairwise.nil h fun _ _ _ hb => absurd hb List.not_mem_nil

/-! ## What a node receives -/

/-- What comes in on a port that these connections lead to: nothing, the value that the one
connection takes from its producer, or the list of the values they take. A producer that has put
out nothing on its port stands for `null`. -/
inductive Receives (bag : DataBag) : List Connection → Option Json → Prop
  | nothing : Receives bag [] none
  | alone (c : Connection) : Receives bag [c] (some ((bag.value? c.source (c.sourceHandle.getD "main")).getD .null))
  | several {feeds : List Connection} (h : 2 ≤ feeds.length) :
      Receives bag feeds (some (.array (feeds.map fun c => (bag.value? c.source (c.sourceHandle.getD "main")).getD .null)))

theorem receives_joined {feeds : List Connection} (h : feeds ≠ []) : bag.Receives feeds (some (bag.joined feeds)) := by
  cases feeds with
  | nil => exact absurd rfl h
  | cons c rest =>
    cases rest with
    | nil => exact .alone c
    | cons b rest => exact .several (Nat.le_add_left 2 rest.length)

theorem inputs_of_unfed (h : d.incoming node = []) : bag.inputs d node trigger = [(mainPort, trigger)] := by
  unfold inputs
  rw [h]
  rfl

theorem inputs_of_fed (h : d.incoming node ≠ []) :
    bag.inputs d node trigger = (NameSet.ofList ((byId (d.incoming node)).map Connection.targetPort)).map fun port =>
      (port, bag.joined ((byId (d.incoming node)).filter (·.targetPort == port))) := by
  obtain ⟨c, hc⟩ := List.exists_mem_of_ne_nil _ h
  unfold inputs
  split
  next hnone => exact absurd (hnone ▸ mem_byId.mpr hc) List.not_mem_nil
  next => rfl

/-- The inputs of a node, given what its producers have put out and the trigger of the run. -/
structure Resolved (d : Definition) (bag : DataBag) (node : String) (trigger : Json) (inputs : PortValues) : Prop where
  sorted : Keyed.Sorted inputs
  /-- A node that no connection leads to receives the trigger, and nothing else. -/
  unfed : (∀ c ∈ d.connections, c.target ≠ node) → inputs = [("main", trigger)]
  ports : (∃ c ∈ d.connections, c.target = node) →
    ∀ port, port ∈ Keyed.keys inputs ↔ ∃ c ∈ d.connections, c.target = node ∧ c.targetHandle.getD "main" = port
  fed : (∃ c ∈ d.connections, c.target = node) →
    ∀ port, ∃ feeds, d.InOrder node port feeds ∧ bag.Receives feeds (Keyed.get? inputs port)

theorem inOrder_byId (h : (d.connections.map (·.id)).Nodup) (node port : String) :
    d.InOrder node port ((byId (d.incoming node)).filter (·.targetPort == port)) where
  ascending := (ascending_byId (Definition.nodup_ids_incoming h)).filter _
  mem := fun c => by
    rw [List.mem_filter, mem_byId, Definition.mem_incoming, beq_iff_eq, and_assoc]
    rfl

theorem resolved_inputs (h : (d.connections.map (·.id)).Nodup) (bag : DataBag) (node : String) (trigger : Json) :
    Resolved d bag node trigger (bag.inputs d node trigger) := by
  by_cases hfed : d.incoming node = []
  · have hnone := Definition.incoming_eq_nil.mp hfed
    have hsome : ¬ ∃ c ∈ d.connections, c.target = node := fun hc => hc.elim fun c hc => hnone c hc.1 hc.2
    rw [inputs_of_unfed hfed]
    exact ⟨List.pairwise_singleton _ _, fun _ => rfl, fun hc => absurd hc hsome, fun hc => absurd hc hsome⟩
  · have hport : ∀ port, port ∈ NameSet.ofList ((byId (d.incoming node)).map Connection.targetPort) ↔
        ∃ c ∈ d.connections, c.target = node ∧ c.targetHandle.getD "main" = port := by
      intro port
      rw [NameSet.mem_ofList, List.mem_map]
      refine exists_congr fun c => ?_
      rw [mem_byId, Definition.mem_incoming, and_assoc]
      rfl
    rw [inputs_of_fed hfed]
    refine
      { sorted := List.pairwise_map.mpr (NameSet.ascending_ofList _)
        unfed := fun hnone => absurd (Definition.incoming_eq_nil.mpr hnone) hfed
        ports := fun _ port => ?ports
        fed := fun _ port => ⟨_, inOrder_byId h node port, ?fed⟩ }
    case ports =>
      rw [Keyed.keys, List.map_map, ← hport port]
      exact iff_of_eq (congrArg (port ∈ ·) (List.map_id _))
    case fed =>
      rw [Keyed.get?_map fun port => bag.joined ((byId (d.incoming node)).filter (·.targetPort == port))]
      have hfeeds : (byId (d.incoming node)).filter (·.targetPort == port) = [] ↔
          port ∉ NameSet.ofList ((byId (d.incoming node)).map Connection.targetPort) := by
        rw [NameSet.mem_ofList, List.filter_eq_nil_iff]
        simp
      split
      next hmem => exact receives_joined fun hnil => hfeeds.mp hnil hmem
      next hmem => rw [hfeeds.mpr hmem]; exact .nothing

theorem inputs_perm (h : (d.connections.map (·.id)).Nodup) (hperm : d'.connections.Perm d.connections) :
    bag.inputs d' node trigger = bag.inputs d node trigger := by
  have hincoming : (d'.incoming node).Perm (d.incoming node) := hperm.filter _
  have h' : (d'.connections.map (·.id)).Nodup := (hperm.map _).nodup_iff.mpr h
  have hsame : byId (d'.incoming node) = byId (d.incoming node) :=
    Definition.eq_of_ascending (ascending_byId (Definition.nodup_ids_incoming h'))
      (ascending_byId (Definition.nodup_ids_incoming h)) fun c => by rw [mem_byId, mem_byId, hincoming.mem_iff]
  unfold inputs
  rw [hsame]

/-- What a node receives from others does not depend on the trigger. -/
theorem inputs_trigger (h : d.incoming node ≠ []) : bag.inputs d node trigger = bag.inputs d node trigger' := by
  rw [inputs_of_fed h, inputs_of_fed h]

end DataBag

/-- How a definition has the inputs of its nodes resolved. -/
structure Definition.Resolves (d : Definition) : Prop where
  resolved : ∀ (bag : DataBag) node trigger, DataBag.Resolved d bag node trigger (bag.inputs d node trigger)
  /-- Only a node that no connection leads to receives whatever the trigger is. -/
  triggered : ∀ (bag : DataBag) node, (∀ trigger, bag.inputs d node trigger = [("main", trigger)]) ↔
    ∀ c ∈ d.connections, c.target ≠ node
  /-- These are the roots of the plan. -/
  roots : ∀ p, Plan.ofDefinition d = .ok p → ∀ n ∈ d.nodes, n.id ∈ p.roots ↔ ∀ c ∈ d.connections, c.target ≠ n.id
  /-- The order in which connections are listed plays no part. -/
  unordered : ∀ d' : Definition, d'.connections.Perm d.connections → ∀ (bag : DataBag) node trigger,
    bag.inputs d' node trigger = bag.inputs d node trigger
  /-- Nor does what nodes have put out that are not producers of the node. -/
  ownProducers : ∀ (bag bag' : DataBag) node,
    (∀ c ∈ d.connections, c.target = node → Keyed.get? bag' c.source = Keyed.get? bag c.source) →
      ∀ trigger, bag'.inputs d node trigger = bag.inputs d node trigger

/-- A node receives on each port what the connections to it bring from their producers, and
nothing else; without connections it receives the trigger. -/
theorem resolvesInputs (d : Definition) (hids : (d.connections.map (·.id)).Nodup) : d.Resolves := by
  refine
    { resolved := DataBag.resolved_inputs hids
      triggered := fun bag node => ?triggered
      roots := fun p hp n hn => ?roots
      unordered := fun d' hperm bag node trigger => DataBag.inputs_perm hids hperm
      ownProducers := fun bag bag' node hsame trigger => DataBag.inputs_congr ?ownProducers }
  case triggered =>
    rw [← Definition.incoming_eq_nil]
    refine ⟨fun hall => ?_, fun hnone trigger => DataBag.inputs_of_unfed hnone⟩
    by_contra hfed
    -- a node that others feed receives the same for two triggers
    have hsame : [("main", Json.null)] = [("main", Json.bool true)] := by
      rw [← hall, ← hall, DataBag.inputs_trigger hfed]
    simp at hsame
  case roots =>
    have hmem : n.id ∈ p.order := (Plan.mem_order hp).mpr (List.mem_map_of_mem hn)
    rw [Plan.mem_roots hp, and_iff_right hmem]
    constructor
    · intro hnone c hc htarget
      exact hnone c.source ⟨c, hc, rfl, htarget⟩
    · intro hnone a ha
      obtain ⟨c, hc, -, htarget⟩ := ha
      exact hnone c hc htarget
  case ownProducers =>
    intro a ha
    obtain ⟨c, hc, rfl, htarget⟩ := ha
    exact hsame c hc htarget

/-! ## Several connections to one port -/

namespace Funnel

/-- Two nodes feed one port, and one of them another port from a port of its own; connections are
not listed in the order of their ids. -/
def definition : Definition :=
  { name := "funnel"
    nodes := [{ id := "a", type := "trigger" }, { id := "b", type := "trigger" }, { id := "c", type := "merge" }]
    connections := [{ id := "3", source := "b", target := "c", sourceHandle := some "extra", targetHandle := some "side" },
      { id := "2", source := "a", target := "c" }, { id := "1", source := "b", target := "c" }] }

/-- What `a` has put out; `b` has put out nothing on the port that leads to `side`. -/
def bag : DataBag := [("a", [("main", .string "from a")]), ("b", [("main", .string "from b")])]

/-- They come in by their ids, and nothing at all comes in as `null`. -/
theorem resolvesInputs_funnel : definition.Resolves ∧
    bag.inputs definition "c" (.string "go") =
      [("main", .array [.string "from b", .string "from a"]), ("side", .null)] :=
  ⟨resolvesInputs definition (by decide), by decide +kernel⟩

end Funnel
end Workflows
