/-
  Workflows.Proofs.Definition.WellFormed — a check accepts exactly the well-formed definitions.

  `Checked` speaks of what a check looks up: the first node of an id, and the ports that are
  resolved for it. `WellFormed` speaks of the nodes and connections alone, as collections: ids
  that tell them apart, types that are known, and for each end of a connection a node with the
  port it names. Nodes that share an id, so that a look-up would find the first of them only,
  are not well formed, so the two agree (`Checked.wellFormed`, `WellFormed.checked`).
  None of what `WellFormed` asks depends on an order (`WellFormed.of_perm`), so neither does the
  verdict of the check, although it reports in the order of the lists (`accepts_wellFormed`).
-/

import Workflows.NodeType.Builtin
import Workflows.Proofs.Definition.Checked

namespace Workflows

/-- The declaration names the port, or describes it. -/
inductive PortDecl.Declares (port : String) : PortDecl → Prop
  | named {ports : List String} (h : port ∈ ports) : Declares port (.names ports)
  | described {ports : Keyed Json} {description : Json} (h : (port, description) ∈ ports) :
      Declares port (.described ports)

theorem PortDecl.mem_toList {port : String} {decl : PortDecl} : port ∈ decl.toList ↔ decl.Declares port := by
  cases decl with
  | names ports =>
    refine ⟨.named, fun h => ?_⟩
    cases h with
    | named h => exact h
  | described ports =>
    constructor
    · intro h
      obtain ⟨⟨_, description⟩, hmem, rfl⟩ := List.mem_map.mp h
      exact .described hmem
    · intro h
      cases h with
      | described h => exact List.mem_map.mpr ⟨_, h, rfl⟩

/-- A node of this type has the port: it declares it, or it declares none at all and its type
has it. -/
inductive HasPort (types : Registry) (type : String) (ofType : NodeType → List String) (port : String) :
    Option PortDecl → Prop
  | declared {decl : PortDecl} (h : decl.Declares port) : HasPort types type ofType port (some decl)
  | ofItsType {t : NodeType} (ht : types.resolve? type = some t) (h : port ∈ ofType t) :
      HasPort types type ofType port none

namespace Node

variable {types : Registry} {n : Node} {port : String}

theorem mem_ports_iff (declared : Option PortDecl) (ofType : NodeType → List String) :
    (∃ ports, (match (motive := Option PortDecl → Option (List String)) declared with
        | some decl => some decl.toList
        | none => (types.resolve? n.type).map ofType) = some ports ∧ port ∈ ports) ↔
      HasPort types n.type ofType port declared := by
  cases declared with
  | some decl =>
    constructor
    · intro h
      obtain ⟨ports, hports, hmem⟩ := h
      cases hports
      exact .declared (PortDecl.mem_toList.mp hmem)
    · intro h
      cases h with
      | declared h => exact ⟨_, rfl, PortDecl.mem_toList.mpr h⟩
  | none =>
    constructor
    · intro h
      obtain ⟨ports, hports, hmem⟩ := h
      obtain ⟨t, ht, rfl⟩ := Option.map_eq_some_iff.mp hports
      exact .ofItsType ht hmem
    · intro h
      cases h with
      | ofItsType ht hmem => exact ⟨_, Option.map_eq_some_iff.mpr ⟨_, ht, rfl⟩, hmem⟩

theorem mem_outputPorts_iff : (∃ ports, n.outputPorts? types = some ports ∧ port ∈ ports) ↔
    HasPort types n.type NodeType.outputs port n.outputs := mem_ports_iff n.outputs NodeType.outputs

theorem mem_inputPorts_iff : (∃ ports, n.inputPorts? types = some ports ∧ port ∈ ports) ↔
    HasPort types n.type NodeType.inputs port n.inputs := mem_ports_iff n.inputs NodeType.inputs

end Node

namespace Definition

/-- What makes a definition fit to be run, whatever the order its parts are listed in. -/
structure WellFormed (d : Definition) (types : Registry) : Prop where
  /-- Some character of each id is not blank. -/
  named : ∀ n ∈ d.nodes, ∃ char ∈ n.id.toList, Text.isSpace char = false
  distinct : d.nodes.Pairwise fun m n => m.id ≠ n.id
  known : ∀ n ∈ d.nodes, ∃ t, types.resolve? n.type = some t
  separate : d.connections.Pairwise fun b c => b.id ≠ c.id
  /-- No two connections join the same ports; one that names no port means `main`. -/
  apart : d.connections.Pairwise fun b c =>
    ¬ (b.source = c.source ∧ b.sourceHandle.getD "main" = c.sourceHandle.getD "main" ∧
      b.target = c.target ∧ b.targetHandle.getD "main" = c.targetHandle.getD "main")
  leaves : ∀ c ∈ d.connections, ∃ n ∈ d.nodes, n.id = c.source ∧
    HasPort types n.type NodeType.outputs (c.sourceHandle.getD "main") n.outputs
  arrives : ∀ c ∈ d.connections, ∃ n ∈ d.nodes, n.id = c.target ∧
    HasPort types n.type NodeType.inputs (c.targetHandle.getD "main") n.inputs

variable {d d' : Definition} {types : Registry}

/-- Of nodes with different ids, the one that is looked up by its id is found. -/
theorem node?_of_mem (h : d.nodes.Pairwise fun m n => m.id ≠ n.id) {n : Node} (hn : n ∈ d.nodes) :
    d.node? n.id = some n := by
  unfold node?
  generalize d.nodes = nodes at h hn ⊢
  induction nodes with
  | nil => exact absurd hn List.not_mem_nil
  | cons m rest ih =>
    obtain ⟨hm, hrest⟩ := List.pairwise_cons.mp h
    rcases List.mem_cons.mp hn with rfl | hlater
    · exact List.find?_cons_of_pos (beq_self_eq_true _)
    · rw [List.find?_cons_of_neg (by simpa using hm n hlater)]
      exact ih hrest hlater

theorem Checked.wellFormed (h : d.Checked types) : d.WellFormed types := by
  have hfound : ∀ {id : String} {n : Node}, d.node? id = some n → n ∈ d.nodes ∧ n.id = id := fun hn =>
    ⟨mem_nodes_of_node? hn, by simpa using List.find?_some hn⟩
  refine
    { named := fun n hn => ?named
      distinct := List.pairwise_map.mp h.distinct
      known := h.known
      separate := List.pairwise_map.mp h.separate
      apart := (List.pairwise_map.mp h.apart).imp fun hne hsame => hne ?apart
      leaves := fun c hc => ?leaves
      arrives := fun c hc => ?arrives }
  case named =>
    have hblank := h.named n hn
    simpa [Text.isBlank] using hblank
  case apart =>
    obtain ⟨hsource, hsourcePort, htarget, htargetPort⟩ := hsame
    exact Prod.ext hsource (Prod.ext hsourcePort (Prod.ext htarget htargetPort))
  case leaves =>
    obtain ⟨n, ports, hn, hports, hmem⟩ := (h.joins c hc).source
    exact ⟨n, (hfound hn).1, (hfound hn).2, Node.mem_outputPorts_iff.mp ⟨ports, hports, hmem⟩⟩
  case arrives =>
    obtain ⟨n, ports, hn, hports, hmem⟩ := (h.joins c hc).target
    exact ⟨n, (hfound hn).1, (hfound hn).2, Node.mem_inputPorts_iff.mp ⟨ports, hports, hmem⟩⟩

theorem WellFormed.checked (h : d.WellFormed types) : d.Checked types := by
  refine
    { named := fun n hn => ?named
      distinct := List.pairwise_map.mpr h.distinct
      known := h.known
      separate := List.pairwise_map.mpr h.separate
      apart := List.pairwise_map.mpr (h.apart.imp fun hne hsame => hne ?apart)
      joins := fun c hc => ⟨?source, ?target⟩ }
  case named =>
    have hletter := h.named n hn
    simpa [Text.isBlank] using hletter
  case apart =>
    simp only [Connection.ends, Prod.mk.injEq] at hsame
    exact hsame
  case source =>
    obtain ⟨n, hn, hid, hport⟩ := h.leaves c hc
    obtain ⟨ports, hports, hmem⟩ := Node.mem_outputPorts_iff.mpr hport
    exact ⟨n, ports, hid ▸ node?_of_mem h.distinct hn, hports, hmem⟩
  case target =>
    obtain ⟨n, hn, hid, hport⟩ := h.arrives c hc
    obtain ⟨ports, hports, hmem⟩ := Node.mem_inputPorts_iff.mpr hport
    exact ⟨n, ports, hid ▸ node?_of_mem h.distinct hn, hports, hmem⟩

/-- Listing the same nodes and connections in another order makes nothing ill formed. -/
theorem WellFormed.of_perm (h : d.WellFormed types) (hnodes : d'.nodes.Perm d.nodes)
    (hconnections : d'.connections.Perm d.connections) : d'.WellFormed types where
  named := fun n hn => h.named n (hnodes.mem_iff.mp hn)
  distinct := (hnodes.pairwise_iff Ne.symm).mpr h.distinct
  known := fun n hn => h.known n (hnodes.mem_iff.mp hn)
  separate := (hconnections.pairwise_iff Ne.symm).mpr h.separate
  apart := by
    refine (hconnections.pairwise_iff fun hne hsame => hne ?_).mpr h.apart
    obtain ⟨hsource, hsourcePort, htarget, htargetPort⟩ := hsame
    exact ⟨hsource.symm, hsourcePort.symm, htarget.symm, htargetPort.symm⟩
  leaves := fun c hc =>
    (h.leaves c (hconnections.mem_iff.mp hc)).imp fun _ hn => ⟨hnodes.mem_iff.mpr hn.1, hn.2⟩
  arrives := fun c hc =>
    (h.arrives c (hconnections.mem_iff.mp hc)).imp fun _ hn => ⟨hnodes.mem_iff.mpr hn.1, hn.2⟩

theorem errors_eq_nil_iff_wellFormed : (d.check types).errors = [] ↔ d.WellFormed types :=
  errors_check_eq_nil.trans ⟨Checked.wellFormed, WellFormed.checked⟩

/-- A check finds no error in a definition exactly if it is well formed, and so in whatever order
its nodes and its connections are listed. -/
theorem accepts_wellFormed (d : Definition) (types : Registry) :
    ((d.check types).errors = [] ↔ d.WellFormed types) ∧
      ∀ d' : Definition, d'.nodes.Perm d.nodes → d'.connections.Perm d.connections →
        ((d'.check types).errors = [] ↔ (d.check types).errors = []) := by
  refine ⟨errors_eq_nil_iff_wellFormed, fun d' hnodes hconnections => ?_⟩
  rw [errors_eq_nil_iff_wellFormed, errors_eq_nil_iff_wellFormed]
  exact ⟨fun h => h.of_perm hnodes.symm hconnections.symm, fun h => h.of_perm hnodes hconnections⟩

end Definition

/-! ## Ports of every kind -/

namespace Patch

def types : Registry := [("merge", NodeType.merge), ("trigger", NodeType.trigger)]

/-- Ports that are described, named, and those of a type. -/
def nodes : List Node :=
  [{ id := "a", type := "trigger", outputs := some (.described [("body", .string "what came in")]) },
    { id := "b", type := "merge", inputs := some (.names ["left", "right"]) }, { id := "c", type := "merge" }]

def connections : List Connection :=
  [{ id := "1", source := "a", target := "b", sourceHandle := some "body", targetHandle := some "left" },
    { id := "2", source := "a", target := "b", sourceHandle := some "body", targetHandle := some "right" },
    { id := "3", source := "b", target := "c", targetHandle := some "main" }]

def definition : Definition := { name := "patch", nodes, connections }

/-- The same, listed from the end. -/
def reversed : Definition := { definition with nodes := nodes.reverse, connections := connections.reverse }

/-- It is well formed, and passes in either order. -/
theorem accepts_wellFormed_patch : definition.WellFormed types ∧ (reversed.check types).errors = [] := by
  obtain ⟨hexactly, hunordered⟩ := Definition.accepts_wellFormed definition types
  have haccepted : (definition.check types).errors = [] := by decide +kernel
  exact ⟨hexactly.mp haccepted,
    (hunordered reversed (List.reverse_perm nodes) (List.reverse_perm connections)).mpr haccepted⟩

end Patch
end Workflows
