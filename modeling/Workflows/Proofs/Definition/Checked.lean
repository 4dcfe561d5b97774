/-
  Workflows.Proofs.Definition.Checked — what a definition has passed in which a check finds no error.

  A check reports node by node and connection by connection, each with what was listed before
  it. `Checked` says what is left when it reports nothing, without that order: ids are distinct
  and not blank, every type is known, and connections differ in their ids and in their ends and
  join ports that nodes declare (`errors_check_eq_nil`). Such a definition has a plan unless its
  connections go round in a circle (`Checked.isCycle_of_error`), and `prepare` fails with the
  errors of the check or with a circle, nothing else (`Engine.prepare_eq_ok`,
  `Engine.isPreRun_of_prepare`).
-/

import Workflows.Engine.Basic
import Workflows.Proofs.Plan.Graph

namespace Workflows
namespace Definition

variable {d : Definition} {types : Registry}

/-- The connection leads from an output port that a node declares to an input port that a node
declares; a node that declares no ports has those of its type. -/
structure Joins (d : Definition) (types : Registry) (c : Connection) : Prop where
  source : ∃ n ports, d.node? c.source = some n ∧ n.outputPorts? types = some ports ∧ c.sourcePort ∈ ports
  target : ∃ n ports, d.node? c.target = some n ∧ n.inputPorts? types = some ports ∧ c.targetPort ∈ ports

/-- Nothing is wrong with the definition as far as a check can see. -/
structure Checked (d : Definition) (types : Registry) : Prop where
  named : ∀ n ∈ d.nodes, Text.isBlank n.id = false
  distinct : d.ids.Nodup
  known : ∀ n ∈ d.nodes, ∃ t, types.resolve? n.type = some t
  separate : (d.connections.map (·.id)).Nodup
  apart : (d.connections.map Connection.ends).Nodup
  joins : ∀ c ∈ d.connections, d.Joins types c

theorem reportIf_eq_nil {condition : Bool} {issue : Issue} : reportIf condition issue = [] ↔ condition = false := by
  cases condition <;> simp [reportIf]

theorem mem_nodes_of_node? {id : String} {n : Node} (h : d.node? id = some n) : n ∈ d.nodes := List.mem_of_find?_eq_some h

/-! ## Nodes -/

theorem nodeErrors_eq_nil {before : List String} {n : Node} : nodeErrors types before n = [] ↔
    Text.isBlank n.id = false ∧ n.id ∉ before ∧ ∃ t, types.resolve? n.type = some t := by
  simp only [nodeErrors, List.append_eq_nil_iff, reportIf_eq_nil, and_assoc, List.contains_eq_mem,
    decide_eq_false_iff_not, Option.isNone_eq_false_iff, Option.isSome_iff_exists]

theorem allNodeErrors_eq_nil {before : List String} {nodes : List Node} : allNodeErrors types before nodes = [] ↔
    (∀ n ∈ nodes, Text.isBlank n.id = false ∧ n.id ∉ before ∧ ∃ t, types.resolve? n.type = some t) ∧
      (nodes.map (·.id)).Nodup := by
  induction nodes generalizing before with
  | nil => simp [allNodeErrors]
  | cons n rest ih =>
    simp only [allNodeErrors, List.append_eq_nil_iff, nodeErrors_eq_nil, ih, List.mem_cons, forall_eq_or_imp,
      List.map_cons, List.nodup_cons, List.mem_map, not_exists, not_and, not_or]
    constructor
    · intro h
      obtain ⟨hn, hrest, hnodup⟩ := h
      exact ⟨⟨hn, fun m hm => ⟨(hrest m hm).1, (hrest m hm).2.1.2, (hrest m hm).2.2⟩⟩,
        fun m hm => (hrest m hm).2.1.1, hnodup⟩
    · intro h
      obtain ⟨⟨hn, hrest⟩, hne, hnodup⟩ := h
      exact ⟨hn, fun m hm => ⟨(hrest m hm).1, ⟨hne m hm, (hrest m hm).2.1⟩, (hrest m hm).2.2⟩, hnodup⟩

/-! ## Connections -/

section

variable (hknown : ∀ n ∈ d.nodes, ∃ t, types.resolve? n.type = some t)
include hknown

theorem exists_outputPorts {id : String} {n : Node} (h : d.node? id = some n) :
    ∃ ports, n.outputPorts? types = some ports := by
  obtain ⟨t, ht⟩ := hknown n (mem_nodes_of_node? h)
  unfold Node.outputPorts?
  cases n.outputs with
  | some decl => exact ⟨_, rfl⟩
  | none => exact ⟨t.outputs, by simp [ht]⟩

theorem exists_inputPorts {id : String} {n : Node} (h : d.node? id = some n) :
    ∃ ports, n.inputPorts? types = some ports := by
  obtain ⟨t, ht⟩ := hknown n (mem_nodes_of_node? h)
  unfold Node.inputPorts?
  cases n.inputs with
  | some decl => exact ⟨_, rfl⟩
  | none => exact ⟨t.inputs, by simp [ht]⟩

theorem sourceErrors_eq_nil {c : Connection} : d.sourceErrors types c = [] ↔
    ∃ n ports, d.node? c.source = some n ∧ n.outputPorts? types = some ports ∧ c.sourcePort ∈ ports := by
  unfold sourceErrors
  cases hn : d.node? c.source with
  | none => simp
  | some n =>
    obtain ⟨ports, hports⟩ := exists_outputPorts hknown hn
    simp [hports, reportIf_eq_nil]

theorem targetErrors_eq_nil {c : Connection} : d.targetErrors types c = [] ↔
    ∃ n ports, d.node? c.target = some n ∧ n.inputPorts? types = some ports ∧ c.targetPort ∈ ports := by
  unfold targetErrors
  cases hn : d.node? c.target with
  | none => simp
  | some n =>
    obtain ⟨ports, hports⟩ := exists_inputPorts hknown hn
    simp [hports, reportIf_eq_nil]

theorem connectionErrors_eq_nil {before : List Connection} {c : Connection} :
    d.connectionErrors types before c = [] ↔
      c.id ∉ before.map (·.id) ∧ c.ends ∉ before.map Connection.ends ∧ d.Joins types c := by
  have hid : before.any (·.id == c.id) = false ↔ c.id ∉ before.map (·.id) := by
    simp [List.any_eq_false]
  have hends : (before.any fun b => b.ends = c.ends) = false ↔ c.ends ∉ before.map Connection.ends := by
    simp [List.any_eq_false]
  simp only [connectionErrors, List.append_eq_nil_iff, reportIf_eq_nil, sourceErrors_eq_nil hknown,
    targetErrors_eq_nil hknown, hid, hends]
  exact ⟨fun h => ⟨h.1.1.1, h.1.1.2, h.1.2, h.2⟩, fun h => ⟨⟨⟨h.1, h.2.1⟩, h.2.2.source⟩, h.2.2.target⟩⟩

theorem allConnectionErrors_eq_nil {before cs : List Connection} : d.allConnectionErrors types before cs = [] ↔
    (∀ c ∈ cs, c.id ∉ before.map (·.id) ∧ c.ends ∉ before.map Connection.ends ∧ d.Joins types c) ∧
      (cs.map (·.id)).Nodup ∧ (cs.map Connection.ends).Nodup := by
  induction cs generalizing before with
  | nil => simp [allConnectionErrors]
  | cons c rest ih =>
    rw [allConnectionErrors, List.append_eq_nil_iff, connectionErrors_eq_nil hknown, ih]
    simp only [List.map_cons, List.nodup_cons, List.mem_cons, forall_eq_or_imp, not_or]
    constructor
    · intro h
      obtain ⟨hc, hrest, hids, hends⟩ := h
      refine ⟨⟨hc, fun b hb => ?_⟩, ⟨fun hmem => ?_, hids⟩, fun hmem => ?_, hends⟩
      · obtain ⟨hid, hend, hjoins⟩ := hrest b hb
        exact ⟨hid.2, hend.2, hjoins⟩
      · obtain ⟨b, hb, he⟩ := List.mem_map.mp hmem
        exact (hrest b hb).1.1 he
      · obtain ⟨b, hb, he⟩ := List.mem_map.mp hmem
        exact (hrest b hb).2.1.1 he
    · intro h
      obtain ⟨⟨hc, hrest⟩, ⟨hid, hids⟩, hend, hends⟩ := h
      refine ⟨hc, fun b hb => ?_, hids, hends⟩
      obtain ⟨hb1, hb2, hjoins⟩ := hrest b hb
      exact ⟨⟨fun he => hid (List.mem_map.mpr ⟨b, hb, he⟩), hb1⟩, ⟨fun he => hend (List.mem_map.mpr ⟨b, hb, he⟩), hb2⟩,
        hjoins⟩

end

/-! ## The whole check -/

/-- A check finds no error exactly when there is nothing wrong. -/
theorem errors_check_eq_nil : (d.check types).errors = [] ↔ d.Checked types := by
  rw [check, List.append_eq_nil_iff, allNodeErrors_eq_nil]
  constructor
  · intro h
    obtain ⟨⟨hnodes, hnodup⟩, hconnections⟩ := h
    have hknown : ∀ n ∈ d.nodes, ∃ t, types.resolve? n.type = some t := fun n hn => (hnodes n hn).2.2
    obtain ⟨hjoins, hids, hends⟩ := (allConnectionErrors_eq_nil hknown).mp hconnections
    exact ⟨fun n hn => (hnodes n hn).1, hnodup, hknown, hids, hends, fun c hc => (hjoins c hc).2.2⟩
  · intro h
    refine ⟨⟨fun n hn => ⟨h.named n hn, List.not_mem_nil, h.known n hn⟩, h.distinct⟩, ?_⟩
    exact (allConnectionErrors_eq_nil h.known).mpr
      ⟨fun c hc => ⟨List.not_mem_nil, List.not_mem_nil, h.joins c hc⟩, h.separate, h.apart⟩

theorem toExcept_check_eq_ok {warnings : List Issue} :
    (d.check types).toExcept = .ok warnings ↔ d.Checked types ∧ warnings = (d.check types).warnings := by
  rw [← errors_check_eq_nil, Findings.toExcept]
  by_cases h : (d.check types).errors = []
  · simp [h, eq_comm]
  · simp [h]

namespace Checked

theorem joined (h : d.Checked types) : d.Joined := by
  intro c hc
  obtain ⟨s, -, hs, -⟩ := (h.joins c hc).source
  obtain ⟨t, -, ht, -⟩ := (h.joins c hc).target
  have hid : ∀ {x : String} {n : Node}, d.node? x = some n → x ∈ d.ids := fun hn =>
    List.mem_map.mpr ⟨_, mem_nodes_of_node? hn, by simpa using List.find?_some hn⟩
  exact ⟨hid hs, hid ht⟩

/-- The connections into a node have ids of their own. -/
theorem nodup_incoming (h : d.Checked types) (x : String) : ((d.incoming x).map (·.id)).Nodup :=
  h.separate.sublist (List.filter_sublist.map _)

/-- Only a circle keeps a definition that has passed the check from having a plan. -/
theorem isCycle_of_error {f : PlanError} (h : d.Checked types) (hf : Plan.ofDefinition d = .error f) :
    ∃ nodes, f = .cycle nodes := by
  have hids : Plan.distinctIds [] d.nodes = .ok ((d.nodes.map (·.id)).reverse ++ []) :=
    Plan.distinctIds_eq_ok.mpr ⟨fun _ _ => List.not_mem_nil, h.distinct, rfl⟩
  have hends : Plan.checkEnds ((d.nodes.map (·.id)).reverse ++ []) d.connections = .ok () :=
    Plan.checkEnds_eq_ok.mpr fun c hc => by simpa [ids] using h.joined c hc
  simp only [Plan.ofDefinition, bind, Except.bind, hids, hends] at hf
  cases hcycle : Plan.findCycle? (Plan.consumersOf d) with
  | some nodes => rw [hcycle] at hf; cases hf; exact ⟨nodes, rfl⟩
  | none => rw [hcycle] at hf; cases hf

end Checked
end Definition

namespace Engine

variable {d : Definition} {types : Registry} {p : Plan} {f : Failure}

theorem prepare_eq_ok : prepare d types = .ok p ↔ d.Checked types ∧ Plan.ofDefinition d = .ok p := by
  simp only [prepare, bind, Except.bind]
  cases hcheck : (d.check types).toExcept with
  | error g =>
    refine iff_of_false nofun fun h => ?_
    rw [Definition.toExcept_check_eq_ok.mpr ⟨h.1, rfl⟩] at hcheck
    cases hcheck
  | ok warnings =>
    rw [and_iff_right (Definition.toExcept_check_eq_ok.mp hcheck).1]
    cases Plan.ofDefinition d with
    | ok q => exact ⟨fun h => congrArg Except.ok (Except.ok.inj h), fun h => congrArg Except.ok (Except.ok.inj h)⟩
    | error g => exact iff_of_false nofun nofun

/-- A definition is refused for what the check finds or for a circle. -/
theorem prepare_eq_error (h : prepare d types = .error f) :
    f = .invalid (d.check types).errors ∨ ∃ nodes, d.Checked types ∧ f = .cycle nodes := by
  simp only [prepare, bind, Except.bind] at h
  cases hcheck : (d.check types).toExcept with
  | error g =>
    rw [hcheck] at h
    cases h
    unfold Findings.toExcept at hcheck
    split at hcheck
    · cases hcheck
    · cases hcheck; exact .inl rfl
  | ok warnings =>
    have hchecked := (Definition.toExcept_check_eq_ok.mp hcheck).1
    cases hplan : Plan.ofDefinition d with
    | ok p => rw [hcheck, hplan] at h; cases h
    | error g =>
      obtain ⟨nodes, rfl⟩ := hchecked.isCycle_of_error hplan
      rw [hcheck, hplan] at h
      cases h
      exact .inr ⟨nodes, hchecked, rfl⟩

theorem isPreRun_of_prepare (h : prepare d types = .error f) : f.isPreRun = true := by
  rcases prepare_eq_error h with rfl | ⟨nodes, -, rfl⟩ <;> rfl

end Engine
end Workflows
