/-
  Workflows.Proofs.Plan.Reported — which cycle planning reports.

  A definition whose ids are distinct and whose connections join its nodes is refused for nothing
  but a cycle, and that when connections lead from some node back to it (`exists_cycle_iff`). The
  list in the error is a circle of the adjacency that was searched: each node feeds the next and
  the last feeds the first, so connections lead from any of them to any other (`Circle.around`),
  and a node that merely leads there is not among them. Ids and which of them feed which
  determine the adjacency, and with it the list (`ofDefinition_cycle_congr`).
-/

import Workflows.Proofs.Plan.Canonical

namespace Workflows.Plan

variable {d d' : Definition} {nodes : List String}

/-! ## What is refused for a cycle -/

theorem duplicate_of_distinctIds {seen : List String} {ns : List Node} {f : PlanError}
    (h : distinctIds seen ns = .error f) : ∃ id, f = .duplicateNode id := by
  induction ns generalizing seen with
  | nil => cases h
  | cons n rest ih =>
    unfold distinctIds at h
    split at h
    · cases h
      exact ⟨n.id, rfl⟩
    · exact ih h

theorem unknown_of_checkEnds {ids : List String} {cs : List Connection} {f : PlanError}
    (h : checkEnds ids cs = .error f) : ∃ c n, f = .unknownNode c n := by
  unfold checkEnds at h
  split at h
  next found hfound =>
    cases h
    obtain ⟨c, -, hc⟩ := List.exists_of_findSome?_eq_some hfound
    obtain ⟨n, -, rfl⟩ := Option.map_eq_some_iff.mp hc
    exact ⟨c.id, n, rfl⟩
  next => cases h

/-- Ids are looked at first, then the ends of connections; what has passed both is searched. -/
theorem ofDefinition_eq_cycle : ofDefinition d = .error (.cycle nodes) ↔
    d.ids.Nodup ∧ d.Joined ∧ findCycle? (consumersOf d) = some nodes := by
  have hends : checkEnds ((d.nodes.map (·.id)).reverse ++ []) d.connections = .ok () ↔ d.Joined := by
    rw [checkEnds_eq_ok]
    exact forall₂_congr fun c _ => by simp [Definition.ids]
  simp only [ofDefinition, bind, Except.bind]
  cases hids : distinctIds [] d.nodes with
  | error f =>
    obtain ⟨id, rfl⟩ := duplicate_of_distinctIds hids
    refine iff_of_false (fun h => by cases h) fun h => ?_
    rw [distinctIds_eq_ok.mpr ⟨fun _ _ => List.not_mem_nil, h.1, rfl⟩] at hids
    cases hids
  | ok ids =>
    obtain ⟨-, hn, rfl⟩ := distinctIds_eq_ok.mp hids
    dsimp only
    cases hjoin : checkEnds ((d.nodes.map (·.id)).reverse ++ []) d.connections with
    | error f =>
      obtain ⟨c, n, rfl⟩ := unknown_of_checkEnds hjoin
      refine iff_of_false (fun h => by cases h) fun h => ?_
      rw [hends.mpr h.2.1] at hjoin
      cases hjoin
    | ok u =>
      rw [and_iff_right (show d.ids.Nodup from hn), and_iff_right (hends.mp hjoin)]
      cases findCycle? (consumersOf d) with
      | none => exact iff_of_false (fun h => by cases h) fun h => by cases h
      | some found => exact ⟨fun h => (by cases h; rfl), fun h => (by cases h; rfl)⟩

/-- What has passed the checks has a plan or goes round. -/
theorem exists_cycle_iff :
    (∃ nodes, ofDefinition d = .error (.cycle nodes)) ↔ d.ids.Nodup ∧ d.Joined ∧ ∃ x, d.LeadsTo x x := by
  constructor
  · intro h
    obtain ⟨nodes, h⟩ := h
    obtain ⟨hn, hj, hfind⟩ := ofDefinition_eq_cycle.mp h
    obtain ⟨x, hx⟩ := (circle_of_findCycle? hfind).returns
    exact ⟨hn, hj, x, Relation.TransGen.mono (fun a b hb => mem_consumersOf.mp hb) x x hx⟩
  · intro h
    obtain ⟨hn, hj, x, hx⟩ := h
    cases hfind : findCycle? (consumersOf d) with
    | some nodes => exact ⟨nodes, ofDefinition_eq_cycle.mpr ⟨hn, hj, hfind⟩⟩
    | none => exact absurd hx (not_leadsTo_self (ofDefinition_eq_ok.mpr ⟨hn, hj, hfind, rfl⟩) x)

theorem ofDefinition_cycle_congr (h : ofDefinition d = .error (.cycle nodes)) (hn : d'.ids.Nodup)
    (hids : ∀ x, x ∈ d'.ids ↔ x ∈ d.ids) (hfeeds : ∀ a b, d'.Feeds a b ↔ d.Feeds a b) :
    ofDefinition d' = .error (.cycle nodes) := by
  obtain ⟨-, hj, hfind⟩ := ofDefinition_eq_cycle.mp h
  have hj' := joined_congr hj hids hfeeds
  exact ofDefinition_eq_cycle.mpr ⟨hn, hj', consumersOf_congr hj hj' hids hfeeds ▸ hfind⟩

/-! ## The report -/

/-- The list of nodes that a definition is refused with. -/
structure Reported (d : Definition) (nodes : List String) : Prop where
  nonempty : nodes ≠ []
  nodup : nodes.Nodup
  /-- Each node feeds the next. -/
  onward : nodes.IsChain d.Feeds
  /-- The last feeds the first. -/
  closed : ∀ first last, nodes.head? = some first → nodes.getLast? = some last → d.Feeds last first
  /-- None of them only leads to the others: connections lead from each to each. -/
  around : ∀ a ∈ nodes, ∀ b ∈ nodes, d.LeadsTo a b
  /-- Only which ids there are and which feed which is told from the list. -/
  determined : ∀ d' : Definition, d'.ids.Nodup → (∀ x, x ∈ d'.ids ↔ x ∈ d.ids) →
    (∀ a b, d'.Feeds a b ↔ d.Feeds a b) → ofDefinition d' = .error (.cycle nodes)

/-- A cycle is reported exactly when ids are distinct, connections join nodes that are there and
lead from some node back to it; what is reported goes once round. -/
theorem cycle_reported (d : Definition) :
    ((∃ nodes, ofDefinition d = .error (.cycle nodes)) ↔ d.ids.Nodup ∧ d.Joined ∧ ∃ x, d.LeadsTo x x) ∧
      ∀ nodes, ofDefinition d = .error (.cycle nodes) → Reported d nodes := by
  refine ⟨exists_cycle_iff, fun nodes h => ?_⟩
  have hcircle := circle_of_findCycle? (ofDefinition_eq_cycle.mp h).2.2
  have haround := hcircle.around
  obtain ⟨n, rest, rfl, hchain⟩ := hcircle.closed
  have hfeeds : (n :: rest ++ [n]).IsChain d.Feeds := hchain.imp fun _ _ hb => mem_consumersOf.mp hb
  obtain ⟨honward, -, hlast⟩ := List.isChain_append.mp hfeeds
  exact
    { nonempty := List.cons_ne_nil n rest
      nodup := hcircle.nodup
      onward := honward
      closed := by
        intro first last hfirst hend
        cases hfirst
        exact hlast last hend n rfl
      around := fun a ha b hb => Relation.TransGen.mono (fun _ _ hs => mem_consumersOf.mp hs) a b (haround a ha b hb)
      determined := fun d' => ofDefinition_cycle_congr h }

/-- A way into a cycle of three nodes, and a way out; neither nodes nor connections are listed in order. -/
def lasso : Definition :=
  { name := "lasso"
    nodes := [{ id := "d", type := "merge" }, { id := "e", type := "merge" }, { id := "b", type := "merge" },
      { id := "a", type := "trigger" }, { id := "c", type := "merge" }]
    connections := [{ id := "1", source := "d", target := "b" }, { id := "2", source := "c", target := "e" },
      { id := "3", source := "a", target := "b" }, { id := "4", source := "c", target := "d" },
      { id := "5", source := "b", target := "c" }] }

theorem cycle_reported_lasso :
    ofDefinition lasso = .error (.cycle ["b", "c", "d"]) ∧ Reported lasso ["b", "c", "d"] :=
  ⟨rfl, (cycle_reported lasso).2 _ rfl⟩

end Workflows.Plan
