/-
  Workflows.Proofs.Plan.Canonical — there is one plan, whatever order nodes and connections are
  listed in.

  Of all lists of the nodes in which every connection points forward the order of a plan is the
  first, compared node by node: while such a list begins with the nodes taken so far, its next
  node is ready, and the plan takes the smallest of those (`takeReady_least`). The two adjacencies
  of a plan are determined by the ids and by which of them feed which, and so is all of it
  (`ofDefinition_congr`).
-/

import Workflows.Proofs.Plan.Circle
import Workflows.Proofs.Plan.Order

namespace Workflows

/-- The nodes of a definition, each once and after all nodes that feed it. -/
structure Definition.Topological (d : Definition) (order : List String) : Prop where
  nodup : order.Nodup
  nodes : ∀ x, x ∈ order ↔ x ∈ d.ids
  forward : ∀ a x, d.Feeds a x → ∃ before after, order = before ++ x :: after ∧ a ∈ before

/-- What feeds a node stands before it, wherever the list is cut at the node. -/
theorem Definition.Topological.mem_before {d : Definition} {order before after : List String} {a x : String}
    (h : d.Topological order) (hsplit : order = before ++ x :: after) (hf : d.Feeds a x) : a ∈ before := by
  obtain ⟨before', after', hsplit', ha⟩ := h.forward a x hf
  have hnodup := h.nodup
  rw [hsplit, List.nodup_middle, List.nodup_cons, List.mem_append, not_or] at hnodup
  have hcut := hsplit.symm.trans hsplit'
  rw [List.append_cons_inj_of_notMem hnodup.1.1 hnodup.1.2] at hcut
  exact hcut.1 ▸ ha

/-- Sorted adjacencies with ascending sets are the same when they hold the same. -/
theorem Adjacency.ext {g g' : Adjacency} (hs : Keyed.Sorted g) (hs' : Keyed.Sorted g')
    (ha : ∀ x, (g.at x).Pairwise (· < ·)) (ha' : ∀ x, (g'.at x).Pairwise (· < ·))
    (hkeys : ∀ x, x ∈ Keyed.keys g ↔ x ∈ Keyed.keys g') (hmem : ∀ x y, y ∈ g.at x ↔ y ∈ g'.at x) : g = g' := by
  refine Keyed.ext_of_sorted hs hs' fun x => ?_
  have hat : g.at x = g'.at x := (ha x).eq_of_mem_iff (ha' x) (hmem x)
  have hsome := hkeys x
  rw [Keyed.mem_keys, Keyed.mem_keys] at hsome
  simp only [Adjacency.at] at hat
  cases hget : Keyed.get? g x <;> cases hget' : Keyed.get? g' x <;> simp_all

namespace Plan

variable {d d' : Definition} {p : Plan}

/-! ## The first of all orders -/

theorem topological_order (h : ofDefinition d = .ok p) : d.Topological p.order := by
  refine ⟨nodup_order h, fun x => mem_order h, fun a x hf => ?_⟩
  obtain ⟨before, after, hsplit⟩ := List.append_of_mem (mem_order_of_feeds h hf).2
  exact ⟨before, after, hsplit, mem_before_of_feeds h hsplit hf⟩

/-- Taking the smallest ready node again and again goes on no later than any list that begins with
the nodes taken so far. -/
theorem takeReady_least (hj : d.Joined) : ∀ (fuel : Nat) (done : List String) (counts : Keyed Nat) (ready : NameSet),
    Taking d done counts ready → ∀ other, d.Topological (done ++ other) →
      takeReady (consumersOf d) fuel counts ready = other ∨
        List.Lex (· < ·) (takeReady (consumersOf d) fuel counts ready) other := by
  have stop : ∀ other : List String, [] = other ∨ List.Lex (· < ·) [] other := by
    intro other
    cases other with
    | nil => exact .inl rfl
    | cons y other => exact .inr .nil
  intro fuel
  induction fuel with
  | zero => intro done counts ready _ other _; exact stop other
  | succ fuel ih =>
    intro done counts ready h other ht
    cases ready with
    | nil => exact stop other
    | cons id rest =>
      obtain ⟨hid, hnew, -⟩ := (h.ready_iff id).mp List.mem_cons_self
      obtain ⟨y, other, rfl⟩ : ∃ y more, other = y :: more := by
        cases other with
        | nil => exact absurd ((ht.nodes id).mpr hid) (by simpa using hnew)
        | cons y more => exact ⟨y, more, rfl⟩
      -- the next node of the other list is ready, because all that feeds it has been taken
      have hready : y ∈ id :: rest := by
        refine (h.ready_iff y).mpr ⟨(ht.nodes y).mp (by simp), ?_, fun a ha => ht.mem_before rfl ha⟩
        intro hdone
        exact (List.nodup_append.mp ht.nodup).2.2 y hdone y List.mem_cons_self rfl
      have hunfold : takeReady (consumersOf d) (fuel + 1) counts (id :: rest) =
          id :: takeReady (consumersOf d) fuel (releaseAll counts rest ((consumersOf d).at id)).1
            (releaseAll counts rest ((consumersOf d).at id)).2 := rfl
      rw [hunfold]
      rcases List.mem_cons.mp hready with rfl | hlater
      · have hgo := ih _ _ _ (h.take hj) other (by simpa using ht)
        exact hgo.imp (congrArg (y :: ·)) .cons
      · exact .inr (.rel ((List.pairwise_cons.mp h.ascending).1 y hlater))

theorem order_least (h : ofDefinition d = .ok p) {other : List String} (ht : d.Topological other) :
    p.order = other ∨ List.Lex (· < ·) p.order other := by
  obtain ⟨-, hj, -, rfl⟩ := ofDefinition_eq_ok.mp h
  exact takeReady_least hj _ [] _ _ (taking_start hj) other ht

/-! ## What a plan depends on -/

theorem joined_congr (hj : d.Joined) (hids : ∀ x, x ∈ d'.ids ↔ x ∈ d.ids)
    (hfeeds : ∀ a b, d'.Feeds a b ↔ d.Feeds a b) : d'.Joined := by
  intro c hc
  have hf := (hfeeds c.source c.target).mp ⟨c, hc, rfl, rfl⟩
  exact ⟨(hids _).mpr (hj.source_mem hf), (hids _).mpr (hj.target_mem hf)⟩

theorem producersOf_congr (hj : d.Joined) (hj' : d'.Joined) (hids : ∀ x, x ∈ d'.ids ↔ x ∈ d.ids)
    (hfeeds : ∀ a b, d'.Feeds a b ↔ d.Feeds a b) : producersOf d' = producersOf d := by
  refine Adjacency.ext (sorted_producersOf d') (sorted_producersOf d) (ascending_producersOf d')
    (ascending_producersOf d) (fun x => ?_) fun x y => ?_
  · rw [mem_keys_producersOf hj', mem_keys_producersOf hj, hids]
  · rw [mem_producersOf, mem_producersOf, hfeeds]

theorem consumersOf_congr (hj : d.Joined) (hj' : d'.Joined) (hids : ∀ x, x ∈ d'.ids ↔ x ∈ d.ids)
    (hfeeds : ∀ a b, d'.Feeds a b ↔ d.Feeds a b) : consumersOf d' = consumersOf d := by
  refine Adjacency.ext (sorted_consumersOf d') (sorted_consumersOf d) (ascending_consumersOf d')
    (ascending_consumersOf d) (fun x => ?_) fun x y => ?_
  · rw [mem_keys_consumersOf hj', mem_keys_consumersOf hj, hids]
  · rw [mem_consumersOf, mem_consumersOf, hfeeds]

/-- Another listing of the same nodes, joined by connections between the same of them, has the same plan. -/
theorem ofDefinition_congr (h : ofDefinition d = .ok p) (hn : d'.ids.Nodup) (hids : ∀ x, x ∈ d'.ids ↔ x ∈ d.ids)
    (hfeeds : ∀ a b, d'.Feeds a b ↔ d.Feeds a b) : ofDefinition d' = .ok p := by
  obtain ⟨-, hj, hcircle, rfl⟩ := ofDefinition_eq_ok.mp h
  have hj' := joined_congr hj hids hfeeds
  have hup := producersOf_congr hj hj' hids hfeeds
  have hdown := consumersOf_congr hj hj' hids hfeeds
  exact ofDefinition_eq_ok.mpr ⟨hn, hj', hdown ▸ hcircle, by rw [hup, hdown]⟩

/-! ## Planning -/

/-- The plan of a definition, as its nodes and connections determine it. -/
structure Canonical (d : Definition) (p : Plan) : Prop where
  topological : d.Topological p.order
  /-- Compared node by node, no other such list comes before it. -/
  least : ∀ other, d.Topological other → p.order = other ∨ List.Lex (· < ·) p.order other
  /-- The roots are the nodes that no connection leads into, ascending. -/
  roots : p.roots.Pairwise (· < ·) ∧ ∀ x, x ∈ p.roots ↔ x ∈ d.ids ∧ ∀ c ∈ d.connections, c.target ≠ x
  dependencies : ∀ x, (p.dependencies x).Pairwise (· < ·) ∧ ∀ a, a ∈ p.dependencies x ↔ d.Feeds a x
  dependents : ∀ a, (p.dependents a).Pairwise (· < ·) ∧ ∀ x, x ∈ p.dependents a ↔ d.Feeds a x
  /-- Only which ids there are and which feed which is told from a plan. -/
  determined : ∀ d' : Definition, d'.ids.Nodup → (∀ x, x ∈ d'.ids ↔ x ∈ d.ids) →
    (∀ a b, d'.Feeds a b ↔ d.Feeds a b) → ofDefinition d' = .ok p

/-- Planning succeeds exactly when ids are distinct, connections join nodes that are there and none
lead from a node back to it; the plan is then the canonical one. -/
theorem planned_exactly (d : Definition) :
    ((∃ p, ofDefinition d = .ok p) ↔ d.ids.Nodup ∧ d.Joined ∧ ∀ x, ¬ d.LeadsTo x x) ∧
      ∀ p, ofDefinition d = .ok p → Canonical d p := by
  refine ⟨exists_plan_iff, fun p h => ?_⟩
  have hroots : ∀ x, x ∈ p.roots ↔ x ∈ d.ids ∧ ∀ c ∈ d.connections, c.target ≠ x := by
    intro x
    rw [mem_roots h, mem_order h]
    refine and_congr_right fun _ => ⟨fun hnone c hc he => hnone c.source ⟨c, hc, rfl, he⟩, ?_⟩
    rintro hnone a ⟨c, hc, -, he⟩
    exact hnone c hc he
  have hascending : p.roots.Pairwise (· < ·) := by
    obtain ⟨-, -, -, rfl⟩ := ofDefinition_eq_ok.mp h
    exact ascending_rootsOf d
  exact
    { topological := topological_order h
      least := fun other => order_least h
      roots := ⟨hascending, hroots⟩
      dependencies := fun x => ⟨ascending_dependencies h x, fun a => mem_dependencies h⟩
      dependents := fun a => ⟨ascending_dependents h a, fun x => mem_dependents h⟩
      determined := fun d' => ofDefinition_congr h }

/-- A diamond with two connections between the same nodes, and a node that stands alone; neither
nodes nor connections are listed in order. -/
def diamond : Definition :=
  { name := "diamond"
    nodes := [{ id := "z", type := "merge" }, { id := "c", type := "merge" }, { id := "b", type := "merge" },
      { id := "a", type := "trigger" }, { id := "y", type := "trigger" }]
    connections := [{ id := "1", source := "y", target := "c" }, { id := "2", source := "y", target := "b" },
      { id := "3", source := "c", target := "a" }, { id := "4", source := "b", target := "a" },
      { id := "5", source := "c", target := "a", targetHandle := some "second" }] }

theorem planned_exactly_diamond : ∃ p, ofDefinition diamond = .ok p ∧ p.order = ["y", "b", "c", "a", "z"] ∧
    p.roots = ["y", "z"] ∧ p.dependencies "a" = ["b", "c"] ∧ Canonical diamond p :=
  ⟨_, rfl, rfl, rfl, rfl, (planned_exactly diamond).2 _ rfl⟩

end Plan
end Workflows
