/-
  Workflows.Proofs.Plan.Circle — the cycle that a search reports goes round.

  The path of a search is a walk through distinct nodes, kept last first. A node after its last
  one that is on the path closes a circle: the part of the path from that node on, in the order
  it was walked (`circle_of_path`). So a graph without circles is searched in vain, and a
  definition has a plan exactly when its ids are distinct, its connections join nodes and lead
  from no node back to it (`exists_plan_iff`).
-/

import Mathlib.Data.List.Chain
import Workflows.Proofs.Plan.Cycles

namespace Workflows.Plan

/-- Distinct nodes, each right before the next and the last right before the first. -/
structure Circle (g : Adjacency) (nodes : List String) : Prop where
  nodup : nodes.Nodup
  closed : ∃ n rest, nodes = n :: rest ∧ (n :: rest ++ [n]).IsChain (fun a b => b ∈ g.at a)

variable {g : Adjacency}

/-- Along a circle one or more steps lead from any node to any other, and back to itself. -/
theorem Circle.around {nodes : List String} (h : Circle g nodes) :
    ∀ a ∈ nodes, ∀ b ∈ nodes, Relation.TransGen (fun a b => b ∈ g.at a) a b := by
  obtain ⟨n, rest, rfl, hchain⟩ := h.closed
  have hall : (n :: rest ++ [n]).Pairwise (Relation.TransGen fun a b => b ∈ g.at a) :=
    (hchain.imp fun _ _ hb => Relation.TransGen.single hb).pairwise
  have hback : ∀ a ∈ n :: rest, Relation.TransGen (fun a b => b ∈ g.at a) a n := fun a ha =>
    (List.pairwise_append.mp hall).2.2 a ha n (List.mem_singleton_self n)
  intro a ha b hb
  rcases List.mem_cons.mp hb with rfl | hrest
  · exact hback a ha
  · exact (hback a ha).trans (List.rel_of_pairwise_cons hall (List.mem_append_left _ hrest))

theorem Circle.returns {nodes : List String} (h : Circle g nodes) :
    ∃ n, Relation.TransGen (fun a b => b ∈ g.at a) n n := by
  obtain ⟨n, rest, rfl, -⟩ := h.closed
  exact ⟨n, h.around n List.mem_cons_self n List.mem_cons_self⟩

/-! ## The path of a search -/

/-- The nodes of a path are distinct and each comes right after the next one in it. -/
structure Path (g : Adjacency) (path : List String) : Prop where
  nodup : path.Nodup
  chain : path.IsChain (fun b a => b ∈ g.at a)

theorem Path.extend {id n : String} {path : List String} (h : Path g (id :: path)) (hn : n ∈ g.at id)
    (hnew : n ∉ id :: path) : Path g (n :: id :: path) :=
  ⟨List.nodup_cons.mpr ⟨hnew, h.nodup⟩, List.isChain_cons_cons.mpr ⟨hn, h.chain⟩⟩

/-- A node after the last of a path that is on the path closes a circle. -/
theorem circle_of_path {id n : String} {path : List String} (h : Path g (id :: path)) (hn : n ∈ g.at id)
    (hmem : n ∈ id :: path) : Circle g (((id :: path).takeWhile (· ≠ n) ++ [n]).reverse) := by
  obtain ⟨walked, before, hsplit, hnot⟩ := List.eq_append_cons_of_mem hmem
  have hother : ∀ x ∈ walked, decide (x ≠ n) = true := by
    intro x hx
    rw [decide_eq_true_eq]
    rintro rfl
    exact hnot hx
  have hwalked : (id :: path).takeWhile (· ≠ n) = walked := by
    rw [hsplit, List.takeWhile_append_of_pos hother]
    simp
  have hround : (n :: (walked ++ n :: before)).IsChain (fun b a => b ∈ g.at a) := by
    rw [← hsplit]
    exact List.isChain_cons_cons.mpr ⟨hn, h.chain⟩
  rw [hwalked, List.reverse_append, List.reverse_singleton, List.singleton_append]
  refine ⟨List.nodup_cons.mpr ⟨by simpa using hnot, ?_⟩, n, walked.reverse, rfl, ?_⟩
  · have hnodup := h.nodup
    rw [hsplit] at hnodup
    exact List.nodup_reverse.mpr (List.nodup_append.mp hnodup).1
  · have hback : (n :: walked ++ [n]).IsChain (fun b a => b ∈ g.at a) := by
      have : n :: (walked ++ n :: before) = (n :: walked ++ [n]) ++ before := by simp
      rw [this] at hround
      exact hround.left_of_append
    have hturn : n :: walked.reverse ++ [n] = (n :: walked ++ [n]).reverse := by simp
    rw [hturn]
    exact List.isChain_reverse.mpr hback

/-! ## What a search reports -/

/-- The walks to the nodes after the last of a path, if each of them reports circles only. -/
theorem foldl_walkTo_circle {fuel : Nat} {id : String} {path : List String} (hpath : Path g (id :: path))
    (hvisit : ∀ visited n nodes, visit g fuel (id :: path) visited n = .cycle nodes → Path g (n :: id :: path) →
      Circle g nodes)
    (l : List String) (hl : ∀ n ∈ l, n ∈ g.at id) {visited nodes : List String}
    (h : l.foldl (walkTo g fuel (id :: path)) (.clear visited) = .cycle nodes) : Circle g nodes := by
  induction l generalizing visited with
  | nil => cases h
  | cons n rest ih =>
    have hrest : ∀ m ∈ rest, m ∈ g.at id := fun m hm => hl m (List.mem_cons_of_mem _ hm)
    have hn := hl n List.mem_cons_self
    rw [List.foldl_cons] at h
    by_cases hmem : n ∈ id :: path
    · simp only [walkTo, List.contains_iff_mem, hmem, if_true, foldl_walkTo_cycle, Search.cycle.injEq] at h
      subst h
      exact circle_of_path hpath hn hmem
    by_cases hseen : n ∈ visited
    · simp only [walkTo, List.contains_iff_mem, hmem, hseen, if_false, if_true] at h
      exact ih hrest h
    · simp only [walkTo, List.contains_iff_mem, hmem, hseen, if_false] at h
      cases hv : visit g fuel (id :: path) visited n with
      | clear between => rw [hv] at h; exact ih hrest h
      | cycle found =>
        rw [hv, foldl_walkTo_cycle, Search.cycle.injEq] at h
        subst h
        exact hvisit visited n found hv (hpath.extend hn hmem)

theorem visit_circle : ∀ (fuel : Nat) (path visited : List String) (id : String) (nodes : List String),
    visit g fuel path visited id = .cycle nodes → Path g (id :: path) → Circle g nodes := by
  intro fuel
  induction fuel with
  | zero => intro path visited id nodes h _; cases h
  | succ fuel ih =>
    intro path visited id nodes h hpath
    rw [visit_succ] at h
    exact foldl_walkTo_circle hpath (fun visited n nodes hv hn => ih (id :: path) visited n nodes hv hn)
      (g.at id) (fun _ hn => hn) h

/-- The cycle that the search of a graph reports is a circle of the graph. -/
theorem circle_of_findCycle? {nodes : List String} (h : findCycle? g = some nodes) : Circle g nodes := by
  have search : ∀ (ids visited : List String), findCycle?.go g visited ids = some nodes → Circle g nodes := by
    intro ids
    induction ids with
    | nil => intro visited h; cases h
    | cons id rest ih =>
      intro visited h
      simp only [findCycle?.go] at h
      split at h
      · exact ih visited h
      · split at h
        next between _ => exact ih between h
        next found hv =>
          cases h
          exact visit_circle _ [] visited id _ hv ⟨List.nodup_singleton id, List.isChain_singleton id⟩
  exact search (Keyed.keys g) [] h

/-! ## When there is a plan -/

variable {d : Definition}

theorem findCycle?_eq_none (h : ∀ x, ¬ d.LeadsTo x x) : findCycle? (consumersOf d) = none := by
  cases hfind : findCycle? (consumersOf d) with
  | none => rfl
  | some nodes =>
    obtain ⟨n, hn⟩ := (circle_of_findCycle? hfind).returns
    exact absurd (Relation.TransGen.mono (fun a b hb => mem_consumersOf.mp hb) n n hn) (h n)

/-- A definition has a plan exactly when its ids are distinct, its connections join nodes that are
there, and lead from no node back to it. -/
theorem exists_plan_iff : (∃ p, ofDefinition d = .ok p) ↔ d.ids.Nodup ∧ d.Joined ∧ ∀ x, ¬ d.LeadsTo x x := by
  constructor
  · intro h
    obtain ⟨p, hp⟩ := h
    obtain ⟨hn, hj, -, -⟩ := ofDefinition_eq_ok.mp hp
    exact ⟨hn, hj, not_leadsTo_self hp⟩
  · intro h
    obtain ⟨hn, hj, hcircle⟩ := h
    exact ⟨_, ofDefinition_eq_ok.mpr ⟨hn, hj, findCycle?_eq_none hcircle, rfl⟩⟩

end Workflows.Plan
