/-
  Workflows.Proofs.Plan.Cycles — a search that meets no cycle has seen that there is none.

  While a search is under way, every node it has entered is on the path it follows or is done
  with: from a node that is done no walk goes on for ever (`Acc` along connections). A node is
  done when all nodes after it are, and a node after it that is on the path would have closed a
  cycle. So when the search comes back clear from every node, connections are well founded
  (`wellFounded_feeds`), in both directions, because the nodes are finitely many.
-/

import Mathlib.Data.Fintype.Card
import Mathlib.Data.Fintype.EquivFin
import Mathlib.Data.Fintype.Sets
import Mathlib.Order.WellFounded
import Workflows.Proofs.Plan.Graph

namespace Workflows.Plan

/-- `b` comes right after `a`; the order of its arguments is that of `Acc`. -/
def After (g : Adjacency) (b a : String) : Prop := b ∈ g.at a

/-- Whoever comes after a node is a key. -/
def Closed (g : Adjacency) : Prop := ∀ a b, b ∈ g.at a → b ∈ Keyed.keys g

/-- Every node entered is on the path or done with. -/
def Entered (g : Adjacency) (path visited : List String) : Prop := ∀ x ∈ visited, x ∈ path ∨ Acc (After g) x

variable {g : Adjacency}

/-! ## One walk -/

/-- How a walk goes on to one of the nodes after the last of its path. -/
def walkTo (g : Adjacency) (fuel : Nat) (path : List String) (search : Search) (n : String) : Search :=
  match search with
  | .cycle nodes => .cycle nodes
  | .clear visited =>
    if path.contains n then .cycle ((path.takeWhile (· ≠ n) ++ [n]).reverse)
    else if visited.contains n then .clear visited
    else visit g fuel path visited n

theorem visit_succ (fuel : Nat) (path visited : List String) (id : String) :
    visit g (fuel + 1) path visited id = (g.at id).foldl (walkTo g fuel (id :: path)) (.clear (id :: visited)) := rfl

theorem foldl_walkTo_cycle (fuel : Nat) (path nodes l : List String) :
    l.foldl (walkTo g fuel path) (.cycle nodes) = .cycle nodes := by
  induction l with
  | nil => rfl
  | cons n rest ih => exact ih

/-- What a walk that comes back clear has done: the node is entered, nothing is forgotten and
all it has entered is done with. -/
structure Cleared (g : Adjacency) (path visited : List String) (id : String) (visited' : List String) : Prop where
  entered : id ∈ visited'
  kept : ∀ x ∈ visited, x ∈ visited'
  done : Entered g path visited'

/-- The walks to the nodes after the last of a path, if each of them does what `Cleared` says. -/
theorem foldl_walkTo_clear {fuel : Nat} {path : List String}
    (hvisit : ∀ visited n visited', visit g fuel path visited n = .clear visited' → n ∉ path →
      n ∈ Keyed.keys g → Entered g path visited → Cleared g path visited n visited')
    (l : List String) (hl : ∀ n ∈ l, n ∈ Keyed.keys g) {visited visited' : List String}
    (h : l.foldl (walkTo g fuel path) (.clear visited) = .clear visited') (hdone : Entered g path visited) :
    (∀ n ∈ l, n ∉ path ∧ n ∈ visited') ∧ (∀ x ∈ visited, x ∈ visited') ∧ Entered g path visited' := by
  induction l generalizing visited with
  | nil =>
    cases h
    exact ⟨fun _ hn => (by cases hn), fun _ hx => hx, hdone⟩
  | cons n rest ih =>
    rw [List.foldl_cons] at h
    by_cases hpath : n ∈ path
    · simp only [walkTo, List.contains_iff_mem, hpath, if_true, foldl_walkTo_cycle] at h
      cases h
    by_cases hseen : n ∈ visited
    · simp only [walkTo, List.contains_iff_mem, hpath, hseen, if_false, if_true] at h
      obtain ⟨h1, h2, h3⟩ := ih (fun m hm => hl m (List.mem_cons_of_mem _ hm)) h hdone
      refine ⟨fun m hm => ?_, h2, h3⟩
      rcases List.mem_cons.mp hm with rfl | hm
      · exact ⟨hpath, h2 _ hseen⟩
      · exact h1 m hm
    · simp only [walkTo, List.contains_iff_mem, hpath, hseen, if_false] at h
      cases hv : visit g fuel path visited n with
      | cycle nodes => rw [hv, foldl_walkTo_cycle] at h; cases h
      | clear between =>
        rw [hv] at h
        have hc := hvisit visited n between hv hpath (hl n List.mem_cons_self) hdone
        obtain ⟨h1, h2, h3⟩ := ih (fun m hm => hl m (List.mem_cons_of_mem _ hm)) h hc.done
        refine ⟨fun m hm => ?_, fun x hx => h2 x (hc.kept x hx), h3⟩
        rcases List.mem_cons.mp hm with rfl | hm
        · exact ⟨hpath, h2 _ hc.entered⟩
        · exact h1 m hm

/-- The fuel bounds the length of a path of distinct nodes, so it never runs out. -/
theorem visit_clear (hg : Closed g) : ∀ (fuel : Nat) (path visited : List String) (id : String)
    (visited' : List String), visit g fuel path visited id = .clear visited' → (id :: path).Nodup →
      (∀ x ∈ id :: path, x ∈ Keyed.keys g) → g.length ≤ fuel + path.length → Entered g path visited →
      Cleared g path visited id visited' := by
  intro fuel
  induction fuel with
  | zero =>
    intro path visited id visited' _ hnodup hkeys hfuel _
    have hle := hnodup.length_le_of_subset hkeys
    simp only [List.length_cons, Keyed.keys, List.length_map] at hle
    omega
  | succ fuel ih =>
    intro path visited id visited' h hnodup hkeys hfuel hdone
    rw [visit_succ] at h
    have hdone' : Entered g (id :: path) (id :: visited) := by
      intro x hx
      rcases List.mem_cons.mp hx with rfl | hx
      · exact Or.inl List.mem_cons_self
      · exact (hdone x hx).imp_left (List.mem_cons_of_mem _)
    obtain ⟨h1, h2, h3⟩ := foldl_walkTo_clear
      (fun visited n visited' hv hn hkey => ih (id :: path) visited n visited' hv
        (List.nodup_cons.mpr ⟨hn, hnodup⟩)
        (fun x hx => (List.mem_cons.mp hx).elim (fun e => e ▸ hkey) (hkeys x))
        (by simp only [List.length_cons]; omega))
      (g.at id) (fun n hn => hg id n hn) h hdone'
    have hacc : Acc (After g) id := by
      refine Acc.intro _ fun n hn => ?_
      obtain ⟨hpath, hin⟩ := h1 n hn
      exact (h3 n hin).resolve_left hpath
    refine ⟨h2 id List.mem_cons_self, fun x hx => h2 x (List.mem_cons_of_mem _ hx), fun x hx => ?_⟩
    rcases h3 x hx with hx | hx
    · rcases List.mem_cons.mp hx with rfl | hx
      · exact Or.inr hacc
      · exact Or.inl hx
    · exact Or.inr hx

/-! ## The whole search -/

theorem findCycle?_go_eq_none (hg : Closed g) {ids visited : List String} (hids : ∀ x ∈ ids, x ∈ Keyed.keys g)
    (hdone : Entered g [] visited) (h : findCycle?.go g visited ids = none) : ∀ x ∈ ids, Acc (After g) x := by
  induction ids generalizing visited with
  | nil => intro x hx; cases hx
  | cons id rest ih =>
    have hrest : ∀ x ∈ rest, x ∈ Keyed.keys g := fun x hx => hids x (List.mem_cons_of_mem _ hx)
    simp only [findCycle?.go, List.contains_iff_mem] at h
    by_cases hseen : id ∈ visited
    · rw [if_pos hseen] at h
      intro x hx
      rcases List.mem_cons.mp hx with rfl | hx
      · exact (hdone _ hseen).resolve_left List.not_mem_nil
      · exact ih hrest hdone h x hx
    · rw [if_neg hseen] at h
      cases hv : visit g g.length [] visited id with
      | cycle nodes => rw [hv] at h; cases h
      | clear between =>
        rw [hv] at h
        have hc := visit_clear hg g.length [] visited id between hv (List.nodup_singleton id)
          (fun x hx => hids x (List.mem_singleton.mp hx ▸ List.mem_cons_self)) (Nat.le_add_right _ _) hdone
        intro x hx
        rcases List.mem_cons.mp hx with rfl | hx
        · exact (hc.done _ hc.entered).resolve_left List.not_mem_nil
        · exact ih hrest hc.done h x hx

theorem wellFounded_after (hg : Closed g) (h : findCycle? g = none) : WellFounded (After g) := by
  refine ⟨fun x => ?_⟩
  by_cases hx : x ∈ Keyed.keys g
  · exact findCycle?_go_eq_none hg (fun _ hy => hy) (fun _ hy => (by cases hy)) h x hx
  · refine Acc.intro _ fun y hy => ?_
    have hnone : Keyed.get? g x = none := by
      cases hget : Keyed.get? g x with
      | none => rfl
      | some ids => exact absurd (Keyed.mem_keys.mpr (by rw [hget]; rfl)) hx
    simp [After, Adjacency.at, hnone] at hy

variable {d : Definition} {p : Plan}

/-- No connections of a planned definition lead from a node back to it. -/
theorem not_leadsTo_self (h : ofDefinition d = .ok p) (x : String) : ¬ d.LeadsTo x x := by
  obtain ⟨-, hj, hcyc, -⟩ := ofDefinition_eq_ok.mp h
  have hclosed : Closed (consumersOf d) := fun a b hb =>
    (mem_keys_consumersOf hj).mpr (hj.target_mem (mem_consumersOf.mp hb))
  intro hx
  have hafter : Relation.TransGen (Function.swap (After (consumersOf d))) x x :=
    Relation.TransGen.mono (fun a b hf => mem_consumersOf.mpr hf) x x hx
  have hswap := Relation.transGen_swap.mp hafter
  exact (wellFounded_after hclosed hcyc).transGen.irrefl.irrefl x hswap

/-- Connections of a planned definition are well founded: what holds of a node whenever it
holds of all nodes that feed it holds of every node. -/
theorem wellFounded_feeds (h : ofDefinition d = .ok p) : WellFounded d.Feeds := by
  obtain ⟨-, hj, -, -⟩ := ofDefinition_eq_ok.mp h
  let r : { x // x ∈ d.ids } → { x // x ∈ d.ids } → Prop := fun a b => d.LeadsTo a.1 b.1
  have htrans : IsTrans _ r := ⟨fun _ _ _ hab hbc => Relation.TransGen.trans hab hbc⟩
  have hirrefl : Std.Irrefl r := ⟨fun a => not_leadsTo_self h a.1⟩
  have hwf : WellFounded r := Finite.wellFounded_of_trans_of_irrefl r
  have hacc : ∀ a : { x // x ∈ d.ids }, Acc d.Feeds a.1 := by
    intro a
    induction a using hwf.induction with
    | _ a ih =>
      refine Acc.intro _ fun b hb => ?_
      exact ih ⟨b, hj.source_mem hb⟩ (Relation.TransGen.single hb)
  refine ⟨fun x => Acc.intro _ fun y hy => hacc ⟨y, hj.source_mem hy⟩⟩

end Workflows.Plan
