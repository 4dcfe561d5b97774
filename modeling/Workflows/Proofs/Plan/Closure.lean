/-
  Workflows.Proofs.Plan.Closure — the nodes behind a node are those that connections lead to.

  A worklist holds nodes still to be looked at, a set those looked at; whoever comes after a
  node of the set is in the set or on the list (`Covered`). Whichever node of the list is looked
  at next (`Sweep.Next`), what the set holds and the list leads to stays the same, and one look
  less is left: a node puts the nodes after it on the list only once. So the list is worked off
  in any order, and the set is then what the first list led to (`mem_seen_of_sweeps`); the fuel
  of the closure lasts until its list is empty (`sweeps_closure`).
-/

import Mathlib.Algebra.GroupWithZero.Nat
import Workflows.Proofs.Plan.Order

namespace Workflows

namespace Adjacency

/-- How many nodes the nodes not in `seen` can still put on the list. -/
def unseen (g : Adjacency) (seen : NameSet) : Nat := (g.map fun e => if e.1 ∈ seen then 0 else e.2.length).sum

variable {g : Adjacency}

theorem unseen_insert {seen : NameSet} {id : String} (hnodup : (Keyed.keys g).Nodup) (hid : id ∉ seen) :
    g.unseen (seen.insert id) + (g.at id).length = g.unseen seen := by
  induction g with
  | nil => rfl
  | cons e rest ih =>
    obtain ⟨k, ids⟩ := e
    obtain ⟨hk, hrest⟩ := List.nodup_cons.mp (show (k :: Keyed.keys rest).Nodup from hnodup)
    have hcons : ∀ s, Adjacency.unseen ((k, ids) :: rest) s =
        (if k ∈ s then 0 else ids.length) + Adjacency.unseen rest s :=
      fun s => by simp [Adjacency.unseen]
    have ih := ih hrest
    by_cases he : id = k
    · subst he
      have hnone : Keyed.get? rest id = none := by
        cases hget : Keyed.get? rest id with
        | none => rfl
        | some v => exact absurd (Keyed.mem_keys.mpr (by rw [hget]; rfl)) hk
      have hat : Adjacency.at rest id = [] := by simp [Adjacency.at, hnone]
      have hat' : Adjacency.at ((id, ids) :: rest) id = ids := by simp [Adjacency.at, Keyed.get?_cons]
      rw [hat, List.length_nil] at ih
      rw [hcons, hcons, hat', if_pos (NameSet.mem_insert.mpr (Or.inl rfl)), if_neg hid]
      omega
    · have hat : Adjacency.at ((k, ids) :: rest) id = Adjacency.at rest id := by
        simp [Adjacency.at, Keyed.get?_cons, he]
      have hmem : k ∈ seen.insert id ↔ k ∈ seen := by rw [NameSet.mem_insert]; simp [Ne.symm he]
      rw [hcons, hcons, hat, if_congr hmem rfl rfl]
      omega

theorem size_eq (g : Adjacency) : g.size = g.unseen [] + g.length := by
  have step : ∀ (l : Adjacency) (n : Nat), l.foldl (fun n e => n + e.2.length + 1) n =
      n + Adjacency.unseen l [] + l.length := by
    intro l
    induction l with
    | nil => intro n; rfl
    | cons e rest ih =>
      intro n
      rw [List.foldl_cons, ih]
      simp only [Adjacency.unseen, List.map_cons, List.sum_cons, List.length_cons, List.not_mem_nil, if_false]
      omega
  have := step g 0
  rw [Nat.zero_add] at this
  exact this

end Adjacency

namespace Plan

variable {g : Adjacency}

/-- Zero or more steps lead from `a` to `b`. -/
def Walks (g : Adjacency) : String → String → Prop := Relation.ReflTransGen fun a b => b ∈ g.at a

/-- Whoever comes after a node of `seen` is in `seen` or on the list. -/
def Covered (g : Adjacency) (seen : NameSet) (stack : List String) : Prop :=
  ∀ x ∈ seen, ∀ y ∈ g.at x, y ∈ seen ∨ y ∈ stack

/-- A walk that leaves the set leaves it through the list. -/
theorem Covered.walks {seen : NameSet} {stack : List String} (h : Covered g seen stack) {x y : String}
    (hx : x ∈ seen) (hw : Walks g x y) : y ∈ seen ∨ ∃ z ∈ stack, Walks g z y := by
  induction hw with
  | refl => exact Or.inl hx
  | tail _ hbc ih =>
    rcases ih with hb | ⟨z, hz, hwalk⟩
    · exact (h _ hb _ hbc).imp_right fun hc => ⟨_, hc, .refl⟩
    · exact Or.inr ⟨z, hz, hwalk.tail hbc⟩

/-- A node that has been seen is taken off the list. -/
theorem Covered.skip {seen : NameSet} {id : String} {stack : List String} (h : Covered g seen (id :: stack))
    (hid : id ∈ seen) : Covered g seen stack := by
  intro x hx z hz
  rcases h x hx z hz with hz | hz
  · exact Or.inl hz
  · rcases List.mem_cons.mp hz with rfl | hz
    · exact Or.inl hid
    · exact Or.inr hz

/-- A node is seen, and the nodes after it are put on the list. -/
theorem Covered.visit {seen : NameSet} {id : String} {stack : List String} (h : Covered g seen (id :: stack)) :
    Covered g (seen.insert id) (g.at id ++ stack) := by
  intro x hx z hz
  rcases NameSet.mem_insert.mp hx with rfl | hx
  · exact Or.inr (List.mem_append_left _ hz)
  · rcases h x hx z hz with hz | hz
    · exact Or.inl (NameSet.mem_insert.mpr (Or.inr hz))
    · rcases List.mem_cons.mp hz with rfl | hz
      · exact Or.inl (NameSet.mem_insert.mpr (Or.inl rfl))
      · exact Or.inr (List.mem_append_right _ hz)

theorem Covered.perm {seen : NameSet} {todo todo' : List String} (h : Covered g seen todo) (hp : todo.Perm todo') :
    Covered g seen todo' := fun x hx y hy => (h x hx y hy).imp_right hp.mem_iff.mp

/-! ## Working off the list -/

/-- The nodes that have been seen, and the list of those still to be looked at. -/
structure Sweep where
  seen : NameSet
  todo : List String

namespace Sweep

/-- A node is taken off the list, wherever it stands. If it has been seen it is dropped; if not it
is seen now, and the nodes after it are put on the list, wherever. -/
inductive Next (g : Adjacency) : Sweep → Sweep → Prop
  | again {seen : NameSet} {todo rest : List String} {id : String} (taken : todo.Perm (id :: rest)) (old : id ∈ seen) :
      Next g ⟨seen, todo⟩ ⟨seen, rest⟩
  | anew {seen : NameSet} {todo rest more : List String} {id : String} (taken : todo.Perm (id :: rest))
      (new : id ∉ seen) (put : more.Perm (g.at id ++ rest)) : Next g ⟨seen, todo⟩ ⟨seen.insert id, more⟩

/-- How often a node can still be taken off the list. -/
def left (g : Adjacency) (s : Sweep) : Nat := s.todo.length + g.unseen s.seen

/-- The node has been seen, or the list leads to it. -/
def Finds (g : Adjacency) (s : Sweep) (y : String) : Prop := y ∈ s.seen ∨ ∃ z ∈ s.todo, Walks g z y

variable {s s' : Sweep} {y : String}

theorem Next.left_eq (hnodup : (Keyed.keys g).Nodup) (h : Next g s s') : s'.left g + 1 = s.left g := by
  cases h with
  | again taken old =>
    simp only [left, taken.length_eq, List.length_cons]
    omega
  | anew taken new put =>
    have hsize := Adjacency.unseen_insert hnodup new
    simp only [left, taken.length_eq, put.length_eq, List.length_cons, List.length_append]
    omega

/-- Whichever nodes are taken, the list is worked off at last. -/
theorem wellFounded_next (hnodup : (Keyed.keys g).Nodup) : WellFounded fun s' s => Next g s s' := by
  refine Subrelation.wf (fun {s' s} h => ?_) (measure (left g)).wf
  have hless := Next.left_eq hnodup h
  exact Nat.lt_of_lt_of_eq (Nat.lt_succ_self _) hless

/-- There is a node to take as long as the list has one. -/
theorem exists_next (h : s.todo ≠ []) : ∃ s', Next g s s' := by
  obtain ⟨seen, todo⟩ := s
  obtain ⟨id, rest, rfl⟩ := List.exists_cons_of_ne_nil h
  by_cases hid : id ∈ seen
  · exact ⟨_, .again (.refl _) hid⟩
  · exact ⟨_, .anew (.refl _) hid (.refl _)⟩

theorem Next.covered (h : Next g s s') (hc : Covered g s.seen s.todo) : Covered g s'.seen s'.todo := by
  cases h with
  | again taken old => exact (hc.perm taken).skip old
  | anew taken new put => exact (hc.perm taken).visit.perm put.symm

/-- Taking a node off the list changes nothing of what is found. -/
theorem Next.finds_iff (h : Next g s s') (hc : Covered g s.seen s.todo) : s'.Finds g y ↔ s.Finds g y := by
  have hc' := h.covered hc
  cases h with
  | @again seen todo rest id taken old =>
    simp only [Finds, taken.mem_iff, List.mem_cons, exists_eq_or_imp]
    constructor
    · exact Or.imp_right .inr
    · intro hy
      rcases hy with hy | hw | hy
      · exact .inl hy
      · exact hc'.walks old hw
      · exact .inr hy
  | @anew seen todo rest more id taken new put =>
    -- the node leads to itself and to what the nodes after it lead to
    have hid : Walks g id y ↔ y = id ∨ ∃ z ∈ g.at id, Walks g z y := by
      rw [Walks, Relation.ReflTransGen.cases_head_iff, eq_comm]
    have htodo : (∃ z ∈ todo, Walks g z y) ↔ Walks g id y ∨ ∃ z ∈ rest, Walks g z y := by
      simp only [taken.mem_iff, List.mem_cons, exists_eq_or_imp]
    have hmore : (∃ z ∈ more, Walks g z y) ↔ (∃ z ∈ g.at id, Walks g z y) ∨ ∃ z ∈ rest, Walks g z y := by
      simp only [put.mem_iff, List.mem_append, or_and_right, exists_or]
    rw [Finds, Finds, htodo, hmore, hid, NameSet.mem_insert]
    exact (or_assoc.trans or_left_comm).trans (or_congr_right or_assoc.symm)

theorem Next.ascending (h : Next g s s') (hs : s.seen.Pairwise (· < ·)) : s'.seen.Pairwise (· < ·) := by
  cases h with
  | again taken old => exact hs
  | anew taken new put => exact NameSet.ascending_insert hs _

/-- What was seen and what the list leads to is found in the end. -/
theorem finds_iff_of_sweeps (h : Relation.ReflTransGen (Next g) s s') (hc : Covered g s.seen s.todo) :
    Covered g s'.seen s'.todo ∧ (s'.Finds g y ↔ s.Finds g y) := by
  induction h with
  | refl => exact ⟨hc, Iff.rfl⟩
  | tail _ hnext ih => exact ⟨hnext.covered ih.1, (hnext.finds_iff ih.1).trans ih.2⟩

theorem ascending_of_sweeps (h : Relation.ReflTransGen (Next g) s s') (hs : s.seen.Pairwise (· < ·)) :
    s'.seen.Pairwise (· < ·) := by
  induction h with
  | refl => exact hs
  | tail _ hnext ih => exact hnext.ascending ih

end Sweep

/-- With enough fuel the closure works off the list. -/
theorem sweeps_closure (hnodup : (Keyed.keys g).Nodup) : ∀ (fuel : Nat) (seen : NameSet) (todo : List String),
    Sweep.left g ⟨seen, todo⟩ ≤ fuel →
      Relation.ReflTransGen (Sweep.Next g) ⟨seen, todo⟩ ⟨closure g fuel seen todo, []⟩ := by
  intro fuel
  induction fuel with
  | zero =>
    intro seen todo hfuel
    have : todo = [] := List.eq_nil_of_length_eq_zero (Nat.le_zero.mp ((Nat.le_add_right _ _).trans hfuel))
    rw [this]
    exact .refl
  | succ fuel ih =>
    intro seen todo hfuel
    cases todo with
    | nil => exact .refl
    | cons id rest =>
      by_cases hid : id ∈ seen
      · have hunfold : closure g (fuel + 1) seen (id :: rest) = closure g fuel seen rest := by
          simp [closure, hid]
        have hnext : Sweep.Next g ⟨seen, id :: rest⟩ ⟨seen, rest⟩ := .again (.refl _) hid
        have hleft := hnext.left_eq hnodup
        exact hunfold ▸ .head hnext (ih _ _ (by omega))
      · have hunfold : closure g (fuel + 1) seen (id :: rest) =
            closure g fuel (seen.insert id) (g.at id ++ rest) := by
          simp [closure, hid]
        have hnext : Sweep.Next g ⟨seen, id :: rest⟩ ⟨seen.insert id, g.at id ++ rest⟩ := .anew (.refl _) hid (.refl _)
        have hleft := hnext.left_eq hnodup
        exact hunfold ▸ .head hnext (ih _ _ (by omega))

theorem ascending_closure : ∀ (fuel : Nat) (seen : NameSet) (stack : List String), seen.Pairwise (· < ·) →
    (closure g fuel seen stack).Pairwise (· < ·) := by
  intro fuel
  induction fuel with
  | zero => intro seen stack h; exact h
  | succ fuel ih =>
    intro seen stack h
    cases stack with
    | nil => exact h
    | cons id stack =>
      unfold closure
      split
      · exact ih _ _ h
      · exact ih _ _ (NameSet.ascending_insert h id)

variable {d : Definition} {p : Plan} {a x : String}

theorem nodup_keys_consumers (h : ofDefinition d = .ok p) : (Keyed.keys p.consumers).Nodup := by
  obtain ⟨-, -, -, rfl⟩ := ofDefinition_eq_ok.mp h
  exact nodup_of_ascending (Keyed.ascending_keys (sorted_consumersOf d))

/-- The nodes behind a node are seen by working off the list of those right after it. -/
theorem sweeps_allDependents (h : ofDefinition d = .ok p) (a : String) :
    Relation.ReflTransGen (Sweep.Next p.consumers) ⟨[], p.dependents a⟩ ⟨p.allDependents a, []⟩ := by
  refine sweeps_closure (nodup_keys_consumers h) _ _ _ ?_
  obtain ⟨-, hj, -, rfl⟩ := ofDefinition_eq_ok.mp h
  -- the nodes right after one are distinct nodes
  have hlen : ((consumersOf d).at a).length ≤ (consumersOf d).length := by
    have hsub : (consumersOf d).at a ⊆ Keyed.keys (consumersOf d) := fun y hy =>
      (mem_keys_consumersOf hj).mpr (hj.target_mem (mem_consumersOf.mp hy))
    simpa [Keyed.keys] using (nodup_of_ascending (ascending_consumersOf d a)).length_le_of_subset hsub
  rw [Sweep.left, Adjacency.size_eq]
  simp only [dependents]
  omega

/-- Whoever works off that list has seen the nodes that one or more connections lead to. -/
theorem mem_seen_of_sweeps (h : ofDefinition d = .ok p) {seen : NameSet}
    (hs : Relation.ReflTransGen (Sweep.Next p.consumers) ⟨[], p.dependents a⟩ ⟨seen, []⟩) :
    x ∈ seen ↔ d.LeadsTo a x := by
  have hfinds := (Sweep.finds_iff_of_sweeps (y := x) hs fun _ hx => absurd hx List.not_mem_nil).2
  obtain ⟨-, -, -, rfl⟩ := ofDefinition_eq_ok.mp h
  simpa [Sweep.Finds, dependents, Walks, mem_consumersOf, Definition.LeadsTo, Relation.TransGen.head'_iff] using hfinds

/-- The nodes behind a node are exactly those that one or more connections lead to. -/
theorem mem_allDependents (h : ofDefinition d = .ok p) : x ∈ p.allDependents a ↔ d.LeadsTo a x :=
  mem_seen_of_sweeps h (sweeps_allDependents h a)

theorem ascending_allDependents (p : Plan) (a : String) : (p.allDependents a).Pairwise (· < ·) :=
  ascending_closure _ _ _ List.Pairwise.nil

/-- Wherever the search from the nodes right after one can go no further, it has seen the nodes behind it. -/
theorem eq_of_sweeps (h : ofDefinition d = .ok p) {s : Sweep}
    (hs : Relation.ReflTransGen (Sweep.Next p.consumers) ⟨[], p.dependents a⟩ s)
    (hend : ∀ s', ¬ Sweep.Next p.consumers s s') : s = ⟨p.allDependents a, []⟩ := by
  have hempty : s.todo = [] := by
    by_contra hne
    obtain ⟨s', hnext⟩ := Sweep.exists_next (g := p.consumers) hne
    exact hend s' hnext
  obtain ⟨seen, todo⟩ := s
  subst hempty
  have hascending : seen.Pairwise (· < ·) := Sweep.ascending_of_sweeps hs List.Pairwise.nil
  have hseen : seen = p.allDependents a := hascending.eq_of_mem_iff (ascending_allDependents p a) fun y =>
    (mem_seen_of_sweeps h hs).trans (mem_allDependents h).symm
  rw [hseen]

theorem length_allDependents_le (h : ofDefinition d = .ok p) (a : String) :
    (p.allDependents a).length ≤ p.order.length :=
  (nodup_of_ascending (ascending_allDependents p a)).length_le_of_subset fun _ hx =>
    (mem_order_of_leadsTo h ((mem_allDependents h).mp hx)).2

end Plan
end Workflows
