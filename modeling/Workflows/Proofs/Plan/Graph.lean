/-
  Workflows.Proofs.Plan.Graph — the graph of a definition, and what planning keeps of it.

  `Feeds d a b` says that some connection of `d` goes from `a` to `b`, `LeadsTo` that one or
  more of them do. Planning keeps two adjacencies: under each node the nodes that feed it and
  the nodes that it feeds, each distinct and ascending (`mem_producersOf`, `mem_consumersOf`).
  `ofDefinition_eq_ok` says what a definition has passed when it has a plan.
-/

import Mathlib.Logic.Relation
import Workflows.Graph.Plan
import Workflows.Proofs.Keyed

namespace Workflows

namespace Definition

/-- Some connection goes from `a` to `b`. -/
def Feeds (d : Definition) (a b : String) : Prop := ∃ c ∈ d.connections, c.source = a ∧ c.target = b

/-- One or more connections lead from `a` to `b`. -/
def LeadsTo (d : Definition) : String → String → Prop := Relation.TransGen d.Feeds

/-- The ids of the nodes, as listed. -/
def ids (d : Definition) : List String := d.nodes.map (·.id)

/-- Every connection joins nodes that are there. -/
def Joined (d : Definition) : Prop := ∀ c ∈ d.connections, c.source ∈ d.ids ∧ c.target ∈ d.ids

variable {d : Definition} {a b : String}

theorem Joined.source_mem (h : d.Joined) (hf : d.Feeds a b) : a ∈ d.ids := by
  obtain ⟨c, hc, rfl, -⟩ := hf
  exact (h c hc).1

theorem Joined.target_mem (h : d.Joined) (hf : d.Feeds a b) : b ∈ d.ids := by
  obtain ⟨c, hc, -, rfl⟩ := hf
  exact (h c hc).2

theorem Joined.leadsTo_mem (h : d.Joined) (hl : d.LeadsTo a b) : a ∈ d.ids ∧ b ∈ d.ids := by
  induction hl with
  | single hf => exact ⟨h.source_mem hf, h.target_mem hf⟩
  | tail _ hf ih => exact ⟨ih.1, h.target_mem hf⟩

end Definition

/-! ## Adjacencies -/

namespace Adjacency

variable {γ : Type}

theorem at_insert (g : Adjacency) (key x : String) (ids : NameSet) :
    Adjacency.at (Keyed.insert g key ids) x = if x = key then ids else g.at x := by
  by_cases h : x = key <;> simp [Adjacency.at, Keyed.get?_insert, h]

theorem at_add (g : Adjacency) (key value x : String) :
    (g.add key value).at x = if x = key then (g.at key).insert value else g.at x :=
  at_insert g key x _

/-- Adds a pair for each member of a list. -/
def addAll (g : Adjacency) (key value : γ → String) (l : List γ) : Adjacency :=
  l.foldl (fun g c => g.add (key c) (value c)) g

theorem mem_at_addAll (g : Adjacency) (key value : γ → String) (l : List γ) (x y : String) :
    y ∈ (g.addAll key value l).at x ↔ y ∈ g.at x ∨ ∃ c ∈ l, key c = x ∧ value c = y := by
  induction l generalizing g with
  | nil => simp [addAll]
  | cons c l ih =>
    have step : g.addAll key value (c :: l) = (g.add (key c) (value c)).addAll key value l := rfl
    rw [step, ih, at_add]
    by_cases h : x = key c
    · subst h
      rw [if_pos rfl, NameSet.mem_insert, eq_comm]
      simp only [List.mem_cons, exists_eq_or_imp, true_and]
      exact or_assoc.trans or_left_comm
    · have h' : ¬ key c = x := fun e => h e.symm
      simp [h, h']

theorem ascending_at_addAll {g : Adjacency} (key value : γ → String) (l : List γ)
    (h : ∀ x, (g.at x).Pairwise (· < ·)) (x : String) : ((g.addAll key value l).at x).Pairwise (· < ·) := by
  induction l generalizing g with
  | nil => exact h x
  | cons c l ih =>
    refine ih (g := g.add (key c) (value c)) fun y => ?_
    rw [at_add]
    split
    · exact NameSet.ascending_insert (h _) _
    · exact h y

theorem mem_keys_addAll (g : Adjacency) (key value : γ → String) (l : List γ) (x : String) :
    x ∈ Keyed.keys (g.addAll key value l) ↔ x ∈ Keyed.keys g ∨ ∃ c ∈ l, key c = x := by
  induction l generalizing g with
  | nil => simp [addAll]
  | cons c l ih =>
    have step : g.addAll key value (c :: l) = (g.add (key c) (value c)).addAll key value l := rfl
    have hkeys : x ∈ Keyed.keys (g.add (key c) (value c)) ↔ x = key c ∨ x ∈ Keyed.keys g :=
      Keyed.mem_keys_insert
    rw [step, ih, hkeys, eq_comm]
    simp only [List.mem_cons, exists_eq_or_imp]
    exact or_assoc.trans or_left_comm

theorem sorted_addAll {g : Adjacency} (key value : γ → String) (l : List γ) (h : Keyed.Sorted g) :
    Keyed.Sorted (g.addAll key value l) := by
  induction l generalizing g with
  | nil => exact h
  | cons c l ih => exact ih (g := g.add (key c) (value c)) (Keyed.sorted_insert h _ _)

end Adjacency

namespace Plan

variable {d : Definition} {p : Plan} {a b : String}

/-! ## The graph of a definition -/

theorem at_bare (nodes : List Node) (x : String) : (bare nodes).at x = [] := by
  have step : ∀ g : Adjacency, (∀ x, g.at x = []) →
      Adjacency.at (nodes.foldl (fun g n => Keyed.insert g n.id []) g) x = [] := by
    induction nodes with
    | nil => intro g h; exact h x
    | cons n rest ih =>
      intro g h
      refine ih _ fun y => ?_
      rw [Adjacency.at_insert]
      split
      · rfl
      · exact h y
  exact step [] fun _ => rfl

theorem mem_keys_bare (nodes : List Node) (x : String) :
    x ∈ Keyed.keys (bare nodes) ↔ x ∈ nodes.map (·.id) := by
  have step : ∀ g : Adjacency, x ∈ Keyed.keys (nodes.foldl (fun g n => Keyed.insert g n.id []) g) ↔
      x ∈ Keyed.keys g ∨ x ∈ nodes.map (·.id) := by
    induction nodes with
    | nil => intro g; simp
    | cons n rest ih =>
      intro g
      rw [List.foldl_cons, ih, Keyed.mem_keys_insert, List.map_cons, List.mem_cons]
      exact or_assoc.trans or_left_comm
  have := step []
  rwa [show Keyed.keys ([] : Adjacency) = [] from rfl, List.mem_nil_iff, false_or] at this

theorem sorted_bare (nodes : List Node) : Keyed.Sorted (bare nodes) := by
  have step : ∀ g : Adjacency, Keyed.Sorted g →
      Keyed.Sorted (nodes.foldl (fun g n => Keyed.insert g n.id []) g) := by
    induction nodes with
    | nil => intro g h; exact h
    | cons n rest ih => intro g h; exact ih _ (Keyed.sorted_insert h _ _)
  exact step [] Keyed.sorted_nil

theorem consumersOf_eq (d : Definition) :
    consumersOf d = (bare d.nodes).addAll Connection.source Connection.target d.connections := rfl

theorem producersOf_eq (d : Definition) :
    producersOf d = (bare d.nodes).addAll Connection.target Connection.source d.connections := rfl

theorem mem_consumersOf : b ∈ (consumersOf d).at a ↔ d.Feeds a b := by
  rw [consumersOf_eq, Adjacency.mem_at_addAll, at_bare]
  simp [Definition.Feeds]

theorem mem_producersOf : a ∈ (producersOf d).at b ↔ d.Feeds a b := by
  rw [producersOf_eq, Adjacency.mem_at_addAll, at_bare]
  simp only [List.not_mem_nil, false_or, Definition.Feeds]
  exact exists_congr fun c => and_congr_right fun _ => and_comm

theorem ascending_consumersOf (d : Definition) (x : String) : ((consumersOf d).at x).Pairwise (· < ·) :=
  Adjacency.ascending_at_addAll _ _ _ (fun y => by rw [at_bare]; exact List.Pairwise.nil) x

theorem ascending_producersOf (d : Definition) (x : String) : ((producersOf d).at x).Pairwise (· < ·) :=
  Adjacency.ascending_at_addAll _ _ _ (fun y => by rw [at_bare]; exact List.Pairwise.nil) x

theorem sorted_consumersOf (d : Definition) : Keyed.Sorted (consumersOf d) :=
  Adjacency.sorted_addAll _ _ _ (sorted_bare _)

theorem sorted_producersOf (d : Definition) : Keyed.Sorted (producersOf d) :=
  Adjacency.sorted_addAll _ _ _ (sorted_bare _)

theorem mem_keys_consumersOf (h : d.Joined) : a ∈ Keyed.keys (consumersOf d) ↔ a ∈ d.ids := by
  rw [consumersOf_eq, Adjacency.mem_keys_addAll, mem_keys_bare]
  refine ⟨fun hor => ?_, Or.inl⟩
  rcases hor with hmem | ⟨c, hc, rfl⟩
  · exact hmem
  · exact (h c hc).1

theorem mem_keys_producersOf (h : d.Joined) : a ∈ Keyed.keys (producersOf d) ↔ a ∈ d.ids := by
  rw [producersOf_eq, Adjacency.mem_keys_addAll, mem_keys_bare]
  refine ⟨fun hor => ?_, Or.inl⟩
  rcases hor with hmem | ⟨c, hc, rfl⟩
  · exact hmem
  · exact (h c hc).2

/-! ## What a definition with a plan has passed -/

theorem distinctIds_eq_ok {seen ids : List String} {nodes : List Node} :
    distinctIds seen nodes = .ok ids ↔ (∀ n ∈ nodes, n.id ∉ seen) ∧ (nodes.map (·.id)).Nodup ∧
      ids = (nodes.map (·.id)).reverse ++ seen := by
  induction nodes generalizing seen with
  | nil => simp [distinctIds, eq_comm]
  | cons n rest ih =>
    simp only [distinctIds, List.contains_iff_mem]
    by_cases h : n.id ∈ seen
    · simp [h]
    · rw [if_neg h, ih]
      simp only [List.mem_cons, forall_eq_or_imp, List.map_cons, List.nodup_cons, List.mem_map, not_exists,
        not_and, List.reverse_cons, List.append_assoc, List.singleton_append]
      constructor
      · intro hall
        obtain ⟨hseen, hnodup, rfl⟩ := hall
        exact ⟨⟨h, fun m hm hmem => hseen m hm (Or.inr hmem)⟩, ⟨fun m hm e => hseen m hm (Or.inl e), hnodup⟩, rfl⟩
      · intro hall
        obtain ⟨⟨-, hseen⟩, ⟨hne, hnodup⟩, rfl⟩ := hall
        exact ⟨fun m hm hor => hor.elim (hne m hm) (hseen m hm), hnodup, rfl⟩

theorem strayEnd?_eq_none {ids : List String} {c : Connection} :
    strayEnd? ids c = none ↔ c.source ∈ ids ∧ c.target ∈ ids := by
  simp only [strayEnd?, Bool.not_eq_true', List.contains_eq_mem, decide_eq_false_iff_not]
  by_cases hs : c.source ∈ ids <;> by_cases ht : c.target ∈ ids <;> simp [hs, ht]

theorem checkEnds_eq_ok {ids : List String} {cs : List Connection} :
    checkEnds ids cs = .ok () ↔ ∀ c ∈ cs, c.source ∈ ids ∧ c.target ∈ ids := by
  have hnone : (cs.findSome? fun c => (strayEnd? ids c).map fun n => PlanError.unknownNode c.id n) = none ↔
      ∀ c ∈ cs, c.source ∈ ids ∧ c.target ∈ ids := by
    rw [List.findSome?_eq_none_iff]
    exact forall₂_congr fun c _ => by rw [Option.map_eq_none_iff, strayEnd?_eq_none]
  rw [← hnone, checkEnds]
  split
  · rename_i e he; simp [he]
  · rename_i he; simp [he]

/-- A definition has a plan exactly when its ids are distinct, its connections join nodes and
the search meets no cycle; the plan is then made of its two adjacencies. -/
theorem ofDefinition_eq_ok : ofDefinition d = .ok p ↔ d.ids.Nodup ∧ d.Joined ∧
    findCycle? (consumersOf d) = none ∧
    p = ⟨orderOf (producersOf d) (consumersOf d), rootsOf (producersOf d), producersOf d, consumersOf d⟩ := by
  simp only [ofDefinition, bind, Except.bind]
  cases hids : distinctIds [] d.nodes with
  | error e =>
    have hdup : ¬ d.ids.Nodup := fun hn => by
      rw [distinctIds_eq_ok.mpr ⟨fun _ _ => List.not_mem_nil, hn, rfl⟩] at hids
      cases hids
    exact ⟨fun h => (by cases h), fun h => absurd h.1 hdup⟩
  | ok ids =>
    obtain ⟨-, hnodup, rfl⟩ := distinctIds_eq_ok.mp hids
    have hjoin : checkEnds ((d.nodes.map (·.id)).reverse ++ []) d.connections = .ok () ↔ d.Joined := by
      rw [checkEnds_eq_ok]
      exact forall₂_congr fun c _ => by simp [Definition.ids]
    dsimp only
    cases hends : checkEnds ((d.nodes.map (·.id)).reverse ++ []) d.connections with
    | error e =>
      refine ⟨fun h => (by cases h), fun h => ?_⟩
      rw [hjoin.mpr h.2.1] at hends
      cases hends
    | ok u =>
      cases hcyc : findCycle? (consumersOf d) with
      | some nodes => exact ⟨fun h => (by cases h), fun h => (by cases h.2.2.1)⟩
      | none =>
        refine ⟨fun h => ⟨hnodup, hjoin.mp hends, rfl, (Except.ok.inj h).symm⟩, fun h => ?_⟩
        rw [h.2.2.2]
        rfl

end Plan
end Workflows
