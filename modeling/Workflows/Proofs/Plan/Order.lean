/-
  Workflows.Proofs.Plan.Order — the order of a plan lists every node once, each after the nodes
  that feed it.

  Taking the smallest ready node again and again keeps an invariant (`Taking`): the nodes taken
  are distinct and come after all that feed them, each count is the number of producers not
  taken yet, and the ready nodes are those whose producers have all been taken. When no node is
  ready none is left, because connections are well founded.
-/

import Workflows.Proofs.Plan.Cycles

namespace Workflows

namespace Adjacency

/-- How many of the nodes under `id` are not `ok`. -/
def lacking (g : Adjacency) (ok : String → Bool) (id : String) : Nat := (g.at id).countP (!ok ·)

variable {g : Adjacency} {ok ok' : String → Bool} {id n : String}

theorem lacking_eq_zero : g.lacking ok id = 0 ↔ ∀ a ∈ g.at id, ok a = true := by
  simp [lacking, List.countP_eq_zero]

/-- One more node that is `ok` takes one off the count of whoever has it. -/
theorem lacking_mark (hnodup : (g.at id).Nodup) (hn : ok n = false) (h : ∀ a, ok' a = (ok a || a == n)) :
    g.lacking ok id = g.lacking ok' id + if n ∈ g.at id then 1 else 0 := by
  unfold lacking
  generalize g.at id = l at hnodup
  induction l with
  | nil => rfl
  | cons a rest ih =>
    obtain ⟨ha, hrest⟩ := List.nodup_cons.mp hnodup
    rw [List.countP_cons, List.countP_cons, ih hrest, h a]
    by_cases han : a = n
    · subst han
      simp [hn, ha]
    · have hna : n ∈ a :: rest ↔ n ∈ rest := by simp [Ne.symm han]
      simp only [hna, beq_eq_false_iff_ne.mpr han, Bool.or_false]
      omega

end Adjacency

namespace Plan

variable {d : Definition} {p : Plan} {a x : String}

/-! ## Counting down -/

theorem get?_releaseAll (counts : Keyed Nat) (ready : NameSet) {l : List String} (hl : l.Nodup) (x : String) :
    Keyed.get? (releaseAll counts ready l).1 x =
      if x ∈ l then (Keyed.get? counts x).map (· - 1) else Keyed.get? counts x := by
  induction l generalizing counts ready with
  | nil => simp [releaseAll]
  | cons id rest ih =>
    obtain ⟨hid, hrest⟩ := List.nodup_cons.mp hl
    simp only [releaseAll, List.foldl_cons]
    cases hget : Keyed.get? counts id with
    | none =>
      rw [show (List.foldl _ (counts, ready) rest) = releaseAll counts ready rest from rfl, ih _ _ hrest]
      by_cases hx : x = id
      · subst hx; simp [hid, hget]
      · simp [hx]
    | some n =>
      dsimp only
      rw [show ∀ c r, (List.foldl _ (c, r) rest) = releaseAll c r rest from fun _ _ => rfl, ih _ _ hrest,
        Keyed.get?_insert]
      by_cases hx : x = id
      · subst hx; simp [hid, hget]
      · simp [hx]

theorem mem_releaseAll (counts : Keyed Nat) (ready : NameSet) {l : List String} (hl : l.Nodup) (x : String) :
    x ∈ (releaseAll counts ready l).2 ↔
      x ∈ ready ∨ x ∈ l ∧ (Keyed.get? counts x).map (· - 1) = some 0 := by
  induction l generalizing counts ready with
  | nil => simp [releaseAll]
  | cons id rest ih =>
    obtain ⟨hid, hrest⟩ := List.nodup_cons.mp hl
    simp only [releaseAll, List.foldl_cons]
    cases hget : Keyed.get? counts id with
    | none =>
      rw [show (List.foldl _ (counts, ready) rest) = releaseAll counts ready rest from rfl, ih _ _ hrest]
      by_cases hx : x = id
      · subst hx; simp [hid, hget]
      · simp [hx]
    | some n =>
      dsimp only
      rw [show ∀ c r, (List.foldl _ (c, r) rest) = releaseAll c r rest from fun _ _ => rfl, ih _ _ hrest,
        Keyed.get?_insert]
      by_cases hx : x = id
      · subst hx
        by_cases hn : n - 1 = 0 <;> simp [hid, hget, hn, NameSet.mem_insert]
      · by_cases hn : n - 1 = 0 <;> simp [hx, hn, NameSet.mem_insert]

theorem ascending_releaseAll (counts : Keyed Nat) {ready : NameSet} (h : ready.Pairwise (· < ·)) (l : List String) :
    (releaseAll counts ready l).2.Pairwise (· < ·) := by
  induction l generalizing counts ready with
  | nil => exact h
  | cons id rest ih =>
    simp only [releaseAll, List.foldl_cons]
    cases Keyed.get? counts id with
    | none => exact ih counts h
    | some n =>
      dsimp only
      split
      · exact ih _ (NameSet.ascending_insert h id)
      · exact ih _ h

/-! ## Taking nodes -/

/-- What holds between two nodes that are taken: `done` are those taken so far. -/
structure Taking (d : Definition) (done : List String) (counts : Keyed Nat) (ready : NameSet) : Prop where
  nodup : done.Nodup
  nodes : ∀ x ∈ done, x ∈ d.ids
  before : ∀ x ∈ done, ∀ a, d.Feeds a x → a ∈ done
  counted : ∀ x ∈ d.ids, Keyed.get? counts x = some ((producersOf d).lacking (decide <| · ∈ done) x)
  ready_iff : ∀ x, x ∈ ready ↔ x ∈ d.ids ∧ x ∉ done ∧ ∀ a, d.Feeds a x → a ∈ done
  ascending : ready.Pairwise (· < ·)

theorem lacking_producersOf_eq_zero {ok : String → Bool} :
    (producersOf d).lacking ok x = 0 ↔ ∀ a, d.Feeds a x → ok a = true := by
  rw [Adjacency.lacking_eq_zero]
  exact forall_congr' fun a => by rw [mem_producersOf]

section

variable {done : List String} {counts : Keyed Nat} {id : String} {rest : NameSet} {y : String}

/-- Taking a node takes one off the count of each node that it feeds. -/
theorem Taking.lacking_take (h : Taking d done counts (id :: rest)) (y : String) :
    (producersOf d).lacking (decide <| · ∈ done) y =
      (producersOf d).lacking (decide <| · ∈ done ++ [id]) y + if id ∈ (producersOf d).at y then 1 else 0 := by
  have hnew := ((h.ready_iff id).mp List.mem_cons_self).2.1
  exact Adjacency.lacking_mark (nodup_of_ascending (ascending_producersOf d y)) (by simpa using hnew)
    fun a => by simp [beq_eq_decide]

theorem Taking.counted_take (h : Taking d done counts (id :: rest)) (hy : y ∈ d.ids) :
    Keyed.get? (releaseAll counts rest ((consumersOf d).at id)).1 y =
      some ((producersOf d).lacking (decide <| · ∈ done ++ [id]) y) := by
  rw [get?_releaseAll _ _ (nodup_of_ascending (ascending_consumersOf d id)), h.counted y hy, h.lacking_take y]
  by_cases hf : d.Feeds id y
  · rw [if_pos (mem_consumersOf.mpr hf), if_pos (mem_producersOf.mpr hf)]
    simp
  · rw [if_neg (fun hmem => hf (mem_consumersOf.mp hmem)), if_neg (fun hmem => hf (mem_producersOf.mp hmem))]
    simp

/-- A node that was ready before still is, and so is a node whose last producer has been taken. -/
theorem Taking.ready_take (hj : d.Joined) (h : Taking d done counts (id :: rest)) :
    y ∈ (releaseAll counts rest ((consumersOf d).at id)).2 ↔
      y ∈ d.ids ∧ y ∉ done ++ [id] ∧ ∀ a, d.Feeds a y → a ∈ done ++ [id] := by
  obtain ⟨hid, hnew, hfed⟩ := (h.ready_iff id).mp List.mem_cons_self
  have hleast := (List.pairwise_cons.mp h.ascending).1
  have hone : d.Feeds id y → ((Keyed.get? counts y).map (· - 1) = some 0 ↔ ∀ a, d.Feeds a y → a ∈ done ++ [id]) := by
    intro hf
    rw [h.counted y (hj.target_mem hf), h.lacking_take y, if_pos (mem_producersOf.mpr hf)]
    simp only [Option.map_some, Option.some.injEq, Nat.add_sub_cancel, lacking_producersOf_eq_zero, decide_eq_true_eq]
  rw [mem_releaseAll _ _ (nodup_of_ascending (ascending_consumersOf d id))]
  constructor
  · intro hy
    rcases hy with hy | ⟨hy, hcount⟩
    · obtain ⟨hnode, hopen, hbefore⟩ := (h.ready_iff y).mp (List.mem_cons_of_mem _ hy)
      refine ⟨hnode, ?_, fun a ha => List.mem_append_left _ (hbefore a ha)⟩
      intro hmem
      rcases List.mem_append.mp hmem with hmem | hmem
      · exact hopen hmem
      · rw [List.mem_singleton] at hmem; subst hmem
        exact String.lt_irrefl _ (hleast y hy)
    · have hf := mem_consumersOf.mp hy
      refine ⟨hj.target_mem hf, ?_, (hone hf).mp hcount⟩
      -- a node taken before, or this one, would have been fed by a node not taken yet
      intro hmem
      rcases List.mem_append.mp hmem with hmem | hmem
      · exact hnew (h.before y hmem id hf)
      · rw [List.mem_singleton] at hmem; subst hmem
        exact hnew (hfed y hf)
  · intro hready
    obtain ⟨hnode, hopen, hbefore⟩ := hready
    by_cases hf : d.Feeds id y
    · exact Or.inr ⟨mem_consumersOf.mpr hf, (hone hf).mpr hbefore⟩
    · left
      have hy : y ∈ id :: rest := by
        refine (h.ready_iff y).mpr ⟨hnode, fun hmem => hopen (List.mem_append_left _ hmem), fun a ha => ?_⟩
        rcases List.mem_append.mp (hbefore a ha) with hmem | hmem
        · exact hmem
        · rw [List.mem_singleton] at hmem; subst hmem; exact absurd ha hf
      rcases List.mem_cons.mp hy with rfl | hy
      · exact absurd (List.mem_append_right _ (List.mem_singleton.mpr rfl)) hopen
      · exact hy

/-- The next node is taken. -/
theorem Taking.take (hj : d.Joined) (h : Taking d done counts (id :: rest)) :
    Taking d (done ++ [id]) (releaseAll counts rest ((consumersOf d).at id)).1
      (releaseAll counts rest ((consumersOf d).at id)).2 := by
  obtain ⟨hid, hnew, hfed⟩ := (h.ready_iff id).mp List.mem_cons_self
  refine
    { nodup := List.nodup_append.mpr ⟨h.nodup, List.nodup_singleton id, ?_⟩
      nodes := fun y hy => ?_
      before := fun y hy a ha => List.mem_append_left _ ?_
      counted := fun y hy => h.counted_take hy
      ready_iff := fun y => h.ready_take hj
      ascending := ascending_releaseAll _ (List.pairwise_cons.mp h.ascending).2 _ }
  · intro y hy z hz heq
    rw [List.mem_singleton] at hz; subst hz; subst heq
    exact hnew hy
  · rcases List.mem_append.mp hy with hy | hy
    · exact h.nodes y hy
    · rw [List.mem_singleton] at hy; rw [hy]; exact hid
  · rcases List.mem_append.mp hy with hy | hy
    · exact h.before y hy a ha
    · rw [List.mem_singleton] at hy; subst hy; exact hfed a ha

end

/-- What a list of nodes taken after `done` has to be. -/
structure Taken (d : Definition) (done order : List String) : Prop where
  nodup : (done ++ order).Nodup
  nodes : ∀ x ∈ order, x ∈ d.ids
  all : ∀ x ∈ d.ids, x ∈ done ++ order
  fed : ∀ pre x post, order = pre ++ x :: post → ∀ a, d.Feeds a x → a ∈ done ++ pre

theorem takeReady_taken (hj : d.Joined) (hwf : WellFounded d.Feeds) : ∀ (fuel : Nat) (done : List String)
    (counts : Keyed Nat) (ready : NameSet), Taking d done counts ready → d.ids.length ≤ fuel + done.length →
      Taken d done (takeReady (consumersOf d) fuel counts ready) := by
  have stop : ∀ done, (∀ x ∈ d.ids, x ∈ done) → done.Nodup → Taken d done [] := by
    intro done hall hnodup
    exact ⟨by simpa using hnodup, fun _ hx => (by cases hx), by simpa using hall, fun pre x post e => by simp at e⟩
  intro fuel
  induction fuel with
  | zero =>
    intro done counts ready h hfuel
    refine stop done (fun x hx => ?_) h.nodup
    -- a node not taken would make more nodes than there are
    by_contra hmem
    have hsub : x :: done ⊆ d.ids := by
      intro y hy
      rcases List.mem_cons.mp hy with rfl | hy
      · exact hx
      · exact h.nodes y hy
    have hle := (List.nodup_cons.mpr ⟨hmem, h.nodup⟩).length_le_of_subset hsub
    simp only [List.length_cons] at hle
    omega
  | succ fuel ih =>
    intro done counts ready h hfuel
    cases ready with
    | nil =>
      refine stop done (fun x => ?_) h.nodup
      induction x using hwf.induction with
      | _ x ihx =>
        intro hx
        by_contra hmem
        exact absurd ((h.ready_iff x).mpr ⟨hx, hmem, fun a ha => ihx a ha (hj.source_mem ha)⟩) List.not_mem_nil
    | cons id rest =>
      have hstep := h.take hj
      obtain ⟨h1, h2, h3, h4⟩ := ih _ _ _ hstep (by simp only [List.length_append, List.length_singleton]; omega)
      obtain ⟨hid, -, hfed⟩ := (h.ready_iff id).mp List.mem_cons_self
      have hunfold : takeReady (consumersOf d) (fuel + 1) counts (id :: rest) =
          id :: takeReady (consumersOf d) fuel (releaseAll counts rest ((consumersOf d).at id)).1
            (releaseAll counts rest ((consumersOf d).at id)).2 := rfl
      rw [hunfold]
      simp only [List.append_assoc, List.singleton_append] at h1 h3 h4
      refine ⟨h1, fun x hx => ?_, h3, fun pre x post e a ha => ?_⟩
      · rcases List.mem_cons.mp hx with rfl | hx
        · exact hid
        · exact h2 x hx
      · cases pre with
        | nil =>
          obtain ⟨rfl, -⟩ := List.cons.inj e
          simpa using hfed a ha
        | cons y pre =>
          simp only [List.cons_append, List.cons.injEq] at e
          obtain ⟨rfl, e⟩ := e
          exact h4 pre x post e a ha

/-! ## The order of a plan -/

theorem mem_rootsOf (hj : d.Joined) : x ∈ rootsOf (producersOf d) ↔ x ∈ d.ids ∧ ∀ a, ¬ d.Feeds a x := by
  have hat : ∀ names, (x, names) ∈ producersOf d → (producersOf d).at x = names := fun names hmem => by
    have := Keyed.get?_of_mem (nodup_of_ascending (Keyed.ascending_keys (sorted_producersOf d))) hmem
    simp [Adjacency.at, this]
  have hnone : (producersOf d).at x = [] ↔ ∀ a, ¬ d.Feeds a x := by
    rw [List.eq_nil_iff_forall_not_mem]
    exact forall_congr' fun a => by rw [mem_producersOf]
  rw [← mem_keys_producersOf hj, ← hnone]
  constructor
  · intro hroot
    obtain ⟨⟨k, names⟩, hmem, rfl⟩ := List.mem_map.mp hroot
    obtain ⟨hmem, hempty⟩ := List.mem_filter.mp hmem
    exact ⟨List.mem_map.mpr ⟨_, hmem, rfl⟩, (hat _ hmem).trans (List.isEmpty_iff.mp hempty)⟩
  · intro hroot
    obtain ⟨hkey, hempty⟩ := hroot
    obtain ⟨⟨k, names⟩, hmem, rfl⟩ := List.mem_map.mp hkey
    have hnames : names = [] := (hat _ hmem).symm.trans hempty
    exact List.mem_map.mpr ⟨_, List.mem_filter.mpr ⟨hmem, List.isEmpty_iff.mpr hnames⟩, rfl⟩

theorem ascending_rootsOf (d : Definition) : (rootsOf (producersOf d)).Pairwise (· < ·) := by
  have hsub : (rootsOf (producersOf d)).Sublist (Keyed.keys (producersOf d)) := List.filter_sublist.map _
  exact (Keyed.ascending_keys (sorted_producersOf d)).sublist hsub

theorem taking_start (hj : d.Joined) :
    Taking d [] (Keyed.mapValues List.length (producersOf d)) (rootsOf (producersOf d)) := by
  refine ⟨List.nodup_nil, fun _ hx => (by cases hx), fun _ hx => (by cases hx), fun x hx => ?_, fun x => ?_,
    ascending_rootsOf d⟩
  · obtain ⟨names, hnames⟩ := Option.isSome_iff_exists.mp (Keyed.mem_keys.mp ((mem_keys_producersOf hj).mpr hx))
    rw [Keyed.get?_mapValues, hnames]
    simp [Adjacency.lacking, Adjacency.at, hnames]
  · rw [mem_rootsOf hj]
    simp

theorem length_producersOf (hj : d.Joined) (hn : d.ids.Nodup) : (producersOf d).length = d.ids.length := by
  have hkeys := nodup_of_ascending (Keyed.ascending_keys (sorted_producersOf d))
  have hperm : (Keyed.keys (producersOf d)).Perm d.ids :=
    (List.perm_ext_iff_of_nodup hkeys hn).mpr fun _ => mem_keys_producersOf hj
  simpa [Keyed.keys] using hperm.length_eq

theorem taken_order (h : ofDefinition d = .ok p) : Taken d [] p.order := by
  obtain ⟨hn, hj, -, rfl⟩ := ofDefinition_eq_ok.mp h
  refine takeReady_taken hj (wellFounded_feeds h) _ _ _ _ (taking_start hj) ?_
  rw [length_producersOf hj hn]
  exact Nat.le_add_right _ _

theorem mem_order (h : ofDefinition d = .ok p) : x ∈ p.order ↔ x ∈ d.ids :=
  ⟨(taken_order h).nodes x, fun hx => by simpa using (taken_order h).all x hx⟩

theorem nodup_order (h : ofDefinition d = .ok p) : p.order.Nodup := by simpa using (taken_order h).nodup

/-- Whatever feeds a node comes before it. -/
theorem mem_before_of_feeds (h : ofDefinition d = .ok p) {pre post : List String}
    (he : p.order = pre ++ x :: post) (hf : d.Feeds a x) : a ∈ pre := by
  simpa using (taken_order h).fed pre x post he a hf

theorem mem_roots (h : ofDefinition d = .ok p) : x ∈ p.roots ↔ x ∈ p.order ∧ ∀ a, ¬ d.Feeds a x := by
  rw [mem_order h]
  obtain ⟨-, hj, -, rfl⟩ := ofDefinition_eq_ok.mp h
  exact mem_rootsOf hj

theorem mem_dependencies (h : ofDefinition d = .ok p) : a ∈ p.dependencies x ↔ d.Feeds a x := by
  obtain ⟨-, -, -, rfl⟩ := ofDefinition_eq_ok.mp h
  exact mem_producersOf

theorem ascending_dependencies (h : ofDefinition d = .ok p) (x : String) : (p.dependencies x).Pairwise (· < ·) := by
  obtain ⟨-, -, -, rfl⟩ := ofDefinition_eq_ok.mp h
  exact ascending_producersOf d x

theorem mem_dependents (h : ofDefinition d = .ok p) : x ∈ p.dependents a ↔ d.Feeds a x := by
  obtain ⟨-, -, -, rfl⟩ := ofDefinition_eq_ok.mp h
  exact mem_consumersOf

theorem ascending_dependents (h : ofDefinition d = .ok p) (x : String) : (p.dependents x).Pairwise (· < ·) := by
  obtain ⟨-, -, -, rfl⟩ := ofDefinition_eq_ok.mp h
  exact ascending_consumersOf d x

theorem mem_order_of_feeds (h : ofDefinition d = .ok p) (hf : d.Feeds a x) : a ∈ p.order ∧ x ∈ p.order := by
  obtain ⟨-, hj, -, -⟩ := ofDefinition_eq_ok.mp h
  exact ⟨(mem_order h).mpr (hj.source_mem hf), (mem_order h).mpr (hj.target_mem hf)⟩

theorem mem_order_of_leadsTo (h : ofDefinition d = .ok p) (hl : d.LeadsTo a x) : a ∈ p.order ∧ x ∈ p.order := by
  obtain ⟨-, hj, -, -⟩ := ofDefinition_eq_ok.mp h
  exact ⟨(mem_order h).mpr (hj.leadsTo_mem hl).1, (mem_order h).mpr (hj.leadsTo_mem hl).2⟩

theorem node?_isSome (h : ofDefinition d = .ok p) (hx : x ∈ p.order) : ∃ n, d.node? x = some n ∧ n.id = x := by
  obtain ⟨n, hn, hid⟩ := List.mem_map.mp ((mem_order h).mp hx)
  cases hfind : d.node? x with
  | none => exact absurd (by simpa using hid) (List.find?_eq_none.mp hfind n hn)
  | some m => exact ⟨m, rfl, by simpa using List.find?_some hfind⟩

end Plan
end Workflows
