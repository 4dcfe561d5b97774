/-
  Workflows.Proofs.Plan.Clear — the order of a plan without what is behind some failed nodes.

  Whenever the order takes a node, no node that could have been taken comes before it: of those
  after it, all whose producers had been taken are greater (`lt_of_order`). Taking out everything
  behind some nodes (`clearOf`) leaves a list of the same kind, because what feeds a node that is
  left is left as well: a node of the list stands after all that feed it (`mem_before_of_clearOf`)
  and before every greater node that is fed by the same point (`lt_of_clearOf`).
-/

import Workflows.Proofs.Plan.Canonical
import Workflows.Proofs.Plan.Closure

namespace Workflows.Plan

variable {d : Definition} {p : Plan} {failed : List String} {x y a : String}

/-! ## The smallest that is free -/

/-- Of the nodes that come later, those that were ready when a node was taken are greater. -/
theorem lt_of_takeReady (hj : d.Joined) : ∀ (fuel : Nat) (done : List String) (counts : Keyed Nat) (ready : NameSet),
    Taking d done counts ready → d.Topological (done ++ takeReady (consumersOf d) fuel counts ready) →
      ∀ before after, takeReady (consumersOf d) fuel counts ready = before ++ x :: after → y ∈ after →
        (∀ a, d.Feeds a y → a ∈ done ++ before) → x < y := by
  intro fuel
  induction fuel with
  | zero => intro done counts ready _ _ before after hsplit; exact absurd hsplit (by simp [takeReady])
  | succ fuel ih =>
    intro done counts ready h ht before after hsplit hy hfed
    cases ready with
    | nil => exact absurd hsplit (by simp [takeReady])
    | cons id rest =>
      have hunfold : takeReady (consumersOf d) (fuel + 1) counts (id :: rest) =
          id :: takeReady (consumersOf d) fuel (releaseAll counts rest ((consumersOf d).at id)).1
            (releaseAll counts rest ((consumersOf d).at id)).2 := rfl
      rw [hunfold] at ht hsplit
      cases before with
      | nil =>
        obtain ⟨rfl, hafter⟩ := List.cons.inj hsplit
        rw [hafter] at ht
        obtain ⟨-, hlater, hapart⟩ := List.nodup_append.mp ht.nodup
        have hready : y ∈ id :: rest := by
          refine (h.ready_iff y).mpr ⟨(ht.nodes y).mp (by simp [hy]), fun hdone => ?_, fun a ha => ?_⟩
          · exact hapart y hdone y (List.mem_cons_of_mem _ hy) rfl
          · simpa using hfed a ha
        rcases List.mem_cons.mp hready with rfl | hrest
        · exact absurd hy (List.nodup_cons.mp hlater).1
        · exact (List.pairwise_cons.mp h.ascending).1 y hrest
      | cons b before =>
        obtain ⟨rfl, hlater⟩ := List.cons.inj hsplit
        refine ih _ _ _ (h.take hj) (by simpa using ht) before after hlater hy fun a ha => ?_
        simpa using hfed a ha

theorem lt_of_order (h : ofDefinition d = .ok p) {before after : List String} (hsplit : p.order = before ++ x :: after)
    (hy : y ∈ after) (hfed : ∀ a, d.Feeds a y → a ∈ before) : x < y := by
  have ht := topological_order h
  obtain ⟨-, hj, -, rfl⟩ := ofDefinition_eq_ok.mp h
  exact lt_of_takeReady hj _ [] _ _ (taking_start hj) ht before after hsplit hy hfed

/-! ## What is not behind a failure -/

/-- Whether one of the nodes leads to this one. -/
def isBehind (p : Plan) (failed : List String) (id : String) : Bool :=
  failed.any fun a => (p.allDependents a).contains id

/-- The nodes in the order of the plan, without those behind one of the failed ones. -/
def clearOf (p : Plan) (failed : List String) : List String := p.order.filter fun id => !p.isBehind failed id

theorem isBehind_iff (h : ofDefinition d = .ok p) : p.isBehind failed x = true ↔ ∃ a ∈ failed, d.LeadsTo a x := by
  simp [isBehind, mem_allDependents h]

theorem mem_clearOf (h : ofDefinition d = .ok p) :
    x ∈ p.clearOf failed ↔ x ∈ p.order ∧ ¬ ∃ a ∈ failed, d.LeadsTo a x := by
  rw [clearOf, List.mem_filter, Bool.not_eq_true', ← isBehind_iff h, Bool.not_eq_true]

theorem clearOf_append (p : Plan) (failed : List String) (a : String) :
    p.clearOf (failed ++ [a]) = (p.clearOf failed).filter fun id => !(p.allDependents a).contains id := by
  rw [clearOf, clearOf, List.filter_filter]
  refine List.filter_congr fun id _ => ?_
  simp [isBehind, Bool.and_comm]

section

variable {done rest : List String} (h : ofDefinition d = .ok p) (hsplit : p.clearOf failed = done ++ x :: rest)
include h hsplit

/-- Where the order is cut for the list to be cut at a node. -/
theorem order_of_clearOf : ∃ before after, p.order = before ++ x :: after ∧
    (∀ y, y ∈ done ↔ y ∈ before ∧ ¬ ∃ a ∈ failed, d.LeadsTo a y) ∧ ∀ y ∈ rest, y ∈ after := by
  have hclear : ∀ {y : String}, (!p.isBehind failed y) = true ↔ ¬ ∃ a ∈ failed, d.LeadsTo a y := by
    intro y
    rw [← isBehind_iff h, Bool.not_eq_true', Bool.not_eq_true]
  obtain ⟨before, later, horder, rfl, hlater⟩ := List.filter_eq_append_iff.mp hsplit
  obtain ⟨between, after, rfl, hbetween, -, rfl⟩ := List.filter_eq_cons_iff.mp hlater
  refine ⟨before ++ between, after, by rw [horder, List.append_assoc], fun y => ?_,
    fun y hy => List.mem_of_mem_filter hy⟩
  rw [List.mem_filter, hclear, List.mem_append]
  refine ⟨fun hy => ⟨.inl hy.1, hy.2⟩, fun hy => ⟨hy.1.resolve_right fun hmem => ?_, hy.2⟩⟩
  exact hbetween y hmem (hclear.mpr hy.2)

/-- What feeds a node that is left is left, and stands before it. -/
theorem mem_before_of_clearOf (hf : d.Feeds a x) : a ∈ done := by
  obtain ⟨before, after, horder, hdone, -⟩ := order_of_clearOf h hsplit
  have hx := (mem_clearOf h).mp (hsplit ▸ List.mem_append_right done List.mem_cons_self)
  refine (hdone a).mpr ⟨mem_before_of_feeds h horder hf, fun hbehind => hx.2 ?_⟩
  obtain ⟨b, hb, hl⟩ := hbehind
  exact ⟨b, hb, hl.tail hf⟩

theorem lt_of_clearOf (hy : y ∈ rest) (hfed : ∀ a, d.Feeds a y → a ∈ done) : x < y := by
  obtain ⟨before, after, horder, hdone, hrest⟩ := order_of_clearOf h hsplit
  exact lt_of_order h horder (hrest y hy) fun a ha => ((hdone a).mp (hfed a ha)).1

end

end Workflows.Plan
