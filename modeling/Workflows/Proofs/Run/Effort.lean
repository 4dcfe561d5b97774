/-
  Workflows.Proofs.Run.Effort — a run can only do so much.

  Every errand, every node that has not ended, the stop and the end of a run cost it some
  effort. What the run itself does lowers the effort left (`effort_advance`): a node costs enough to
  pay for the errands of its start and of its end, a failure for the errands of every node it
  may skip. The rest of what can happen leaves it as it is.
-/

import Mathlib.Algebra.GroupWithZero.Nat
import Workflows.Proofs.Run.Tally

namespace Workflows

/-- The run itself does it, or is told something it waited for. -/
def Happening.isOwn : Happening → Bool
  | .step _ | .timeUp | .finished _ _ => true
  | .cancel | .elsewhere => false

/-- Skipping a node leaves two errands. -/
def Errand.cost : Errand → Nat
  | .skip _ => 3
  | _ => 1

/-- What a node of a run of `n` nodes may still cost. -/
def NodeStatus.cost (n : Nat) : Option NodeStatus → Nat
  | some .waiting => 3 * n + 7
  | some .running => 3 * n + 3
  | _ => 0

namespace Coordinator

def errandCost (errands : List Errand) : Nat := (errands.map Errand.cost).sum

def nodeCost (p : Plan) (e : Execution) : Nat :=
  (p.order.map fun x => NodeStatus.cost p.order.length (e.nodeStatus? x)).sum

/-- The effort a run has left. -/
def effort (c : Coordinator) : Nat :=
  errandCost c.errands + nodeCost c.plan c.execution + (if c.stopping then 0 else 3) + (if c.closing then 0 else 6)

/-! ## Costs -/

theorem errandCost_cons (e : Errand) (rest : List Errand) : errandCost (e :: rest) = e.cost + errandCost rest := by
  simp [errandCost]

theorem errandCost_append (a b : List Errand) : errandCost (a ++ b) = errandCost a + errandCost b := by
  simp [errandCost]

theorem errandCost_skips (ids : List String) : errandCost (ids.map Errand.skip) = 3 * ids.length := by
  induction ids with
  | nil => rfl
  | cons id rest ih => rw [List.map_cons, errandCost_cons, ih, List.length_cons, Errand.cost]; omega

theorem cost_pos (e : Errand) : 0 < e.cost := by
  cases e <;> exact Nat.zero_lt_succ _

/-- Changing one summand. -/
theorem sum_map_change {l : List String} {f g : String → Nat} {id : String} (hl : l.Nodup) (hid : id ∈ l)
    (h : ∀ x, x ≠ id → g x = f x) : (l.map g).sum + f id = (l.map f).sum + g id := by
  induction l with
  | nil => cases hid
  | cons x rest ih =>
    obtain ⟨hx, hrest⟩ := List.nodup_cons.mp hl
    simp only [List.map_cons, List.sum_cons]
    by_cases hxid : x = id
    · have hsame : rest.map g = rest.map f := by
        refine List.map_congr_left fun y hy => h y ?_
        intro heq
        subst heq
        exact hx (hxid ▸ hy)
      rw [hsame, hxid]
      omega
    · have := ih hrest ((List.mem_cons.mp hid).resolve_left fun e => hxid e.symm)
      rw [h x hxid]
      omega

theorem nodeCost_congr {p : Plan} {e e' : Execution} (h : ∀ x, e'.nodeStatus? x = e.nodeStatus? x) :
    nodeCost p e' = nodeCost p e := by
  simp only [nodeCost, h]

variable {c c' : Coordinator} {canceled : Bool} {x : Happening} {id : String} {old new : NodeStatus}

/-- When the status of one node changes, the cost of the nodes changes by its own. -/
theorem Sound.nodeCost_change (h : c.Sound) (hold : c.execution.nodeStatus? id = some old) {e : Execution}
    (hnew : ∀ y, e.nodeStatus? y = if y = id then some new else c.execution.nodeStatus? y) :
    nodeCost c.plan e + NodeStatus.cost c.plan.order.length (some old) =
      nodeCost c.plan c.execution + NodeStatus.cost c.plan.order.length (some new) := by
  have hid : id ∈ c.plan.order := (h.known id).mp (by rw [hold]; rfl)
  have hchange := sum_map_change (f := fun y => NodeStatus.cost c.plan.order.length (c.execution.nodeStatus? y))
    (g := fun y => NodeStatus.cost c.plan.order.length (e.nodeStatus? y)) (Plan.nodup_order h.planned) hid
    fun y hy => by rw [hnew y, if_neg hy]
  simp only [hold, hnew id, if_true] at hchange
  exact hchange

/-- The errands at the end of a run cost less than the end itself. -/
theorem errandCost_finish (c : Coordinator) (now : Instant) : errandCost (c.finish now).errands ≤ 5 := by
  simp only [finish, errandCost_append]
  cases errorRequest? _ <;> simp [errandCost, Errand.cost]

/-- Being told to stop pays for the errands it leaves. -/
theorem effort_stop (going : c.stopping = false) (hplan : c'.plan = c.plan) (hstop : c'.stopping = true)
    (hclosing : c'.closing = c.closing) (hstatus : ∀ y, c'.execution.nodeStatus? y = c.execution.nodeStatus? y)
    (hcost : errandCost c'.errands ≤ 2) : c'.effort + 1 ≤ c.effort := by
  have hnodes := nodeCost_congr (p := c.plan) hstatus
  simp only [effort, hplan, hnodes, hstop, hclosing, going, Bool.false_eq_true, if_true, if_false]
  omega

/-! ## Every turn -/

/-- What the run itself does takes effort. -/
theorem effort_advance (h : c.Sound) (ha : c.Advance canceled x c') (hown : x.isOwn = true) :
    c'.effort + 1 ≤ c.effort := by
  cases ha with
  | @errand e rest now he hskip =>
    have := cost_pos e
    simp only [effort, he, errandCost_cons]
    omega
  | passed he hs =>
    simp only [effort, he, errandCost_cons, Errand.cost]
    omega
  | @skipped id rest r now he hr hw =>
    have hchange := h.nodeCost_change (Execution.nodeStatus?_eq_some.mpr ⟨r, hr, hw⟩)
      fun y => Execution.nodeStatus?_setNode (r := { r with status := .skipped, stoppedAt := some now })
    simp only [NodeStatus.cost] at hchange
    simp only [effort, he, errandCost_cons, List.cons_append, List.nil_append, Errand.cost]
    omega
  | stopped now idle going asked =>
    exact effort_stop going rfl rfl rfl (fun _ => rfl) (by simp [errandCost, Errand.cost])
  | @started id rest node r now idle going unasked slot first hn hr hw fed =>
    have hchange := h.nodeCost_change (Execution.nodeStatus?_eq_some.mpr ⟨r, hr, hw⟩)
      fun y => Execution.nodeStatus?_setNode (r := { r with
        status := .running, input := .object (c.bag.inputs c.definition id c.execution.triggerData),
        startedAt := some now })
    simp only [NodeStatus.cost] at hchange
    simp only [effort, idle.errands, errandCost_cons, Errand.cost]
    omega
  | ended now idle landed hend =>
    have hcost := errandCost_finish c now
    have hnodes : nodeCost c.plan (c.finish now).execution = nodeCost c.plan c.execution :=
      nodeCost_congr fun y => nodeStatus?_finalRecord
    have hsame := sameRun_finish c now
    have hstopping : (c.finish now).stopping = c.stopping := rfl
    have hclosing : (c.finish now).closing = true := rfl
    simp only [effort, hsame.plan, hnodes, hstopping, hclosing, idle.closing, Bool.false_eq_true, if_true, if_false]
    omega
  | timedOut now idle flying going unasked limit =>
    exact effort_stop going rfl rfl rfl (fun _ => rfl) (by simp [errandCost, Errand.cost])
  | @succeeded id ports r pending ready now idle hr hrun =>
    have hchange := h.nodeCost_change (Execution.nodeStatus?_eq_some.mpr ⟨r, hr, hrun⟩)
      (e := { c.execution.setNode id { r with status := .success, output := .object ports, stoppedAt := some now } with
        data := (c.bag.record id ports).toJson }) fun y => Execution.nodeStatus?_setNode
    simp only [NodeStatus.cost] at hchange
    simp only [effort, idle.errands, errandCost_cons, Errand.cost]
    omega
  | @failed id e r now idle hr hrun =>
    have hchange := h.nodeCost_change (Execution.nodeStatus?_eq_some.mpr ⟨r, hr, hrun⟩)
      fun y => Execution.nodeStatus?_setNode (r := { r with status := .error, error := some e, stoppedAt := some now })
    have hskips : (if c.execution.isTerminal then [] else c.plan.allDependents id).length ≤ c.plan.order.length := by
      split
      · exact Nat.zero_le _
      · exact Plan.length_allDependents_le h.planned id
    simp only [NodeStatus.cost] at hchange
    simp only [effort, idle.errands, errandCost_append, errandCost_skips, errandCost_cons, Errand.cost]
    omega
  | canceled | elsewhere => cases hown

end Coordinator
end Workflows
