/-
  Workflows.Proofs.Fallible — steps that may fail, one after the other.

  A computation that succeeds does so step by step. Going through a list, what each step gives
  makes up the whole, and nothing else does.
-/

namespace Workflows

/-- A computation that succeeds does so step by step. -/
theorem exists_of_bind_eq_ok {ε α β : Type} {x : Except ε α} {f : α → Except ε β} {b : β} (h : x >>= f = .ok b) :
    ∃ a, x = .ok a ∧ f a = .ok b := by
  cases x with
  | error e => cases h
  | ok a => exact ⟨a, rfl, h⟩

theorem exists_of_map_eq_ok {ε α β : Type} {x : Except ε α} {f : α → β} {b : β} (h : x.map f = .ok b) :
    ∃ a, x = .ok a ∧ f a = b := by
  cases x with
  | error e => cases h
  | ok a => exact ⟨a, rfl, Except.ok.inj h⟩

/-- Each step succeeds. -/
theorem mapM_ok {α β ε : Type} {f : α → Except ε β} {g : α → β} {l : List α} (h : ∀ x ∈ l, f x = .ok (g x)) :
    l.mapM f = .ok (l.map g) := by
  induction l with
  | nil => rfl
  | cons x rest ih =>
    rw [List.mapM_cons, h x List.mem_cons_self, ih fun y hy => h y (List.mem_cons_of_mem _ hy)]
    rfl

/-- To change what each step gives is to change all that is given. -/
theorem mapM_map_result {α β γ ε : Type} {f : α → Except ε β} {g : α → Except ε γ} {change : β → γ} {l : List α}
    (h : ∀ x ∈ l, g x = (f x).map change) : l.mapM g = (l.mapM f).map (List.map change) := by
  induction l with
  | nil => rfl
  | cons x rest ih =>
    rw [List.mapM_cons, List.mapM_cons, h x List.mem_cons_self, ih fun y hy => h y (List.mem_cons_of_mem _ hy)]
    cases f x with
    | error e => rfl
    | ok b => cases rest.mapM f <;> rfl

/-- Each step keeps what it is given. -/
theorem filterMapM_eq_self {α ε : Type} {f : α → Except ε (Option α)} {l : List α} (h : ∀ x ∈ l, f x = .ok (some x)) :
    l.filterMapM f = .ok l := by
  induction l with
  | nil => rfl
  | cons x rest ih =>
    rw [List.filterMapM_cons, h x List.mem_cons_self]
    show (do return x :: (← rest.filterMapM f)) = _
    rw [ih fun y hy => h y (List.mem_cons_of_mem _ hy)]
    rfl

/-- Whatever is there in the end is what some step gave. -/
theorem exists_of_mem_filterMapM {α β ε : Type} {f : α → Except ε (Option β)} {l : List α} {ys : List β} {y : β}
    (h : l.filterMapM f = .ok ys) (hy : y ∈ ys) : ∃ x ∈ l, f x = .ok (some y) := by
  induction l generalizing ys with
  | nil =>
    cases h
    cases hy
  | cons x rest ih =>
    rw [List.filterMapM_cons] at h
    obtain ⟨found, hfound, h⟩ := exists_of_bind_eq_ok h
    cases found with
    | none =>
      obtain ⟨x', hx', hf⟩ := ih h hy
      exact ⟨x', List.mem_cons_of_mem _ hx', hf⟩
    | some y' =>
      obtain ⟨ys', hys, h⟩ := exists_of_bind_eq_ok h
      cases h
      rcases List.mem_cons.mp hy with rfl | hy
      · exact ⟨x, List.mem_cons_self, hfound⟩
      · obtain ⟨x', hx', hf⟩ := ih hys hy
        exact ⟨x', List.mem_cons_of_mem _ hx', hf⟩

end Workflows
