/-
  Workflows.Proofs.Run.Invoked — what carrying out one node comes to.

  What a node does, begun at an instant, is work, waits that the surroundings or a request to cancel
  bring to an end (`Activity.Rests`), and an end, if it ever comes (`Activity.Ends`). An invocation puts
  a timeout around it and comes to one outcome (`Contained`). The timeout strikes a node that waits: one
  whose wait outlasts it, or that begins to wait when its time has been up for long
  (`Activity.IsOvertaken`). Any other node comes to its own end, with the failure that names it and says
  why if it breaks down: surely if it ends no later than the timeout, but also if it ends later and has
  worked on all the while.
-/

import Workflows.Run.Invocation

namespace Workflows

/-! ## How an activity goes on -/

/-- The activity waits, from `now` on, and when that is over goes on as another. These are the
surroundings, and the instant of a request to cancel, if any. -/
inductive Activity.Rests (env : Surroundings) (cancelAt : Option Nat) (now : Nat) :
    Activity → (wake : Nat) → Activity → Prop
  /-- A request to cancel ends the wait. -/
  | woken {millis t : Nat} {e : NodeError} {next : Bool → Activity}
      (asked : interruption? cancelAt now (now + millis) = some t) :
      Rests env cancelAt now (.pause millis (some e) next) t (.fail e)
  | rested {millis : Nat} {whenCanceled : Option NodeError} {next : Bool → Activity}
      (undisturbed : interruption? cancelAt now (now + millis) = none ∨ whenCanceled = none) :
      Rests env cancelAt now (.pause millis whenCanceled next) (now + millis) (next (canceledBy cancelAt (now + millis)))
  | toolCanceled {t : Nat} {call : ToolCall} {next : Except NodeError Json → Activity}
      (asked : interruption? cancelAt now (now + (env.callTool call).1) = some t) :
      Rests env cancelAt now (.callTool call next) t (.fail .canceled)
  | toolAnswered {call : ToolCall} {next : Except NodeError Json → Activity}
      (undisturbed : interruption? cancelAt now (now + (env.callTool call).1) = none) :
      Rests env cancelAt now (.callTool call next) (now + (env.callTool call).1) (next (env.callTool call).2)
  | fetchCanceled {t : Nat} {request : WebRequest} {next : Except NodeError WebResponse → Activity}
      (asked : interruption? cancelAt now (now + (env.fetch request).1) = some t) :
      Rests env cancelAt now (.fetch request next) t (.fail .canceled)
  | fetched {request : WebRequest} {next : Except NodeError WebResponse → Activity}
      (undisturbed : interruption? cancelAt now (now + (env.fetch request).1) = none) :
      Rests env cancelAt now (.fetch request next) (now + (env.fetch request).1) (next (env.fetch request).2)

/-- The activity, begun at `now` and left to itself, comes to this ending at `t`. -/
inductive Activity.Ends (env : Surroundings) (cancelAt : Option Nat) :
    (now : Nat) → Activity → (t : Nat) → Ending → Prop
  | done {now : Nat} {e : Ending} : Ends env cancelAt now (.done e) now e
  | worked {now millis t : Nat} {next : Activity} {e : Ending} (rest : Ends env cancelAt (now + millis) next t e) :
      Ends env cancelAt now (.busy millis next) t e
  | rested {now wake t : Nat} {a next : Activity} {e : Ending} (rests : a.Rests env cancelAt now wake next)
      (rest : Ends env cancelAt wake next t e) : Ends env cancelAt now a t e

/-- The activity, begun at `now` and left to itself, waits from one instant to another, or for ever. -/
inductive Activity.Waits (env : Surroundings) (cancelAt : Option Nat) :
    (now : Nat) → Activity → (since : Nat) → (wake : Option Nat) → Prop
  | hangs {now : Nat} : Waits env cancelAt now .hang now none
  | rests {now wake : Nat} {a next : Activity} (rests : a.Rests env cancelAt now wake next) :
      Waits env cancelAt now a now (some wake)
  | worked {now millis since : Nat} {wake : Option Nat} {next : Activity}
      (later : Waits env cancelAt (now + millis) next since wake) : Waits env cancelAt now (.busy millis next) since wake
  | later {now between since : Nat} {wake : Option Nat} {a next : Activity} (rests : a.Rests env cancelAt now between next)
      (later : Waits env cancelAt between next since wake) : Waits env cancelAt now a since wake

/-- A wait is not over by the limit, nor at the instant at which it begins. -/
def Outlasts (limit since : Nat) (wake : Option Nat) : Prop := ∀ t, wake = some t → max limit since < t

/-- The activity, begun at `now`, still waits when its time is up at `limit`, or waits again after that. -/
def Activity.IsOvertaken (env : Surroundings) (cancelAt : Option Nat) (limit now : Nat) (a : Activity) : Prop :=
  ∃ since wake, a.Waits env cancelAt now since wake ∧ Outlasts limit since wake

/-- Whatever answers it, the activity does nothing but wait. -/
inductive Activity.GivesWay : Activity → Prop
  | done {e : Ending} : GivesWay (.done e)
  | hang : GivesWay .hang
  | pause {millis : Nat} {whenCanceled : Option NodeError} {next : Bool → Activity}
      (rest : ∀ canceled, GivesWay (next canceled)) : GivesWay (.pause millis whenCanceled next)
  | callTool {call : ToolCall} {next : Except NodeError Json → Activity} (rest : ∀ answer, GivesWay (next answer)) :
      GivesWay (.callTool call next)
  | fetch {request : WebRequest} {next : Except NodeError WebResponse → Activity} (rest : ∀ answer, GivesWay (next answer)) :
      GivesWay (.fetch request next)

/-- Whatever answers it, the activity puts out a map by port. -/
inductive Activity.PutsOutMaps : Activity → Prop
  | done {e : Ending} (sorted : ∀ ports, e = .outputs ports → Keyed.Sorted ports) : PutsOutMaps (.done e)
  | hang : PutsOutMaps .hang
  | busy {millis : Nat} {next : Activity} (rest : PutsOutMaps next) : PutsOutMaps (.busy millis next)
  | pause {millis : Nat} {whenCanceled : Option NodeError} {next : Bool → Activity}
      (rest : ∀ canceled, PutsOutMaps (next canceled)) : PutsOutMaps (.pause millis whenCanceled next)
  | callTool {call : ToolCall} {next : Except NodeError Json → Activity} (rest : ∀ answer, PutsOutMaps (next answer)) :
      PutsOutMaps (.callTool call next)
  | fetch {request : WebRequest} {next : Except NodeError WebResponse → Activity}
      (rest : ∀ answer, PutsOutMaps (next answer)) : PutsOutMaps (.fetch request next)

section

variable {env : Surroundings} {cancelAt : Option Nat} {now limit wake wake' t t' : Nat} {a next next' : Activity}
  {e e' : Ending}

theorem le_of_interruption? (h : interruption? cancelAt now wake = some t) : now ≤ t := by
  cases cancelAt with
  | none => cases h
  | some c =>
    simp only [interruption?] at h
    split at h
    · cases h
      exact Nat.le_max_right c now
    · cases h

namespace Activity

/-! ## Waits -/

theorem PutsOutMaps.fail (error : NodeError) : PutsOutMaps (.fail error) := .done nofun

namespace Rests

theorem le (h : a.Rests env cancelAt now wake next) : now ≤ wake := by
  cases h with
  | woken asked | toolCanceled asked | fetchCanceled asked => exact le_of_interruption? asked
  | rested | toolAnswered | fetched => exact Nat.le_add_right _ _

/-- What a wait comes to is fixed. -/
theorem unique (h : a.Rests env cancelAt now wake next) (h' : a.Rests env cancelAt now wake' next') :
    wake = wake' ∧ next = next' := by
  cases h with
  | woken asked =>
    cases h' with
    | woken asked' => exact ⟨Option.some.inj (asked.symm.trans asked'), rfl⟩
    | rested undisturbed =>
      exact absurd undisturbed (not_or.mpr ⟨fun hnone => absurd (asked.symm.trans hnone) nofun, nofun⟩)
  | rested undisturbed =>
    cases h' with
    | woken asked =>
      exact absurd undisturbed (not_or.mpr ⟨fun hnone => absurd (asked.symm.trans hnone) nofun, nofun⟩)
    | rested => exact ⟨rfl, rfl⟩
  | toolCanceled asked =>
    cases h' with
    | toolCanceled asked' => exact ⟨Option.some.inj (asked.symm.trans asked'), rfl⟩
    | toolAnswered undisturbed => exact absurd (asked.symm.trans undisturbed) nofun
  | toolAnswered undisturbed =>
    cases h' with
    | toolCanceled asked => exact absurd (asked.symm.trans undisturbed) nofun
    | toolAnswered => exact ⟨rfl, rfl⟩
  | fetchCanceled asked =>
    cases h' with
    | fetchCanceled asked' => exact ⟨Option.some.inj (asked.symm.trans asked'), rfl⟩
    | fetched undisturbed => exact absurd (asked.symm.trans undisturbed) nofun
  | fetched undisturbed =>
    cases h' with
    | fetchCanceled asked => exact absurd (asked.symm.trans undisturbed) nofun
    | fetched => exact ⟨rfl, rfl⟩

theorem givesWay (h : a.Rests env cancelAt now wake next) (ha : a.GivesWay) : next.GivesWay := by
  cases h with
  | woken | toolCanceled | fetchCanceled => exact .done
  | rested => cases ha with | pause rest => exact rest _
  | toolAnswered => cases ha with | callTool rest => exact rest _
  | fetched => cases ha with | fetch rest => exact rest _

theorem putsOutMaps (h : a.Rests env cancelAt now wake next) (ha : a.PutsOutMaps) : next.PutsOutMaps := by
  cases h with
  | woken | toolCanceled | fetchCanceled => exact .fail _
  | rested => cases ha with | pause rest => exact rest _
  | toolAnswered => cases ha with | callTool rest => exact rest _
  | fetched => cases ha with | fetch rest => exact rest _

/-- The course of an activity that waits is that of what it goes on as, if that comes in time. -/
theorem course_eq (h : a.Rests env cancelAt now wake next) (limit : Nat) : ∃ calls, a.course env cancelAt limit now =
    { Course.wait limit now wake (next.course env cancelAt limit wake) with calls } := by
  cases h with
  | woken asked => exact ⟨_, by simp only [course, asked]; rfl⟩
  | @rested millis whenCanceled next undisturbed =>
    rcases undisturbed with hnone | rfl
    · exact ⟨_, by simp only [course, hnone]; rfl⟩
    · cases hasked : interruption? cancelAt now (now + millis) with
      | none | some => exact ⟨_, by simp only [course, hasked]; rfl⟩
  | toolCanceled asked => exact ⟨_, by simp only [course, asked]; rfl⟩
  | toolAnswered undisturbed => exact ⟨_, by simp only [course, undisturbed]; rfl⟩
  | fetchCanceled asked => exact ⟨_, by simp only [course, asked]; rfl⟩
  | fetched undisturbed => exact ⟨_, by simp only [course, undisturbed]; rfl⟩

end Rests

/-- What holds of ends, holds after work if it holds before, and over a wait if it holds after, holds of
every activity at every instant. -/
theorem induction_on_rests {motive : Nat → Activity → Prop} (env : Surroundings) (cancelAt : Option Nat)
    (done : ∀ now e, motive now (.done e)) (hang : ∀ now, motive now .hang)
    (busy : ∀ now millis next, motive (now + millis) next → motive now (.busy millis next))
    (rests : ∀ now a wake next, a.Rests env cancelAt now wake next → motive wake next → motive now a)
    (now : Nat) (a : Activity) : motive now a := by
  induction a generalizing now with
  | done e => exact done now e
  | hang => exact hang now
  | busy millis next ih => exact busy now millis next (ih _)
  | pause millis whenCanceled next ih =>
    cases hasked : interruption? cancelAt now (now + millis) with
    | none => exact rests _ _ _ _ (.rested (.inl hasked)) (ih _ _)
    | some t =>
      cases whenCanceled with
      | none => exact rests _ _ _ _ (.rested (.inr rfl)) (ih _ _)
      | some e => exact rests _ _ _ _ (.woken hasked) (done _ _)
  | callTool call next ih =>
    cases hasked : interruption? cancelAt now (now + (env.callTool call).1) with
    | none => exact rests _ _ _ _ (.toolAnswered hasked) (ih _ _)
    | some t => exact rests _ _ _ _ (.toolCanceled hasked) (done _ _)
  | fetch request next ih =>
    cases hasked : interruption? cancelAt now (now + (env.fetch request).1) with
    | none => exact rests _ _ _ _ (.fetched hasked) (ih _ _)
    | some t => exact rests _ _ _ _ (.fetchCanceled hasked) (done _ _)

/-! ## Ends -/

namespace Ends

theorem of_rests (h : a.Ends env cancelAt now t e) (rests : a.Rests env cancelAt now wake next) :
    next.Ends env cancelAt wake t e := by
  cases h with
  | done | worked => cases rests
  | rested rests' rest =>
    obtain ⟨rfl, rfl⟩ := rests.unique rests'
    exact rest

/-- An activity ends at most once, in one way. -/
theorem unique (h : a.Ends env cancelAt now t e) (h' : a.Ends env cancelAt now t' e') : t = t' ∧ e = e' := by
  induction h with
  | done =>
    cases h' with
    | done => exact ⟨rfl, rfl⟩
    | rested rests => cases rests
  | worked _ ih =>
    cases h' with
    | worked rest => exact ih rest
    | rested rests => cases rests
  | rested rests _ ih => exact ih (h'.of_rests rests)

theorem le (h : a.Ends env cancelAt now t e) : now ≤ t := by
  induction h with
  | done => exact Nat.le_refl _
  | worked _ ih => exact Nat.le_trans (Nat.le_add_right _ _) ih
  | rested rests _ ih => exact Nat.le_trans rests.le ih

theorem sorted {ports : PortValues} (h : a.Ends env cancelAt now t (.outputs ports)) (hmaps : a.PutsOutMaps) :
    Keyed.Sorted ports := by
  generalize hending : Ending.outputs ports = ending at h
  induction h with
  | done =>
    cases hmaps with
    | done sorted => exact sorted ports hending.symm
  | worked _ ih =>
    cases hmaps with
    | busy rest => exact ih rest hending
  | rested rests _ ih => exact ih (rests.putsOutMaps hmaps) hending

end Ends

/-! ## Waits that outlast a limit -/

theorem Waits.of_rests {since : Nat} {w : Option Nat} (h : a.Waits env cancelAt now since w)
    (rests : a.Rests env cancelAt now wake next) : since = now ∧ w = some wake ∨ next.Waits env cancelAt wake since w := by
  cases h with
  | hangs | worked => cases rests
  | rests rests' => exact .inl ⟨rfl, congrArg some (rests'.unique rests).1⟩
  | later rests' later =>
    obtain ⟨rfl, rfl⟩ := rests.unique rests'
    exact .inr later

/-- A wait of an activity that ends is over by then. -/
theorem Waits.le_of_ends {since : Nat} {w : Option Nat} (h : a.Waits env cancelAt now since w)
    (hends : a.Ends env cancelAt now t e) : ∃ wake, w = some wake ∧ wake ≤ t := by
  induction h with
  | hangs =>
    cases hends with
    | rested rests => cases rests
  | rests rests => exact ⟨_, rfl, (hends.of_rests rests).le⟩
  | worked _ ih =>
    cases hends with
    | worked rest => exact ih rest
    | rested rests => cases rests
  | later rests _ ih => exact ih (hends.of_rests rests)

theorem not_isOvertaken_done : ¬ (Activity.done e).IsOvertaken env cancelAt limit now := by
  rintro ⟨_, _, hwaits, -⟩
  cases hwaits with
  | rests rests | later rests => cases rests

theorem isOvertaken_busy {millis : Nat} :
    (Activity.busy millis next).IsOvertaken env cancelAt limit now ↔ next.IsOvertaken env cancelAt limit (now + millis) := by
  constructor
  · rintro ⟨since, w, hwaits, houtlasts⟩
    cases hwaits with
    | worked later => exact ⟨since, w, later, houtlasts⟩
    | rests rests | later rests => cases rests
  · exact fun ⟨since, w, later, houtlasts⟩ => ⟨since, w, .worked later, houtlasts⟩

theorem isOvertaken_of_rests (rests : a.Rests env cancelAt now wake next) :
    a.IsOvertaken env cancelAt limit now ↔ max limit now < wake ∨ next.IsOvertaken env cancelAt limit wake := by
  constructor
  · rintro ⟨since, w, hwaits, houtlasts⟩
    rcases hwaits.of_rests rests with ⟨rfl, rfl⟩ | later
    · exact .inl (houtlasts wake rfl)
    · exact .inr ⟨since, w, later, houtlasts⟩
  · rintro (hlong | ⟨since, w, later, houtlasts⟩)
    · exact ⟨now, some wake, .rests rests, fun t ht => Option.some.inj ht ▸ hlong⟩
    · exact ⟨since, w, .later rests later, houtlasts⟩

/-- An activity that ends by the limit is not overtaken. -/
theorem Ends.not_isOvertaken (h : a.Ends env cancelAt now t e) (intime : t ≤ limit) :
    ¬ a.IsOvertaken env cancelAt limit now := by
  rintro ⟨since, w, hwaits, houtlasts⟩
  obtain ⟨wake, rfl, hle⟩ := hwaits.le_of_ends h
  have hlate := houtlasts wake rfl
  omega

/-! ## Courses -/

/-- An activity that is not overtaken comes to its own end. -/
theorem ends_course (h : ¬ a.IsOvertaken env cancelAt limit now) : ∃ e,
    (a.course env cancelAt limit now).ending = some e ∧ a.Ends env cancelAt now (a.course env cancelAt limit now).endsAt e := by
  induction now, a using induction_on_rests env cancelAt with
  | done now e => exact ⟨e, rfl, .done⟩
  | hang now => exact absurd ⟨now, none, .hangs, nofun⟩ h
  | busy now millis next ih =>
    obtain ⟨e, hending, hends⟩ := ih (mt isOvertaken_busy.mpr h)
    exact ⟨e, hending, .worked hends⟩
  | rests now a wake next rests ih =>
    obtain ⟨hshort, hlater⟩ := not_or.mp (mt (isOvertaken_of_rests rests).mpr h)
    obtain ⟨e, hending, hends⟩ := ih hlater
    obtain ⟨calls, heq⟩ := rests.course_eq limit
    rw [heq, Course.wait, if_pos (Nat.le_of_not_lt hshort)]
    exact ⟨e, hending, .rested rests hends⟩

/-- The first wait that outlasts the limit is that of an activity that is overtaken. -/
theorem overtaken_course (h : a.IsOvertaken env cancelAt limit now) : (a.course env cancelAt limit now).ending = none ∧
    (∃ since wake, a.Waits env cancelAt now since wake ∧ Outlasts limit since wake ∧
      (a.course env cancelAt limit now).endsAt = max limit since) := by
  induction now, a using induction_on_rests env cancelAt with
  | done now e => exact absurd h not_isOvertaken_done
  | hang now => exact ⟨rfl, now, none, .hangs, nofun, rfl⟩
  | busy now millis next ih =>
    obtain ⟨hending, since, wake, hwaits, houtlasts, hends⟩ := ih (isOvertaken_busy.mp h)
    exact ⟨hending, since, wake, .worked hwaits, houtlasts, hends⟩
  | rests now a wake next rests ih =>
    obtain ⟨calls, heq⟩ := rests.course_eq limit
    rw [heq, Course.wait]
    split
    next hshort =>
      have hlater := ((isOvertaken_of_rests rests).mp h).resolve_left (Nat.not_lt.mpr hshort)
      obtain ⟨hending, since, w, hwaits, houtlasts, hends⟩ := ih hlater
      exact ⟨hending, since, w, .later rests hwaits, houtlasts, hends⟩
    next hlong =>
      exact ⟨rfl, now, some wake, .rests rests, fun t ht => Option.some.inj ht ▸ Nat.lt_of_not_le hlong, rfl⟩

theorem Waits.le {since : Nat} {w : Option Nat} (h : a.Waits env cancelAt now since w) : now ≤ since := by
  induction h with
  | hangs | rests => exact Nat.le_refl _
  | worked _ ih => exact Nat.le_trans (Nat.le_add_right _ _) ih
  | later rests _ ih => exact Nat.le_trans rests.le ih

theorem le_endsAt_course : now ≤ (a.course env cancelAt limit now).endsAt := by
  by_cases h : a.IsOvertaken env cancelAt limit now
  · obtain ⟨-, since, wake, hwaits, -, hends⟩ := overtaken_course h
    exact hends ▸ Nat.le_trans hwaits.le (Nat.le_max_right limit since)
  · obtain ⟨e, -, hends⟩ := ends_course h
    exact hends.le

/-- An activity that does nothing but wait is over by the limit. -/
theorem GivesWay.endsAt_le (h : a.GivesWay) (hnow : now ≤ limit) : (a.course env cancelAt limit now).endsAt ≤ limit := by
  induction now, a using induction_on_rests env cancelAt with
  | done => exact hnow
  | hang => exact Nat.max_le.mpr ⟨Nat.le_refl _, hnow⟩
  | busy => cases h
  | rests now a wake next rests ih =>
    obtain ⟨calls, heq⟩ := rests.course_eq limit
    rw [heq, Course.wait, Nat.max_eq_left hnow]
    split
    next hshort => exact ih (rests.givesWay h) hshort
    next => exact Nat.le_refl _

end Activity

/-! ## Invocations -/

variable {timeout : Nat} {nodeId : String}

theorem invoke_of_ends (h : a.Ends env cancelAt now t e) (hfree : ¬ a.IsOvertaken env cancelAt (now + timeout) now) :
    (invoke env cancelAt now timeout nodeId a).outcome = e.outcome nodeId ∧
      (invoke env cancelAt now timeout nodeId a).endsAt = t := by
  obtain ⟨own, hending, hends⟩ := Activity.ends_course hfree
  obtain ⟨hat, rfl⟩ := hends.unique h
  exact ⟨by simp only [invoke, hending], hat⟩

theorem invoke_of_overtaken (h : a.IsOvertaken env cancelAt (now + timeout) now) :
    (invoke env cancelAt now timeout nodeId a).outcome = .error (.timedOut timeout) ∧
      ∃ since wake, a.Waits env cancelAt now since wake ∧ Outlasts (now + timeout) since wake ∧
        (invoke env cancelAt now timeout nodeId a).endsAt = max (now + timeout) since := by
  obtain ⟨hending, hwait⟩ := Activity.overtaken_course h
  exact ⟨by simp only [invoke, hending], hwait⟩

/-- What an invocation puts out is a map by port, if its activity sees to that. -/
theorem sorted_of_invoke {ports : PortValues} (hmaps : a.PutsOutMaps)
    (h : (invoke env cancelAt now timeout nodeId a).outcome = .ok ports) : Keyed.Sorted ports := by
  by_cases hovertaken : a.IsOvertaken env cancelAt (now + timeout) now
  · rw [(invoke_of_overtaken hovertaken).1] at h
    cases h
  · obtain ⟨e, -, hends⟩ := Activity.ends_course hovertaken
    rw [(invoke_of_ends hends hovertaken).1] at h
    cases e with
    | outputs own =>
      cases h
      exact hends.sorted hmaps
    | fails | breaksDown => cases h

/-- What an invocation of a node comes to, of whatever its activity does. -/
structure Contained (env : Surroundings) (cancelAt : Option Nat) (now timeout : Nat) (nodeId : String) (a : Activity) :
    Prop where
  /-- The activity ends at most once, in one way. -/
  once : ∀ t e t' e', a.Ends env cancelAt now t e → a.Ends env cancelAt now t' e' → t = t' ∧ e = e'
  /-- It ends if it is not overtaken. -/
  ends : ¬ a.IsOvertaken env cancelAt (now + timeout) now → ∃ t e, a.Ends env cancelAt now t e
  /-- It is not if it ends no later than the timeout. -/
  inTime : ∀ t e, a.Ends env cancelAt now t e → t ≤ now + timeout → ¬ a.IsOvertaken env cancelAt (now + timeout) now
  succeeds : ∀ t ports, a.Ends env cancelAt now t (.outputs ports) → ¬ a.IsOvertaken env cancelAt (now + timeout) now →
    (invoke env cancelAt now timeout nodeId a).outcome = .ok ports ∧ (invoke env cancelAt now timeout nodeId a).endsAt = t
  fails : ∀ t error, a.Ends env cancelAt now t (.fails error) → ¬ a.IsOvertaken env cancelAt (now + timeout) now →
    (invoke env cancelAt now timeout nodeId a).outcome = .error error ∧
      (invoke env cancelAt now timeout nodeId a).endsAt = t
  breaksDown : ∀ t reason, a.Ends env cancelAt now t (.breaksDown reason) →
    ¬ a.IsOvertaken env cancelAt (now + timeout) now →
    ∃ why, (∀ text, reason = some text → why = text) ∧ (reason = none → why = "unknown panic") ∧
      (invoke env cancelAt now timeout nodeId a).outcome = .error (.failed s!"Node '{nodeId}' panicked: {why}") ∧
      (invoke env cancelAt now timeout nodeId a).endsAt = t
  /-- One that is overtaken times out, in the first wait that outlasts the timeout. -/
  timesOut : a.IsOvertaken env cancelAt (now + timeout) now →
    (invoke env cancelAt now timeout nodeId a).outcome = .error (.timedOut timeout) ∧
      ∃ since wake, a.Waits env cancelAt now since wake ∧ Outlasts (now + timeout) since wake ∧
        (invoke env cancelAt now timeout nodeId a).endsAt = max (now + timeout) since
  notBefore : now ≤ (invoke env cancelAt now timeout nodeId a).endsAt
  /-- One that does nothing but wait is over by the timeout. -/
  byTimeout : a.GivesWay → (invoke env cancelAt now timeout nodeId a).endsAt ≤ now + timeout

theorem contained (env : Surroundings) (cancelAt : Option Nat) (now timeout : Nat) (nodeId : String) (a : Activity) :
    Contained env cancelAt now timeout nodeId a where
  once := fun _ _ _ _ h h' => h.unique h'
  ends := fun hfree => (Activity.ends_course hfree).elim fun e he => ⟨_, e, he.2⟩
  inTime := fun _ _ h intime => h.not_isOvertaken intime
  succeeds := fun _ _ h hfree => invoke_of_ends h hfree
  fails := fun _ _ h hfree => invoke_of_ends h hfree
  breaksDown := fun t reason h hfree => by
    refine ⟨reason.getD "unknown panic", fun text htext => ?_, fun hnone => ?_, invoke_of_ends h hfree⟩
    · rw [htext, Option.getD_some]
    · rw [hnone, Option.getD_none]
  timesOut := invoke_of_overtaken
  notBefore := Activity.le_endsAt_course
  byTimeout := fun h => h.endsAt_le (Nat.le_add_right now timeout)

end
end Workflows
