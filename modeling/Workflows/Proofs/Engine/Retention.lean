/-
  Workflows.Proofs.Engine.Retention — pruning deletes what is old, as far as the calendar reaches.

  Pruning before an instant divides what a store holds in two (`contents_prune`): it deletes
  the terminal executions that stopped before that instant and no other. In a table the order
  of two texts is that of their instants, if both lie in the years of four digits (`Dated`).

  An engine takes the age from its configuration, as a word of 64 bits, and reads it as a word
  with a sign. As long as so many days back is an instant that can be told (`Reaches`), what
  is deleted is at least that old, and a longer age deletes no more. Beyond it the law fails
  at every age: either the engine gives no answer, or the age comes out negative, the instant
  lies in the future and what stopped just now is deleted (`retains_iff_reaches`).
-/

import Workflows.Engine.Basic
import Workflows.Proofs.Store.Kept
import Workflows.Proofs.Time.Column

namespace Workflows

theorem Instant.year_le_of_le {a b : Instant} (h : a ≤ b) : a.date.year ≤ b.date.year := by
  by_cases hlt : a < b
  · exact year_le_of_lt hlt
  · rw [le_antisymm h hlt]

/-! ## What is deleted -/

namespace Kept

/-- A reader is told that the execution stopped at an instant. -/
def StoppedAt : Kept → Instant → Prop
  | .record e, t => e.stoppedAt = some t
  | .row r, t => r.stoppedAt.bind Instant.ofColumn? = some t

def isExpired (before : Instant) : Kept → Bool
  | .record e => MemoryStore.isExpired before e
  | .row r => TableStore.isExpired before.columnText r

/-- The instant it stopped at, if any, lies in the years a table can tell. -/
def Dated : Kept → Prop
  | .record _ => True
  | .row r => ∀ text, r.stoppedAt = some text → ∃ t : Instant, t.InColumn ∧ text = t.columnText

variable {k : Kept} {before : Instant}

theorem isTerminal_of_isExpired (h : k.isExpired before = true) : k.status.isTerminal = true := by
  cases k with
  | record e => exact (Bool.and_eq_true_iff.mp h).1
  | row r => exact (Bool.and_eq_true_iff.mp h).1

/-- What has expired stopped before the instant. -/
theorem stoppedAt_of_isExpired (hdated : k.Dated) (hyear : ∀ r, k = .row r → before.date.year ≤ 9999)
    (h : k.isExpired before = true) : ∃ t, k.StoppedAt t ∧ t < before := by
  cases k with
  | record e =>
    obtain ⟨t, ht, hlt⟩ := (Option.any_eq_true _ _).mp (Bool.and_eq_true_iff.mp h).2
    exact ⟨t, ht, hlt⟩
  | row r =>
    obtain ⟨text, htext, hlt⟩ := (Option.any_eq_true _ _).mp (Bool.and_eq_true_iff.mp h).2
    obtain ⟨t, ht, rfl⟩ := hdated text htext
    refine ⟨t, ?_, (Instant.columnText_lt_iff_of_year_le ht (hyear r rfl)).mp (of_decide_eq_true hlt)⟩
    simp only [StoppedAt, htext, Option.bind_some, Instant.ofColumn?_columnText ht]

theorem isExpired_record {e : Execution} {t : Instant} (hterminal : e.isTerminal = true) (hstop : e.stoppedAt = some t)
    (hlt : t < before) : (Kept.record e).isExpired before = true := by
  rw [isExpired, MemoryStore.isExpired, hterminal, hstop, Bool.true_and]
  exact hlt

/-- What has expired before an instant has expired before any later one. -/
theorem isExpired_mono {later : Instant} (hdated : k.Dated) (hyear : ∀ r, k = .row r → later.date.year ≤ 9999)
    (hle : before ≤ later) (h : k.isExpired before = true) : k.isExpired later = true := by
  have hlt_later : ∀ {t : Instant}, t < before → t < later := fun hlt => by
    rw [Instant.lt_iff_parts] at hlt ⊢
    rw [Instant.le_iff_parts] at hle
    omega
  have hterminal := isTerminal_of_isExpired h
  have hyear_before : ∀ r, k = .row r → before.date.year ≤ 9999 :=
    fun r hr => Int.le_trans (Instant.year_le_of_le hle) (hyear r hr)
  obtain ⟨t, ht, hlt⟩ := stoppedAt_of_isExpired hdated hyear_before h
  cases k with
  | record e => exact isExpired_record hterminal ht (hlt_later hlt)
  | row r =>
    obtain ⟨text, htext, hread⟩ := Option.bind_eq_some_iff.mp ht
    obtain ⟨t', ht', rfl⟩ := hdated text htext
    obtain rfl : t' = t := Option.some.inj ((Instant.ofColumn?_columnText ht').symm.trans hread)
    refine Bool.and_eq_true_iff.mpr ⟨hterminal, (Option.any_eq_true _ _).mpr ⟨_, htext, decide_eq_true ?_⟩⟩
    exact (Instant.columnText_lt_iff_of_year_le ht' (hyear r rfl)).mpr (hlt_later hlt)

end Kept

namespace Store

/-- All that is held, in the order of creation. -/
def contents : Store → List Kept
  | memory m => m.records.map .record
  | table t => t.rows.map .row

variable {s : Store}

theorem contents_prune (s : Store) (before : Instant) :
    (s.prune before).1.contents = s.contents.filter (!Kept.isExpired before ·) := by
  cases s with
  | memory m =>
    simp only [prune, MemoryStore.prune, contents, List.filter_map]
    rfl
  | table t =>
    simp only [prune, TableStore.prune, contents, List.filter_map]
    rfl

theorem count_prune (s : Store) (before : Instant) :
    (s.prune before).2 = s.contents.countP (Kept.isExpired before) := by
  cases s with
  | memory m =>
    rw [contents, List.countP_map, List.countP_eq_length_filter]
    rfl
  | table t =>
    rw [contents, List.countP_map, List.countP_eq_length_filter]
    rfl

/-- Its rows, if it is a table, and the present lie in the years a table can tell. -/
def Dated : Store → (now : Instant) → Prop
  | memory _, _ => True
  | table t, now => now.date.year ≤ 9999 ∧ ∀ r ∈ t.rows, (Kept.row r).Dated

theorem Dated.kept {now : Instant} (h : s.Dated now) : ∀ k ∈ s.contents, k.Dated := by
  cases s with
  | memory m =>
    intro k hk
    obtain ⟨r, -, rfl⟩ := List.mem_map.mp hk
    trivial
  | table t =>
    intro k hk
    obtain ⟨r, hr, rfl⟩ := List.mem_map.mp hk
    exact h.2 r hr

theorem Dated.year_le {now before : Instant} (h : s.Dated now) (hle : before ≤ now) :
    ∀ k ∈ s.contents, ∀ r, k = .row r → before.date.year ≤ 9999 := by
  rintro k hk r rfl
  cases s with
  | memory m =>
    obtain ⟨r, -, hr⟩ := List.mem_map.mp hk
    cases hr
  | table t => exact Int.le_trans (Instant.year_le_of_le hle) h.1

end Store

/-! ## So many days back -/

namespace Instant

variable {now : Instant} {days shorter : Nat}

/-- The instant lies so many days or more before the present. -/
def AgedBy (t now : Instant) (days : Nat) : Prop :=
  t.seconds + days * 86400 < now.seconds ∨ t.seconds + days * 86400 = now.seconds ∧ t.nanos ≤ now.nanos

def daysBack (now : Instant) (days : Nat) : Instant := now.addSeconds (-(days * 86400))

/-- So many days are a span that can be told, and so is the instant that lies that far back. -/
def Reaches (now : Instant) (days : Nat) : Prop :=
  days * 86400 ≤ 9223372036854775 ∧ (now.daysBack days).inRange = true

instance (now : Instant) (days : Nat) : Decidable (now.Reaches days) :=
  inferInstanceAs (Decidable (days * 86400 ≤ 9223372036854775 ∧ (now.daysBack days).inRange = true))

@[simp]
theorem seconds_addSeconds (a : Instant) (n : Int) : (a.addSeconds n).seconds = a.seconds + n := by
  unfold addSeconds
  split <;> rfl

theorem nanos_addSeconds_le (a : Instant) (n : Int) : (a.addSeconds n).nanos ≤ a.nanos := by
  unfold addSeconds
  split
  · exact Nat.le_refl _
  next hleap => exact Nat.le_trans (show 999999999 ≤ 1000000000 by decide) (Nat.not_lt.mp hleap)

theorem nanos_addSeconds (a : Instant) (m n : Int) : (a.addSeconds m).nanos = (a.addSeconds n).nanos := by
  unfold addSeconds
  split <;> rfl

theorem inRange_iff {a : Instant} :
    a.inRange = true ↔ firstDay * 86400 ≤ a.seconds ∧ a.seconds < (lastDay + 1) * 86400 := by
  have hdiv : Int.fdiv a.seconds 86400 = a.seconds / 86400 := Int.fdiv_eq_ediv_of_nonneg _ (by decide)
  rw [inRange, Bool.and_eq_true_iff, decide_eq_true_eq, decide_eq_true_eq, hdiv]
  omega

theorem daysBack_le (now : Instant) (days : Nat) : now.daysBack days ≤ now := by
  have hnanos := nanos_addSeconds_le now (-(days * 86400))
  rw [le_iff_parts, daysBack, seconds_addSeconds]
  omega

theorem daysBack_le_daysBack (h : shorter ≤ days) : now.daysBack days ≤ now.daysBack shorter := by
  have hnanos := nanos_addSeconds now (-(days * 86400)) (-(shorter * 86400))
  rw [le_iff_parts, daysBack, daysBack, seconds_addSeconds, seconds_addSeconds]
  omega

/-- What lies before the instant so many days back is that old. -/
theorem agedBy_of_lt_daysBack {t : Instant} (h : t < now.daysBack days) : t.AgedBy now days := by
  have hnanos := nanos_addSeconds_le now (-(days * 86400))
  rw [lt_iff_parts, daysBack, seconds_addSeconds] at h
  unfold AgedBy
  omega

theorem not_agedBy_self (h : 0 < days) : ¬ now.AgedBy now days := by
  unfold AgedBy
  omega

/-- From an instant that can be told, fewer days back is one too. -/
theorem Reaches.mono (hnow : now.inRange = true) (hle : shorter ≤ days) (h : now.Reaches days) :
    now.Reaches shorter := by
  obtain ⟨hspan, hback⟩ := h
  refine ⟨Nat.le_trans (Nat.mul_le_mul_right _ hle) hspan, ?_⟩
  rw [inRange_iff] at hnow hback ⊢
  rw [daysBack, seconds_addSeconds] at hback ⊢
  omega

end Instant

/-! ## The age in the configuration -/

namespace Engine

open Instant (Reaches daysBack)

variable {e : Engine} {now : Instant} {days : Nat}

/-- Half the words of 64 bits mean themselves. -/
theorem signedDays_of_lt (h : days < pow2 63) : signedDays days = days := if_pos h

/-- The other half come out negative. -/
theorem signedDays_neg (hle : pow2 63 ≤ days) (hlt : days < pow2 64) : signedDays days ≤ -1 := by
  rw [signedDays, if_neg (Nat.not_lt.mpr hle)]
  omega

theorem daysBefore?_of_reaches (h : now.Reaches days) : daysBefore? now days = some (now.daysBack days) := by
  have hspan := h.1
  have hsigned : signedDays days = days := signedDays_of_lt (show days < 9223372036854775808 by omega)
  have hspan' : (signedDays days * 86400).natAbs ≤ 9223372036854775 := by omega
  have hback : now.addSeconds (-(signedDays days * 86400)) = now.daysBack days := by rw [hsigned]; rfl
  simp only [daysBefore?, if_pos hspan', hback, if_pos h.2]

/-- An age beyond the calendar is either refused or means the future. -/
theorem lt_of_daysBefore? {before : Instant} (hreach : ¬ now.Reaches days) (hword : days < pow2 64)
    (h : daysBefore? now days = some before) : 0 < days ∧ now < before := by
  rcases Nat.lt_or_ge days (pow2 63) with hlow | hhigh
  · refine absurd ?_ hreach
    have hsigned := signedDays_of_lt hlow
    simp only [daysBefore?, hsigned] at h
    split at h
    next hspan =>
      split at h
      next hback => exact ⟨by omega, hback⟩
      · cases h
    · cases h
  · have hsigned := signedDays_neg hhigh hword
    simp only [daysBefore?] at h
    split at h
    · split at h
      · cases h
        refine ⟨Nat.lt_of_lt_of_le (by decide) hhigh, ?_⟩
        rw [Instant.lt_iff_parts, Instant.seconds_addSeconds]
        omega
      · cases h
    · cases h

/-- The engine with that age in its configuration. -/
def aging (e : Engine) (days : Nat) : Engine := { e with config := { e.config with maxAgeDays := some days } }

@[simp] theorem maxAgeDays_aging (e : Engine) (days : Nat) : (e.aging days).config.maxAgeDays = some days := rfl

@[simp] theorem clock_aging (e : Engine) (days : Nat) : (e.aging days).clock = e.clock := rfl

@[simp] theorem store_aging (e : Engine) (days : Nat) : (e.aging days).store = e.store := rfl

/-- Under that age the engine answers, and has deleted what a test says and nothing else. -/
def Prunes (e : Engine) (days : Nat) (gone : Kept → Bool) : Prop :=
  ∃ e' n, (e.aging days).pruneExpired = .ok (e', n) ∧
    e'.store.contents = e.store.contents.filter (!gone ·) ∧ n = e.store.contents.countP gone

/-- Retention under that age: only terminal executions that are at least as old are deleted, and
all of these under any shorter age. -/
def Retains (e : Engine) (days : Nat) : Prop :=
  ∃ gone, e.Prunes days gone ∧
    (∀ k ∈ e.store.contents, gone k = true →
      k.status.isTerminal = true ∧ ∃ t, k.StoppedAt t ∧ t.AgedBy e.clock days) ∧
    ∀ shorter ≤ days, ∃ gone', e.Prunes shorter gone' ∧ ∀ k ∈ e.store.contents, gone k = true → gone' k = true

theorem pruneExpired_of_some {before : Instant} (hage : e.config.maxAgeDays = some days)
    (h : daysBefore? e.clock days = some before) :
    e.pruneExpired = .ok (({ e with clock := e.clock.tick } : Engine).prune before) := by
  simp only [pruneExpired, hage, readClock, h]

theorem pruneExpired_of_none (hage : e.config.maxAgeDays = some days) (h : daysBefore? e.clock days = none) :
    e.pruneExpired = .error .overflow := by
  simp only [pruneExpired, hage, readClock, h]

theorem prunes_of_daysBefore? {before : Instant} (h : daysBefore? e.clock days = some before) :
    e.Prunes days (Kept.isExpired before) := by
  refine ⟨_, _, pruneExpired_of_some (maxAgeDays_aging e days) h, ?_, ?_⟩
  · exact Store.contents_prune e.store before
  · exact Store.count_prune e.store before

/-- Within reach, retention holds. -/
theorem retains_of_reaches (hnow : e.clock.inRange = true) (hdated : e.store.Dated e.clock)
    (h : e.clock.Reaches days) : e.Retains days := by
  refine ⟨_, prunes_of_daysBefore? (daysBefore?_of_reaches h), fun k hk hgone => ?_, fun shorter hle => ?_⟩
  · have hyear := hdated.year_le (Instant.daysBack_le e.clock days) k hk
    obtain ⟨t, ht, hlt⟩ := Kept.stoppedAt_of_isExpired (hdated.kept k hk) hyear hgone
    exact ⟨Kept.isTerminal_of_isExpired hgone, t, ht, Instant.agedBy_of_lt_daysBack hlt⟩
  · refine ⟨_, prunes_of_daysBefore? (daysBefore?_of_reaches (h.mono hnow hle)), fun k hk hgone => ?_⟩
    have hyear := hdated.year_le (Instant.daysBack_le e.clock shorter) k hk
    exact Kept.isExpired_mono (hdated.kept k hk) hyear (Instant.daysBack_le_daysBack hle) hgone

/-- An execution that has just succeeded, in an engine that holds no other. -/
def justSucceeded (now : Instant) : Execution :=
  { id := "run", workflowId := "wf", workflowVersion := 1, status := .success, startedAt := now, stoppedAt := some now }

def justFinished (now : Instant) : Engine :=
  { registry := [], ids := { run := fun _ => "run" }, clock := now, store := .memory ⟨[justSucceeded now]⟩ }

/-- Beyond reach, it does not hold of what has just finished. -/
theorem not_retains_justFinished (hword : days < pow2 64) (hreach : ¬ now.Reaches days) :
    ¬ (justFinished now).Retains days := by
  rintro ⟨gone, ⟨e', n, hanswer, hcontents, -⟩, hold, -⟩
  cases hbefore : daysBefore? now days with
  | none =>
    rw [pruneExpired_of_none (e := (justFinished now).aging days) rfl hbefore] at hanswer
    cases hanswer
  | some before =>
    obtain ⟨hpos, hlt⟩ := lt_of_daysBefore? hreach hword hbefore
    rw [pruneExpired_of_some (e := (justFinished now).aging days) rfl hbefore] at hanswer
    cases hanswer
    have hkept := (Store.contents_prune (justFinished now).store before).symm.trans hcontents
    have hexpired : (Kept.record (justSucceeded now)).isExpired before = true := Kept.isExpired_record rfl rfl hlt
    have hgone : gone (.record (justSucceeded now)) = true := by
      by_contra hspared
      simp [justFinished, Store.contents, hexpired, hspared] at hkept
    obtain ⟨-, t, ht, haged⟩ := hold _ (List.mem_singleton.mpr rfl) hgone
    obtain rfl := Option.some.inj ht
    exact Instant.not_agedBy_self hpos haged

/-- At any instant, retention holds of every engine under exactly the ages the calendar reaches
back to. -/
theorem retains_iff_reaches (hnow : now.inRange = true) (hword : days < pow2 64) :
    (∀ e : Engine, e.clock = now → e.store.Dated now → e.Retains days) ↔ now.Reaches days := by
  constructor
  · intro hall
    by_contra hreach
    exact not_retains_justFinished hword hreach (hall (justFinished now) rfl trivial)
  · rintro hreach e rfl hdated
    exact retains_of_reaches hnow hdated hreach

/-- An engine that looks back on its one execution after sixty days. -/
def sixtyDaysOn : Engine := { justFinished .epoch with clock := .addSeconds .epoch 5184000 }

theorem retains_sixtyDaysOn : sixtyDaysOn.clock.inRange = true ∧ 30 < pow2 64 ∧ sixtyDaysOn.Retains 30 :=
  ⟨by decide, by decide, (retains_iff_reaches (by decide) (by decide)).mpr (by decide) sixtyDaysOn rfl trivial⟩

example : sixtyDaysOn.clock.Reaches 36500 ∧ ¬ sixtyDaysOn.clock.Reaches 106751991168 := by decide

/-- The greatest age a configuration can name passes its check, and deletes what has just finished. -/
theorem deletes_justFinished :
    ((justFinished .epoch).aging 18446744073709551615).config.check = .ok () ∧
      (∃ e', ((justFinished .epoch).aging 18446744073709551615).pruneExpired = .ok (e', 1) ∧ e'.store.contents = []) ∧
      ¬ (justFinished .epoch).Retains 18446744073709551615 :=
  ⟨rfl, ⟨_, rfl, rfl⟩, not_retains_justFinished (by decide) (by decide)⟩

end Engine
end Workflows
