/-
  Workflows.Proofs.Time.Calendar — days counted and days of the calendar are the same days.

  Four hundred years are an era of 146097 days. Within an era the year of a day is found by a
  division that allows for the leap days before it; that the division is right is checked at
  the two ends of each of the 400 years and carried to the days between by monotony
  (`yearStart_le`, `lt_yearEnd`). From there on years begin in March, so the months before a
  day have the same length in all years. `toDays_ofDays` and `ofDays_before_iff` are what the
  rest of the library needs: the date of a day is a real one and counts back to that day, and
  dates come in the order of their days.
-/

import Mathlib.Order.Monotone.Basic
import Mathlib.Tactic.IntervalCases
import Workflows.Time.Instant

namespace Workflows
namespace CivilDate

/-- One date is earlier than another. -/
def Before (a b : CivilDate) : Prop :=
  a.year < b.year ∨ a.year = b.year ∧ (a.month < b.month ∨ a.month = b.month ∧ a.day < b.day)

/-! ## Years of an era -/

/-- The year of an era that a day of the era falls in. -/
def yearOfEra (day : Nat) : Nat := (day - day / 1460 + day / 36524 - day / 146096) / 365

/-- The day of an era that a year of the era begins with. -/
def yearStart (year : Nat) : Nat := 365 * year + year / 4 - year / 100

/-- The day of an era after a year of the era; the last year has a leap day the rule for
centuries would take away. -/
def yearEnd (year : Nat) : Nat := yearStart (year + 1) + (year + 1) / 400

theorem yearOfEra_mono : Monotone yearOfEra := by
  refine monotone_nat_of_le_succ fun day => Nat.div_le_div_right ?_
  have h₁ : (day + 1) / 1460 ≤ day / 1460 + 1 := by omega
  have h₂ : day / 36524 ≤ (day + 1) / 36524 := by omega
  have h₃ : (day + 1) / 146096 = day / 146096 ∨
      (day + 1) / 146096 = day / 146096 + 1 ∧ (day + 1) / 36524 = day / 36524 + 1 := by omega
  omega

theorem yearOfEra_ends : ∀ year < 400,
    yearOfEra (yearStart year) = year ∧ yearOfEra (yearEnd year - 1) = year ∧ yearStart year < yearEnd year := by
  decide +kernel

theorem yearOfEra_lt {day : Nat} (h : day < 146097) : yearOfEra day < 400 := by
  have hlast : yearOfEra day ≤ yearOfEra 146096 := yearOfEra_mono (Nat.le_of_lt_succ h)
  have : yearOfEra 146096 = 399 := by decide
  omega

theorem yearStart_le {day : Nat} (h : day < 146097) : yearStart (yearOfEra day) ≤ day := by
  by_contra hlt
  have hyear := yearOfEra_lt h
  generalize hy : yearOfEra day = year at *
  cases year with
  | zero => exact hlt (Nat.zero_le _)
  | succ before =>
    -- then the day falls in the year before
    have hnext : yearStart (before + 1) ≤ yearEnd before := Nat.le_add_right _ _
    have hle : yearOfEra day ≤ yearOfEra (yearEnd before - 1) := yearOfEra_mono (by omega)
    have hbefore := (yearOfEra_ends before (by omega)).2.1
    omega

theorem lt_yearEnd {day : Nat} (h : day < 146097) : day < yearEnd (yearOfEra day) := by
  by_contra hge
  have hyear := yearOfEra_lt h
  generalize hy : yearOfEra day = year at *
  by_cases hlast : year = 399
  · subst hlast
    exact hge h
  · -- then the day falls in the year after
    have hnext : yearEnd year = yearStart (year + 1) := by
      unfold yearEnd
      omega
    have hle : yearOfEra (yearStart (year + 1)) ≤ yearOfEra day := yearOfEra_mono (by omega)
    have hafter := (yearOfEra_ends (year + 1) (by omega)).1
    omega

theorem yearEnd_le_add {year : Nat} (h : year < 400) : yearEnd year ≤ yearStart year + 366 := by
  have hera : (year + 1) / 400 = 0 ∨ year = 399 := by omega
  unfold yearEnd yearStart
  omega

/-- A year from March is a day longer when it ends in a leap year. -/
theorem isLeapYear_of_yearEnd {year : Nat} (era : Int) (h : yearEnd year = yearStart year + 366) (hlt : year < 400) :
    isLeapYear (year + era * 400 + 1) = true := by
  unfold yearEnd yearStart at h
  have hfour : (year + 1) % 4 = 0 := by omega
  have hhundred : (year + 1) % 100 ≠ 0 ∨ (year + 1) % 400 = 0 := by omega
  simp only [isLeapYear, Bool.and_eq_true, Bool.or_eq_true, decide_eq_true_eq]
  omega

/-! ## A day of the calendar -/

/-- The day of a year, from March, that a month begins with. -/
def monthStart (month : Nat) : Nat := (153 * month + 2) / 5

/-- The month from March that a day of the year falls in. -/
def monthOfYear (day : Nat) : Nat := (5 * day + 2) / 153

theorem monthOfYear_spec (day : Nat) (h : day < 366) :
    monthStart (monthOfYear day) ≤ day ∧ day < monthStart (monthOfYear day + 1) ∧ monthOfYear day < 12 := by
  unfold monthStart monthOfYear
  omega

/-- The day `n` is this day, from 1, of a month from March of a year of an era. -/
structure Falls (n era : Int) (year month day : Nat) : Prop where
  counted : n + 719468 = era * 146097 + (yearStart year + monthStart month + day : Nat) - 1
  year_lt : year < 400
  month_lt : month < 12
  day_pos : 1 ≤ day
  inYear : yearStart year + monthStart month + day ≤ yearEnd year
  inMonth : monthStart month + day ≤ monthStart (month + 1)

/-- All months but the last, which is February, are as long in all years. -/
theorem monthStart_succ_le (y : Int) (month : Nat) (h : month < 11) :
    monthStart (month + 1) ≤ monthStart month + daysInMonth y (if month < 10 then month + 3 else month - 9) := by
  interval_cases month <;> simp [monthStart, daysInMonth]

/-- The date of a day that falls so. -/
def ofParts (era : Int) (year month day : Nat) : CivilDate :=
  ⟨year + era * 400 + (if month < 10 then 0 else 1), if month < 10 then month + 3 else month - 9, day⟩

theorem ofDays_falls (n : Int) : ∃ era year month day, Falls n era year month day ∧
    ofDays n = ofParts era year month day := by
  have hfdiv : Int.fdiv (n + 719468) 146097 = (n + 719468) / 146097 := Int.fdiv_eq_ediv_of_nonneg _ (by decide)
  obtain ⟨dayOfEra, hday⟩ : ∃ d : Nat, (n + 719468) - (n + 719468) / 146097 * 146097 = d :=
    Int.eq_ofNat_of_zero_le (by omega)
  have hera : dayOfEra < 146097 := by omega
  have hstart := yearStart_le hera
  have hend := lt_yearEnd hera
  generalize hyear : yearOfEra dayOfEra = year at hstart hend
  have hyear400 : year < 400 := hyear ▸ yearOfEra_lt hera
  obtain ⟨dayOfYear, hdayOfYear⟩ := Nat.exists_eq_add_of_le hstart
  have hlength := yearEnd_le_add hyear400
  obtain ⟨hmonth, hnext, hmonth12⟩ := monthOfYear_spec dayOfYear (by omega)
  refine ⟨(n + 719468) / 146097, year, monthOfYear dayOfYear, dayOfYear - monthStart (monthOfYear dayOfYear) + 1, ?_, ?_⟩
  · exact
      { counted := by omega
        year_lt := hyear400
        month_lt := hmonth12
        day_pos := Nat.le_add_left 1 _
        inYear := by omega
        inMonth := by omega }
  · have hsub : dayOfEra - (365 * year + year / 4 - year / 100) = dayOfYear := by
      rw [hdayOfYear]
      exact Nat.add_sub_cancel_left (yearStart year) dayOfYear
    simp only [ofDays, hfdiv, hday, Int.toNat_natCast]
    rw [show (dayOfEra - dayOfEra / 1460 + dayOfEra / 36524 - dayOfEra / 146096) / 365 = year from hyear, hsub]
    rw [show (5 * dayOfYear + 2) / 153 = monthOfYear dayOfYear from rfl]
    rw [show (153 * monthOfYear dayOfYear + 2) / 5 = monthStart (monthOfYear dayOfYear) from rfl, ofParts]
    congr 2
    split <;> split <;> omega

namespace Falls

variable {n n' era era' : Int} {year year' month month' day day' : Nat}

theorem yearEnd_le_yearStart (h : year < year') (hlast : year' < 400) : yearEnd year ≤ yearStart year' := by
  have hfour : (year + 1) / 4 ≤ year' / 4 := Nat.div_le_div_right h
  have hhundred : year' / 100 ≤ (year + 1) / 100 + (year' - (year + 1)) := by omega
  have hera : (year + 1) / 400 = 0 := by omega
  unfold yearEnd yearStart
  omega

theorem yearEnd_le (h : year < 400) : yearEnd year ≤ 146097 := by
  unfold yearEnd yearStart
  omega

theorem monthStart_mono (h : month ≤ month') : monthStart month ≤ monthStart month' := by
  unfold monthStart
  omega

theorem ofParts_before_iff (h : Falls n era year month day) (h' : Falls n' era' year' month' day') :
    (ofParts era year month day).Before (ofParts era' year' month' day') ↔
      era < era' ∨ era = era' ∧ (year < year' ∨ year = year' ∧ (month < month' ∨ month = month' ∧ day < day')) := by
  have hyear := h.year_lt
  have hyear' := h'.year_lt
  have hmonth := h.month_lt
  have hmonth' := h'.month_lt
  simp only [Before, ofParts]
  split <;> split <;> omega

/-- A day comes before another exactly when its date is earlier. -/
theorem lt_iff (h : Falls n era year month day) (h' : Falls n' era' year' month' day') :
    n < n' ↔
      era < era' ∨ era = era' ∧ (year < year' ∨ year = year' ∧ (month < month' ∨ month = month' ∧ day < day')) := by
  have hcounted := h.counted
  have hcounted' := h'.counted
  have hend := yearEnd_le h.year_lt
  have hend' := yearEnd_le h'.year_lt
  have hin := h.inYear
  have hin' := h'.inYear
  have hday := h.day_pos
  have hday' := h'.day_pos
  -- the earlier of two eras, years or months is over before the later begins
  rcases lt_trichotomy era era' with hera | rfl | hera
  · exact iff_of_true (by omega) (.inl hera)
  · rcases Nat.lt_trichotomy year year' with hyear | rfl | hyear
    · have := yearEnd_le_yearStart hyear h'.year_lt
      omega
    · have hmonth := h.inMonth
      have hmonth' := h'.inMonth
      rcases Nat.lt_trichotomy month month' with hlt | rfl | hlt
      · have := monthStart_mono (show _ + 1 ≤ _ from hlt)
        omega
      · omega
      · have := monthStart_mono (show _ + 1 ≤ _ from hlt)
        omega
    · have := yearEnd_le_yearStart hyear h.year_lt
      omega
  · exact iff_of_false (by omega) (by omega)

/-- February is cut short by the end of the year, a day later in a leap year. -/
theorem day_le_of_february (h : Falls n era year 11 day) : day ≤ daysInMonth (year + era * 400 + 1) 2 := by
  have hyear400 := h.year_lt
  have hyear := h.inYear
  have hlength := yearEnd_le_add hyear400
  rw [daysInMonth, if_pos rfl]
  unfold monthStart at hyear
  by_cases hlong : yearEnd year = yearStart year + 366
  · rw [if_pos (isLeapYear_of_yearEnd era hlong hyear400)]
    omega
  · split <;> omega

theorem isValid_ofParts (h : Falls n era year month day) : (ofParts era year month day).isValid = true := by
  have hmonth := h.inMonth
  have hday := h.day_pos
  have hlt := h.month_lt
  have hle : day ≤ daysInMonth (year + era * 400 + (if month < 10 then 0 else 1))
      (if month < 10 then month + 3 else month - 9) := by
    by_cases hlast : month = 11
    · subst hlast
      exact h.day_le_of_february
    · have := monthStart_succ_le (year + era * 400 + (if month < 10 then 0 else 1)) month (by omega)
      omega
  have hfirst : 1 ≤ (if month < 10 then month + 3 else month - 9) := by split <;> omega
  have htwelfth : (if month < 10 then month + 3 else month - 9) ≤ 12 := by split <;> omega
  simp only [isValid, ofParts, Bool.and_eq_true]
  exact ⟨⟨⟨decide_eq_true hfirst, decide_eq_true htwelfth⟩, decide_eq_true hday⟩, decide_eq_true hle⟩

/-- Counting a date that a day has comes to that day. -/
theorem toDays_ofParts (h : Falls n era year month day) : (ofParts era year month day).toDays = n := by
  have hcounted := h.counted
  have hyear := h.year_lt
  have hmonth := h.month_lt
  have hday := h.day_pos
  have hmarch : (if (ofParts era year month day).month ≤ 2 then (ofParts era year month day).year - 1
      else (ofParts era year month day).year) = year + era * 400 := by
    simp only [ofParts]
    split <;> split <;> omega
  have hera : Int.fdiv (year + era * 400) 400 = era := by
    rw [Int.fdiv_eq_ediv_of_nonneg _ (by decide)]
    omega
  have hfromMarch : ((ofParts era year month day).month + 9) % 12 = month := by
    simp only [ofParts]
    split <;> omega
  have hdayOfEra : year * 365 + year / 4 - year / 100 = yearStart year := by
    rw [yearStart, Nat.mul_comm]
  have hnat : (year + era * 400 - era * 400 : Int).toNat = year := by omega
  simp only [toDays, hmarch, hera, hnat, hfromMarch]
  rw [hdayOfEra, show (153 * month + 2) / 5 = monthStart month from rfl,
    show (ofParts era year month day).day = day from rfl]
  omega

end Falls

/-! ## Days and dates -/

/-- The date of a day is a day of the calendar. -/
theorem isValid_ofDays (n : Int) : (ofDays n).isValid = true := by
  obtain ⟨era, year, month, day, h, heq⟩ := ofDays_falls n
  exact heq ▸ h.isValid_ofParts

theorem toDays_ofDays (n : Int) : (ofDays n).toDays = n := by
  obtain ⟨era, year, month, day, h, heq⟩ := ofDays_falls n
  exact heq ▸ h.toDays_ofParts

/-- Dates come in the order of their days. -/
theorem ofDays_before_iff (n n' : Int) : (ofDays n).Before (ofDays n') ↔ n < n' := by
  obtain ⟨era, year, month, day, h, heq⟩ := ofDays_falls n
  obtain ⟨era', year', month', day', h', heq'⟩ := ofDays_falls n'
  rw [heq, heq', h.ofParts_before_iff h', h.lt_iff h']

theorem ofDays_inj {n n' : Int} : ofDays n = ofDays n' ↔ n = n' :=
  ⟨fun h => by rw [← toDays_ofDays n, h, toDays_ofDays], congrArg ofDays⟩

end CivilDate
end Workflows
