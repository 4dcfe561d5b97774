/-
  Workflows.Proofs.Time.Column — instants as a table keeps them read back and order alike.

  In the years of four digits the text of an instant is a row of numbers, each of a fixed
  number of digits, with marks at fixed places (`columnChars`). So reading takes the numbers
  back one by one (`ofColumn?_columnText`), and the order of two texts is the order of their
  numbers from left to right, which is the order of the instants (`columnText_lt_iff`). A
  leap second is second 60 of its minute in the text, and so comes after second 59 there too.
-/

import Workflows.Proofs.Time.Calendar
import Workflows.Time.Rfc3339

namespace Workflows
namespace Instant

/-! ## Numbers of a fixed number of digits -/

/-- The last `width` decimal digits of a number. -/
def decimals : (width : Nat) → Nat → List Char
  | 0, _ => []
  | width + 1, n => decimals width (n / 10) ++ [Nat.digitChar (n % 10)]

@[simp]
theorem length_decimals (width n : Nat) : (decimals width n).length = width := by
  induction width generalizing n with
  | zero => rfl
  | succ width ih => simp [decimals, ih]

theorem decimals_zero (width : Nat) : decimals width 0 = List.replicate width '0' := by
  induction width with
  | zero => rfl
  | succ width ih =>
    rw [decimals, Nat.zero_div, ih, List.replicate_succ']
    rfl

/-- Digits filled up with zeros. -/
theorem padded_eq_decimals {width n : Nat} (hwidth : 0 < width) (h : n < 10 ^ width) :
    padded width n = decimals width n := by
  induction width generalizing n with
  | zero => cases hwidth
  | succ width ih =>
    rw [padded, decimals, Nat.toDigits_eq_if (by decide)]
    split
    next hsmall =>
      rw [Nat.div_eq_of_lt hsmall, Nat.mod_eq_of_lt hsmall, decimals_zero]
      rfl
    next hlarge =>
      have hpos : 0 < width := by
        rcases Nat.eq_zero_or_pos width with rfl | hpos
        · exact absurd h (by simpa using hlarge)
        · exact hpos
      have hdiv : n / 10 < 10 ^ width := Nat.div_lt_of_lt_mul (by rwa [Nat.pow_succ, Nat.mul_comm] at h)
      rw [← ih hpos hdiv, padded, List.length_append, List.length_singleton, Nat.add_sub_add_right,
        List.append_assoc]

theorem isDigit_digitChar : ∀ d < 10, isDigit (Nat.digitChar d) = true := by decide

theorem toNat_digitChar : ∀ d < 10, (Nat.digitChar d).toNat - 48 = d := by decide

theorem digitChar_lt_iff : ∀ d < 10, ∀ d' < 10, Nat.digitChar d < Nat.digitChar d' ↔ d < d' := by decide

theorem all_isDigit_decimals (width n : Nat) : (decimals width n).all isDigit = true := by
  induction width generalizing n with
  | zero => rfl
  | succ width ih =>
    rw [decimals, List.all_append, ih, Bool.true_and, List.all_cons, List.all_nil, Bool.and_true]
    exact isDigit_digitChar _ (Nat.mod_lt _ (by decide))

theorem digitsNat_decimals {width n : Nat} (h : n < 10 ^ width) : digitsNat (decimals width n) = n := by
  induction width generalizing n with
  | zero => exact (Nat.lt_one_iff.mp h).symm
  | succ width ih =>
    have hdiv : n / 10 < 10 ^ width := Nat.div_lt_of_lt_mul (by rwa [Nat.pow_succ, Nat.mul_comm] at h)
    have hlast := toNat_digitChar (n % 10) (Nat.mod_lt _ (by decide))
    have hfront : (decimals width (n / 10)).foldl (fun n d => n * 10 + (d.toNat - 48)) 0 = n / 10 := ih hdiv
    rw [digitsNat, decimals, List.foldl_append, hfront, List.foldl_cons, List.foldl_nil, hlast]
    omega

/-- Reading as many digits as were written gives the number and what comes after it. -/
theorem exactly?_decimals {width n : Nat} (h : n < 10 ^ width) (rest : List Char) :
    exactly? width (decimals width n ++ rest) = some (n, rest) := by
  have htake : (decimals width n ++ rest).take width = decimals width n := by
    rw [List.take_append_of_le_length (length_decimals _ _).ge, List.take_of_length_le (length_decimals _ _).le]
  have hdrop : (decimals width n ++ rest).drop width = rest := by
    rw [List.drop_append_of_le_length (length_decimals _ _).ge, List.drop_of_length_le (length_decimals _ _).le,
      List.nil_append]
  simp only [exactly?, htake, hdrop, length_decimals, all_isDigit_decimals, and_self, if_true, digitsNat_decimals h]

/-! ## The order of texts -/

/-- Texts that begin with parts of one length are ordered by these parts, then by the rest. -/
theorem append_lt_append_iff {a a' b b' : List Char} (h : a.length = a'.length) :
    a ++ b < a' ++ b' ↔ a < a' ∨ a = a' ∧ b < b' := by
  induction a generalizing a' with
  | nil =>
    obtain rfl := List.length_eq_zero_iff.mp h.symm
    simp
  | cons x xs ih =>
    cases a' with
    | nil => cases h
    | cons y ys =>
      rw [List.cons_append, List.cons_append, List.cons_lt_cons_iff, List.cons_lt_cons_iff,
        ih (Nat.succ.inj h), List.cons.injEq]
      constructor
      · rintro (hlt | ⟨rfl, hlt | ⟨rfl, hlt⟩⟩)
        · exact .inl (.inl hlt)
        · exact .inl (.inr ⟨rfl, hlt⟩)
        · exact .inr ⟨⟨rfl, rfl⟩, hlt⟩
      · rintro ((hlt | ⟨rfl, hlt⟩) | ⟨⟨rfl, rfl⟩, hlt⟩)
        · exact .inl hlt
        · exact .inr ⟨rfl, .inl hlt⟩
        · exact .inr ⟨rfl, .inr ⟨rfl, hlt⟩⟩

theorem decimals_inj {width m n : Nat} (hm : m < 10 ^ width) (hn : n < 10 ^ width) :
    decimals width m = decimals width n ↔ m = n := by
  refine ⟨fun h => ?_, fun h => h ▸ rfl⟩
  rw [← digitsNat_decimals hm, h, digitsNat_decimals hn]

theorem decimals_lt_iff {width m n : Nat} (hm : m < 10 ^ width) (hn : n < 10 ^ width) :
    decimals width m < decimals width n ↔ m < n := by
  induction width generalizing m n with
  | zero =>
    obtain rfl := Nat.lt_one_iff.mp hm
    obtain rfl := Nat.lt_one_iff.mp hn
    simp
  | succ width ih =>
    have hm' : m / 10 < 10 ^ width := Nat.div_lt_of_lt_mul (by rwa [Nat.pow_succ, Nat.mul_comm] at hm)
    have hn' : n / 10 < 10 ^ width := Nat.div_lt_of_lt_mul (by rwa [Nat.pow_succ, Nat.mul_comm] at hn)
    have hlast := digitChar_lt_iff (m % 10) (Nat.mod_lt _ (by decide)) (n % 10) (Nat.mod_lt _ (by decide))
    rw [decimals, decimals, append_lt_append_iff (by simp), ih hm' hn', decimals_inj hm' hn', List.cons_lt_cons_iff,
      hlast]
    simp only [List.lt_irrefl, and_false, or_false]
    omega

/-- Texts that begin with numbers of one width are ordered by these numbers, then by the rest. -/
theorem decimals_append_lt_iff {width m n : Nat} (hm : m < 10 ^ width) (hn : n < 10 ^ width) {a b : List Char} :
    decimals width m ++ a < decimals width n ++ b ↔ m < n ∨ m = n ∧ a < b := by
  rw [append_lt_append_iff (by simp), decimals_lt_iff hm hn, decimals_inj hm hn]

/-- A mark at the same place in both texts says nothing. -/
theorem mark_cons_lt_iff (c : Char) {a b : List Char} : c :: a < c :: b ↔ a < b := by
  rw [List.cons_lt_cons_iff]
  exact ⟨fun h => h.elim (fun hlt => absurd hlt (Char.lt_irrefl c)) (·.2), fun h => .inr ⟨rfl, h⟩⟩

/-! ## What a text shows -/

/-- The numbers in the text of an instant, from left to right. -/
structure Shown where
  year : Nat
  month : Nat
  day : Nat
  hour : Nat
  minute : Nat
  second : Nat
  nanos : Nat

/-- Each number has room for its digits. -/
structure Shown.Fits (s : Shown) : Prop where
  year : s.year < 10 ^ 4
  month : s.month < 10 ^ 2
  day : s.day < 10 ^ 2
  hour : s.hour < 10 ^ 2
  minute : s.minute < 10 ^ 2
  second : s.second < 10 ^ 2
  nanos : s.nanos < 10 ^ 9

/-- The order of the numbers from left to right. -/
def Shown.Before (s t : Shown) : Prop :=
  s.year < t.year ∨ s.year = t.year ∧ (s.month < t.month ∨ s.month = t.month ∧ (s.day < t.day ∨ s.day = t.day ∧
    (s.hour < t.hour ∨ s.hour = t.hour ∧ (s.minute < t.minute ∨ s.minute = t.minute ∧
      (s.second < t.second ∨ s.second = t.second ∧ s.nanos < t.nanos)))))

def Shown.chars (s : Shown) : List Char :=
  decimals 4 s.year ++ '-' :: (decimals 2 s.month ++ '-' :: (decimals 2 s.day ++ 'T' :: (decimals 2 s.hour ++ ':' ::
    (decimals 2 s.minute ++ ':' :: (decimals 2 s.second ++ '.' :: (decimals 9 s.nanos ++ ['Z']))))))

theorem Shown.chars_lt_iff {s t : Shown} (hs : s.Fits) (ht : t.Fits) : s.chars < t.chars ↔ s.Before t := by
  simp only [chars, Before, mark_cons_lt_iff, decimals_append_lt_iff hs.year ht.year,
    decimals_append_lt_iff hs.month ht.month, decimals_append_lt_iff hs.day ht.day,
    decimals_append_lt_iff hs.hour ht.hour, decimals_append_lt_iff hs.minute ht.minute,
    decimals_append_lt_iff hs.second ht.second, decimals_append_lt_iff hs.nanos ht.nanos, List.lt_irrefl, and_false,
    or_false]

/-- The second that is shown: 60 for a leap second. -/
def shownSecond (a : Instant) : Nat := a.secondOfDay % 60 + (if 1000000000 ≤ a.nanos then 1 else 0)

def shown (a : Instant) : Shown :=
  { year := a.date.year.toNat, month := a.date.month, day := a.date.day, hour := a.secondOfDay / 3600,
    minute := a.secondOfDay / 60 % 60, second := a.shownSecond, nanos := a.fraction }

/-- The instant lies in the years 0 to 9999. -/
def InColumn (a : Instant) : Prop := 0 ≤ a.date.year ∧ a.date.year ≤ 9999

instance (a : Instant) : Decidable a.InColumn := inferInstanceAs (Decidable (0 ≤ a.date.year ∧ a.date.year ≤ 9999))

variable {a b : Instant}

theorem secondOfDay_lt (a : Instant) : a.secondOfDay < 86400 := by
  have : Int.fmod a.seconds 86400 = a.seconds % 86400 := Int.fmod_eq_emod_of_nonneg _ (by decide)
  rw [secondOfDay, this]
  omega

/-- The seconds are those of the days before and those of the day. -/
theorem seconds_eq (a : Instant) : a.seconds = Int.fdiv a.seconds 86400 * 86400 + a.secondOfDay := by
  have hmod : Int.fmod a.seconds 86400 = a.seconds % 86400 := Int.fmod_eq_emod_of_nonneg _ (by decide)
  have hdiv : Int.fdiv a.seconds 86400 = a.seconds / 86400 := Int.fdiv_eq_ediv_of_nonneg _ (by decide)
  rw [secondOfDay, hmod, hdiv]
  omega

/-- A leap second is the last of its minute. -/
theorem secondOfDay_of_leap (h : 1000000000 ≤ a.nanos) : a.secondOfDay % 60 = 59 := by
  have hleap := a.leap h
  have hseconds := a.seconds_eq
  omega

theorem valid_date (a : Instant) : a.date.isValid = true := CivilDate.isValid_ofDays _

theorem date_bounds (a : Instant) : a.date.month ≤ 12 ∧ a.date.day ≤ 31 := by
  have hvalid := a.valid_date
  simp only [CivilDate.isValid, Bool.and_eq_true, decide_eq_true_eq] at hvalid
  have hlength : CivilDate.daysInMonth a.date.year a.date.month ≤ 31 := by
    unfold CivilDate.daysInMonth
    split
    · split <;> decide
    · split <;> decide
  exact ⟨hvalid.1.1.2, hvalid.2.trans hlength⟩

theorem shown_fits (h : a.InColumn) : a.shown.Fits := by
  have hsecond := a.secondOfDay_lt
  have hdate := a.date_bounds
  have hyear := h.2
  constructor
  case second =>
    simp only [shown, shownSecond]
    split <;> omega
  all_goals
    simp only [shown, fraction]
    omega

theorem columnText_eq (h : a.InColumn) : a.columnText = String.ofList a.shown.chars := by
  have hfits := a.shown_fits h
  have hyear : yearChars a.date.year = decimals 4 a.shown.year := by
    rw [yearChars, if_pos (And.intro h.1 h.2), padded_eq_decimals (n := a.date.year.toNat) (by decide) hfits.year]
    rfl
  rw [columnText, dateTimeChars, Shown.chars, hyear]
  rw [padded_eq_decimals (n := a.date.month) (by decide) hfits.month,
    padded_eq_decimals (n := a.date.day) (by decide) hfits.day,
    padded_eq_decimals (n := a.secondOfDay / 3600) (by decide) hfits.hour,
    padded_eq_decimals (n := a.secondOfDay / 60 % 60) (by decide) hfits.minute,
    padded_eq_decimals (n := a.secondOfDay % 60 + _) (by decide) hfits.second,
    padded_eq_decimals (n := a.fraction) (by decide) hfits.nanos]
  simp only [List.append_assoc, List.cons_append]
  rfl

/-! ## Texts order like instants -/

/-- Within a day, the hour, the minute and the second that is shown tell what comes first. -/
theorem clock_lt_iff {s t m n : Nat} (hs : 1000000000 ≤ m → s % 60 = 59) (ht : 1000000000 ≤ n → t % 60 = 59)
    (hm : m < 2000000000) (hn : n < 2000000000) :
    s < t ∨ s = t ∧ m < n ↔
      s / 3600 < t / 3600 ∨ s / 3600 = t / 3600 ∧ (s / 60 % 60 < t / 60 % 60 ∨ s / 60 % 60 = t / 60 % 60 ∧
        (s % 60 + (if 1000000000 ≤ m then 1 else 0) < t % 60 + (if 1000000000 ≤ n then 1 else 0) ∨
          s % 60 + (if 1000000000 ≤ m then 1 else 0) = t % 60 + (if 1000000000 ≤ n then 1 else 0) ∧
            m % 1000000000 < n % 1000000000)) := by
  -- an hour is as many minutes, a minute as many seconds
  have hhour : s / 3600 = s / 60 / 60 ∧ t / 3600 = t / 60 / 60 := by
    constructor <;> rw [Nat.div_div_eq_div_mul]
  rw [hhour.1, hhour.2]
  have hminute : s / 60 < t / 60 ∨ s / 60 = t / 60 ∧ (s % 60 < t % 60 ∨ s % 60 = t % 60 ∧ m < n) ↔
      s < t ∨ s = t ∧ m < n := by omega
  have hsecond : (s % 60 < t % 60 ∨ s % 60 = t % 60 ∧ m < n) ↔
      (s % 60 + (if 1000000000 ≤ m then 1 else 0) < t % 60 + (if 1000000000 ≤ n then 1 else 0) ∨
        s % 60 + (if 1000000000 ≤ m then 1 else 0) = t % 60 + (if 1000000000 ≤ n then 1 else 0) ∧
          m % 1000000000 < n % 1000000000) := by
    split <;> split <;> omega
  rw [← hminute, hsecond]
  omega

theorem lt_iff_parts : a < b ↔ a.seconds < b.seconds ∨ a.seconds = b.seconds ∧ a.nanos < b.nanos := by
  show a.before b = true ↔ _
  simp [before]

theorem le_iff_parts : a ≤ b ↔ a.seconds < b.seconds ∨ a.seconds = b.seconds ∧ a.nanos ≤ b.nanos := by
  show ¬ b < a ↔ _
  rw [lt_iff_parts]
  omega

theorem le_total (a b : Instant) : a ≤ b ∨ b ≤ a := by
  rw [le_iff_parts, le_iff_parts]
  omega

theorem le_trans {c : Instant} (h : a ≤ b) (h' : b ≤ c) : a ≤ c := by
  rw [le_iff_parts] at h h' ⊢
  omega

theorem eq_of_parts (hseconds : a.seconds = b.seconds) (hnanos : a.nanos = b.nanos) : a = b := by
  cases a
  cases b
  simp only at hseconds hnanos
  subst hseconds hnanos
  rfl

theorem le_antisymm (h : a ≤ b) (h' : b ≤ a) : a = b := by
  rw [le_iff_parts] at h h'
  exact eq_of_parts (by omega) (by omega)

theorem lt_iff : a < b ↔ Int.fdiv a.seconds 86400 < Int.fdiv b.seconds 86400 ∨
    Int.fdiv a.seconds 86400 = Int.fdiv b.seconds 86400 ∧
      (a.secondOfDay < b.secondOfDay ∨ a.secondOfDay = b.secondOfDay ∧ a.nanos < b.nanos) := by
  have ha := a.seconds_eq
  have hb := b.seconds_eq
  have hlt := a.secondOfDay_lt
  have hlt' := b.secondOfDay_lt
  rw [lt_iff_parts]
  omega

/-- The numbers of a text are those of the date, then those of the time of day. -/
theorem shown_before_iff (ha : a.InColumn) (hb : b.InColumn) : a.shown.Before b.shown ↔ a < b := by
  have hyear : 0 ≤ a.date.year := ha.1
  have hyear' : 0 ≤ b.date.year := hb.1
  have hdate : a.date = b.date ↔
      a.date.year = b.date.year ∧ a.date.month = b.date.month ∧ a.date.day = b.date.day := by
    cases a.date
    cases b.date
    exact CivilDate.mk.injEq _ _ _ _ _ _ ▸ Iff.rfl
  rw [lt_iff, ← CivilDate.ofDays_before_iff, ← CivilDate.ofDays_inj,
    clock_lt_iff (fun h => a.secondOfDay_of_leap h) (fun h => b.secondOfDay_of_leap h) a.nanos_lt b.nanos_lt,
    show CivilDate.ofDays (Int.fdiv a.seconds 86400) = a.date from rfl,
    show CivilDate.ofDays (Int.fdiv b.seconds 86400) = b.date from rfl, hdate]
  simp only [Shown.Before, shown, shownSecond, fraction, CivilDate.Before]
  omega

/-- In the years of four digits, texts come in the order of their instants. -/
theorem columnText_lt_iff (ha : a.InColumn) (hb : b.InColumn) : a.columnText < b.columnText ↔ a < b := by
  rw [columnText_eq ha, columnText_eq hb, String.lt_iff, String.toList_ofList, String.toList_ofList,
    Shown.chars_lt_iff (shown_fits ha) (shown_fits hb), shown_before_iff ha hb]

theorem columnText_le_iff (ha : a.InColumn) (hb : b.InColumn) : a.columnText ≤ b.columnText ↔ a ≤ b := by
  rw [← String.not_lt, columnText_lt_iff hb ha]
  rfl

/-! ## Texts of other years -/

/-- The text of any other year begins with a sign, which comes before all digits. -/
theorem columnText_of_not_inColumn (h : ¬ a.InColumn) :
    ∃ sign rest, a.columnText.toList = sign :: rest ∧ sign < '0' := by
  rw [columnText, dateTimeChars, yearChars, if_neg (show ¬ (0 ≤ a.date.year ∧ a.date.year ≤ 9999) from h),
    String.toList_ofList]
  split
  · exact ⟨'-', _, rfl, by decide⟩
  · exact ⟨'+', _, rfl, by decide⟩

theorem columnText_of_inColumn (h : a.InColumn) :
    ∃ digit rest, a.columnText.toList = digit :: rest ∧ isDigit digit = true := by
  have hdigits := all_isDigit_decimals 4 a.shown.year
  have hlength := length_decimals 4 a.shown.year
  cases hyear : decimals 4 a.shown.year with
  | nil => rw [hyear] at hlength; cases hlength
  | cons digit rest =>
    rw [hyear, List.all_cons, Bool.and_eq_true] at hdigits
    obtain ⟨others, hchars⟩ : ∃ others, a.columnText.toList = decimals 4 a.shown.year ++ others :=
      ⟨_, by rw [columnText_eq h, String.toList_ofList]; rfl⟩
    exact ⟨digit, rest ++ others, by rw [hchars, hyear]; rfl, hdigits.1⟩

theorem columnText_lt_of_not_inColumn (ha : a.InColumn) (hb : ¬ b.InColumn) : b.columnText < a.columnText := by
  obtain ⟨sign, rest, hsign, hlt⟩ := columnText_of_not_inColumn hb
  obtain ⟨digit, rest', hdigit, hge⟩ := columnText_of_inColumn ha
  rw [String.lt_iff, hsign, hdigit, List.cons_lt_cons_iff]
  rw [isDigit, Bool.and_eq_true, decide_eq_true_eq] at hge
  exact .inl (Nat.lt_of_lt_of_le (m := '0'.toNat) hlt hge.1)

theorem year_le_of_lt (h : a < b) : a.date.year ≤ b.date.year := by
  rcases lt_iff.mp h with hday | ⟨hday, -⟩
  · have hbefore : a.date.Before b.date := (CivilDate.ofDays_before_iff _ _).mpr hday
    unfold CivilDate.Before at hbefore
    omega
  · have hdate : a.date = b.date := congrArg CivilDate.ofDays hday
    rw [hdate]

theorem lt_of_year_lt (h : a.date.year < b.date.year) : a < b := by
  by_contra hnot
  by_cases hlt : b < a
  · exact absurd (year_le_of_lt hlt) (Int.not_le.mpr h)
  · exact absurd h (le_antisymm hlt hnot ▸ Int.lt_irrefl _)

/-- What comes before an instant can be told from the texts also when that lies before the year 0:
then nothing does. -/
theorem columnText_lt_iff_of_year_le (ha : a.InColumn) (hb : b.date.year ≤ 9999) :
    a.columnText < b.columnText ↔ a < b := by
  by_cases hcolumn : b.InColumn
  · exact columnText_lt_iff ha hcolumn
  · refine iff_of_false (fun hlt => ?_) fun hlt => ?_
    · exact absurd (String.lt_trans hlt (columnText_lt_of_not_inColumn ha hcolumn)) (String.lt_irrefl _)
    · exact hcolumn ⟨Int.le_trans ha.1 (year_le_of_lt hlt), hb⟩

/-! ## Reading a text back -/

theorem mark?_cons (c : Char) (rest : List Char) : mark? c (c :: rest) = some rest := by
  rw [mark?, if_pos rfl]

/-- The date and the time of day that a text shows are those of the instant. -/
theorem ofCivil?_shown (a : Instant) (h : a.fraction < 1000000000) :
    ofCivil? a.date (a.secondOfDay / 3600) (a.secondOfDay / 60 % 60) a.shownSecond a.fraction h = some a := by
  have hdays : a.date.toDays = Int.fdiv a.seconds 86400 := CivilDate.toDays_ofDays _
  have hseconds := a.seconds_eq
  have hlt := a.nanos_lt
  have hminute := Nat.mod_lt a.secondOfDay (show 0 < 60 by decide)
  have hfraction : a.fraction = a.nanos % 1000000000 := rfl
  rw [ofCivil?, if_pos a.valid_date]
  by_cases hleap : 1000000000 ≤ a.nanos
  · have hlast := secondOfDay_of_leap hleap
    have hsixty : a.shownSecond = 60 := by rw [shownSecond, if_pos hleap, hlast]
    have hwhole : (a.date.toDays * 86400 +
        ((a.secondOfDay / 3600 * 3600 + a.secondOfDay / 60 % 60 * 60 : Nat) : Int) + 59) % 60 = 59 := by omega
    simp only [hsixty, if_true, dif_pos hwhole]
    exact congrArg some (eq_of_parts (by simp only; omega) (by simp only; omega))
  · have hplain : a.shownSecond = a.secondOfDay % 60 := by rw [shownSecond, if_neg hleap, Nat.add_zero]
    have hne : ¬ a.secondOfDay % 60 = 60 := by omega
    simp only [hplain, if_neg hne]
    exact congrArg some (eq_of_parts (by simp only; omega) (by simp only; omega))

/-- An instant in the years of four digits reads back from its text. -/
theorem ofColumn?_columnText (ha : a.InColumn) : ofColumn? a.columnText = some a := by
  have hfits := shown_fits ha
  have hsecond := a.secondOfDay_lt
  have hfraction : a.shown.nanos < 1000000000 := Nat.mod_lt _ (by decide)
  have hhour : a.shown.hour < 24 := Nat.div_lt_of_lt_mul hsecond
  have hminute : a.shown.minute < 60 := Nat.mod_lt _ (by decide)
  have hshown : a.shown.second ≤ 60 := by
    show a.shownSecond ≤ 60
    unfold shownSecond
    split <;> omega
  have hyear : (a.shown.year : Int) = a.date.year := Int.toNat_of_nonneg ha.1
  rw [columnText_eq ha, ofColumn?, String.toList_ofList]
  simp only [Shown.chars, bind, Option.bind, exactly?_decimals hfits.year, exactly?_decimals hfits.month,
    exactly?_decimals hfits.day, exactly?_decimals hfits.hour, exactly?_decimals hfits.minute,
    exactly?_decimals hfits.second, exactly?_decimals hfits.nanos, mark?_cons]
  rw [dif_pos hfraction, if_pos ⟨rfl, hhour, hminute, hshown⟩, hyear]
  exact a.ofCivil?_shown hfraction

end Instant
end Workflows
