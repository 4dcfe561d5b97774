/-
  Workflows.Proofs.Time.Printed — timestamps read back as they were printed.

  A timestamp is printed with as few fraction digits as lose nothing, and with a sign before
  any year that has not four digits. The reader is more lenient than that: it passes over
  blanks, takes short numbers and clips long fractions. So each reader is shown what the
  printer writes for its part, and none of the leniency applies there. What is left is that
  the numbers are those of the instant, which `ofCivil?_shown` says. How few digits there are,
  and that one less would lose something, is `exists_tell`.
-/

import Workflows.Proofs.Fallible
import Workflows.Proofs.Time.Column

namespace Workflows

namespace Instant

/-! ## Numbers -/

theorem isSpace_of_isDigit {c : Char} (h : isDigit c = true) : Text.isSpace c = false := by
  simp only [isDigit, Bool.and_eq_true, decide_eq_true_eq] at h
  have hlow : 48 ≤ c.toNat := h.1
  have hhigh : c.toNat ≤ 57 := h.2
  simp [Text.isSpace]
  omega

theorem decimals_eq_cons {width : Nat} (hwidth : 0 < width) (n : Nat) :
    ∃ d ds, decimals width n = d :: ds ∧ isDigit d = true := by
  have hdigits := all_isDigit_decimals width n
  have hlength := length_decimals width n
  cases hds : decimals width n with
  | nil =>
    rw [hds, List.length_nil] at hlength
    omega
  | cons d ds =>
    rw [hds, List.all_cons, Bool.and_eq_true] at hdigits
    exact ⟨d, ds, rfl, hdigits.1⟩

/-- There are no blanks before a number to pass over. -/
theorem trimStart_decimals {width : Nat} (hwidth : 0 < width) (n : Nat) (rest : List Char) :
    Text.trimStart (decimals width n ++ rest) = decimals width n ++ rest := by
  obtain ⟨d, ds, hds, hd⟩ := decimals_eq_cons hwidth n
  rw [hds, List.cons_append, Text.trimStart, List.dropWhile_cons_of_neg (by simp [isSpace_of_isDigit hd])]

/-- Digits filled up to four, of whatever number. -/
theorem padded_four_eq_decimals (n : Nat) : ∃ width, 0 < width ∧ n < 10 ^ width ∧ padded 4 n = decimals width n := by
  by_cases h : n < 10 ^ 4
  · exact ⟨4, by decide, h, padded_eq_decimals (by decide) h⟩
  · have hpos : 0 < (Nat.toDigits 10 n).length := Nat.length_toDigits_pos
    have hfits : n < 10 ^ (Nat.toDigits 10 n).length :=
      (Nat.length_toDigits_le_iff (by decide) hpos).mp Nat.le.refl
    have hlong : ¬ (Nat.toDigits 10 n).length ≤ 4 := fun hle =>
      h ((Nat.length_toDigits_le_iff (by decide) (by decide)).mp hle)
    refine ⟨_, hpos, hfits, ?_⟩
    rw [← padded_eq_decimals hpos hfits, padded, padded, Nat.sub_self, show 4 - (Nat.toDigits 10 n).length = 0 by omega]

/-- A number reads back when the digits in sight are those that were written. -/
theorem readNumber_of_takeWhile {width n : Nat} (hwidth : 0 < width) (hfits : n < 10 ^ width) (hword : n < pow2 63)
    {limit : Option Nat} {rest : List Char}
    (hdigits : (limit.elim (decimals width n ++ rest) (decimals width n ++ rest).take).takeWhile isDigit =
      decimals width n) :
    readNumber limit (decimals width n ++ rest) = .ok (n, rest) := by
  have hrest : (decimals width n ++ rest).drop width = rest := by
    rw [List.drop_append_of_le_length (length_decimals _ _).ge, List.drop_of_length_le (length_decimals _ _).le,
      List.nil_append]
  have hsome : (decimals width n).isEmpty = false := by
    obtain ⟨d, ds, hds, -⟩ := decimals_eq_cons hwidth n
    rw [hds, List.isEmpty_cons]
  cases limit with
  | none | some =>
    simp only [Option.elim_none, Option.elim_some] at hdigits
    simp only [readNumber, hdigits, hsome, digitsNat_decimals hfits, length_decimals, hrest,
      if_neg (Nat.not_le.mpr hword), Bool.false_eq_true, if_false]

/-- A number of as many digits as are looked at. -/
theorem readNumber_decimals {width n : Nat} (hwidth : 0 < width) (hfits : n < 10 ^ width) (hword : n < pow2 63)
    (rest : List Char) : readNumber (some width) (decimals width n ++ rest) = .ok (n, rest) := by
  refine readNumber_of_takeWhile hwidth hfits hword ?_
  have hwindow : (decimals width n ++ rest).take width = decimals width n ++ [] := by
    rw [List.take_append_of_le_length (length_decimals _ _).ge, List.take_of_length_le (length_decimals _ _).le,
      List.append_nil]
  rw [Option.elim_some, hwindow, List.takeWhile_append_of_pos (List.all_eq_true.mp (all_isDigit_decimals width n)), List.takeWhile_nil,
    List.append_nil]

/-- A number that ends where no digit follows. -/
theorem readNumber_decimals_cons {width n : Nat} (hwidth : 0 < width) (hfits : n < 10 ^ width) (hword : n < pow2 63)
    {limit : Option Nat} (hlimit : ∀ w ∈ limit, width < w) {mark : Char} (hmark : isDigit mark = false)
    (rest : List Char) : readNumber limit (decimals width n ++ mark :: rest) = .ok (n, mark :: rest) := by
  have hends (more : List Char) : (decimals width n ++ mark :: more).takeWhile isDigit = decimals width n := by
    rw [List.takeWhile_append_of_pos (List.all_eq_true.mp (all_isDigit_decimals width n)),
      List.takeWhile_cons_of_neg (by simp [hmark]), List.append_nil]
  refine readNumber_of_takeWhile hwidth hfits hword ?_
  cases limit with
  | none => exact hends rest
  | some w =>
    obtain ⟨k, rfl⟩ := Nat.exists_eq_add_of_lt (hlimit w rfl)
    have hwindow : (decimals width n ++ mark :: rest).take (width + k + 1) = decimals width n ++ mark :: rest.take k := by
      rw [List.take_append, length_decimals, List.take_of_length_le (by rw [length_decimals]; omega),
        show width + k + 1 - width = k + 1 by omega, List.take_succ_cons]
    rw [Option.elim_some, hwindow]
    exact hends _

/-! ## The parts of a timestamp -/

theorem readField_decimals {low high n : Nat} (hlow : low ≤ n) (hhigh : n ≤ high) (hfits : n < 10 ^ 2)
    (rest : List Char) : readField low high (decimals 2 n ++ rest) = .ok (n, rest) := by
  have hword : n < pow2 63 := Nat.lt_trans hfits (by decide)
  rw [readField, trimStart_decimals (by decide), readNumber_decimals (by decide) hfits hword]
  simp only [bind, Except.bind, if_pos (And.intro hlow hhigh)]
  rfl

theorem readMark_cons {mark : Char} (hmark : Text.isSpace mark = false) (rest : List Char) :
    readMark mark (mark :: rest) = .ok rest := by
  rw [readMark, Text.trimStart, List.dropWhile_cons_of_neg (by simp [hmark])]
  exact if_pos rfl

/-- A year reads back with its sign, or as four digits. -/
theorem readYear_yearChars {y : Int} (hlow : -2147483648 ≤ y) (hhigh : y ≤ 2147483647) (rest : List Char) :
    readYear (yearChars y ++ '-' :: rest) = .ok (y, '-' :: rest) := by
  have hword : y.natAbs < pow2 63 := Nat.lt_of_le_of_lt (m := 2147483648) (by omega) (by decide)
  obtain ⟨width, hwidth, hfits, hpadded⟩ := padded_four_eq_decimals y.natAbs
  have hnumber := readNumber_decimals_cons hwidth hfits hword (fun _ (hw : _ ∈ none) => by cases hw)
    (by decide : isDigit '-' = false) rest
  rw [yearChars]
  split
  next hfour =>
    have hyear : y.toNat < 10 ^ 4 := by omega
    obtain ⟨d, ds, hds, hd⟩ := decimals_eq_cons (by decide : 0 < 4) y.toNat
    have hminus : d ≠ '-' := fun heq => by rw [heq] at hd; cases hd
    have hplus : d ≠ '+' := fun heq => by rw [heq] at hd; cases hd
    have hread := readNumber_decimals (by decide) hyear (Nat.lt_trans hyear (by decide)) ('-' :: rest)
    have hback : ((y.toNat : Nat) : Int) = y := Int.toNat_of_nonneg hfour.1
    rw [readYear, padded_eq_decimals (by decide) hyear, trimStart_decimals (by decide)]
    rw [hds, List.cons_append] at hread ⊢
    split
    next heq => exact absurd (List.cons.inj heq).1 hminus
    next heq => exact absurd (List.cons.inj heq).1 hplus
    next => simp only [hread, bind, Except.bind, pure, Except.pure, hback, if_pos (And.intro hlow hhigh)]
  next hsigned =>
    rw [hpadded]
    split
    next hneg =>
      have hback : -((y.natAbs : Nat) : Int) = y := by omega
      rw [readYear, List.cons_append, Text.trimStart, List.dropWhile_cons_of_neg (by decide)]
      simp only [hnumber, bind, Except.bind, pure, Except.pure, hback, if_pos (And.intro hlow hhigh)]
    next hpos =>
      have hback : ((y.natAbs : Nat) : Int) = y := by omega
      rw [readYear, List.cons_append, Text.trimStart, List.dropWhile_cons_of_neg (by decide)]
      simp only [hnumber, bind, Except.bind, pure, Except.pure, hback, if_pos (And.intro hlow hhigh)]

/-- A fraction of `width` digits counts units of `10 ^ (9 - width)` nanoseconds. -/
theorem readFraction_decimals {width n : Nat} (hwidth : 0 < width) (hle : width ≤ 9) (hfits : n < 10 ^ width) :
    readFraction ('.' :: decimals width n ++ ['Z']) = .ok (n * pow10 (9 - width), ['Z']) := by
  have hword : n < pow2 63 :=
    Nat.lt_of_lt_of_le hfits (Nat.le_trans (Nat.pow_le_pow_right (by decide) hle) (by decide))
  have hread : readNumber (some 9) (decimals width n ++ ['Z']) = .ok (n, ['Z']) := by
    rcases Nat.lt_or_eq_of_le hle with hlt | rfl
    · exact readNumber_decimals_cons hwidth hfits hword (fun w hw => Option.some.inj hw ▸ hlt) (by decide) []
    · exact readNumber_decimals hwidth hfits hword ['Z']
  have hlength : (decimals width n ++ ['Z']).length - ['Z'].length = width := by simp
  simp only [readFraction, List.cons_append, hread, bind, Except.bind, hlength]
  rfl

/-! ## How many digits -/

def fractionWidths : List Nat := [0, 3, 6, 9]

/-- The least of the widths by which a count of nanoseconds loses nothing. -/
structure Shortest (nanos width : Nat) : Prop where
  among : width ∈ fractionWidths
  whole : 10 ^ (9 - width) ∣ nanos
  fits : nanos / 10 ^ (9 - width) < 10 ^ width
  fewest : ∀ w ∈ fractionWidths, w < width → ¬ 10 ^ (9 - w) ∣ nanos

/-- Digits that tell a count of nanoseconds: as many as one of the widths, the least that loses nothing. -/
structure Tell (nanos : Nat) (ds : List Char) : Prop where
  width : ds.length ∈ fractionWidths
  digits : ds.all isDigit = true
  value : digitsNat ds * 10 ^ (9 - ds.length) = nanos
  fewest : ∀ width ∈ fractionWidths, width < ds.length → ¬ 10 ^ (9 - width) ∣ nanos

variable {nanos : Nat}

theorem exists_shortest (h : nanos < 1000000000) : ∃ width, Shortest nanos width ∧
    fractionChars nanos = if width = 0 then [] else '.' :: decimals width (nanos / 10 ^ (9 - width)) := by
  have hpoint {width unit : Nat} (hpos : 0 < width) (hunit : unit = 10 ^ (9 - width)) (hs : Shortest nanos width) :
      '.' :: padded width (nanos / unit) =
        if width = 0 then [] else '.' :: decimals width (nanos / 10 ^ (9 - width)) := by
    rw [hunit, padded_eq_decimals hpos hs.fits, if_neg (Nat.pos_iff_ne_zero.mp hpos)]
  rw [fractionChars]
  split
  next hzero =>
    subst hzero
    exact ⟨0, ⟨by decide, by decide, by decide, by decide⟩, rfl⟩
  split
  next hmilli =>
    have hs : Shortest nanos 3 := ⟨by decide, by omega, by omega, by simp [fractionWidths]; omega⟩
    exact ⟨3, hs, hpoint (by decide) (by decide) hs⟩
  split
  next hmicro =>
    have hs : Shortest nanos 6 := ⟨by decide, by omega, by omega, by simp [fractionWidths]; omega⟩
    exact ⟨6, hs, hpoint (by decide) (by decide) hs⟩
  next hnano =>
    have hs : Shortest nanos 9 := ⟨by decide, by omega, by omega, by simp [fractionWidths]; omega⟩
    have hone := hpoint (by decide) (by decide : 1 = _) hs
    rw [Nat.div_one] at hone
    exact ⟨9, hs, hone⟩

/-- Digits that are left out are zeros. -/
theorem readFraction_fractionChars (h : nanos < 1000000000) :
    readFraction (fractionChars nanos ++ ['Z']) = .ok (nanos, ['Z']) := by
  have hwidths : ∀ w ∈ fractionWidths, w ≤ 9 ∧ pow10 (9 - w) = 10 ^ (9 - w) := by decide
  obtain ⟨width, hs, hchars⟩ := exists_shortest h
  obtain ⟨hle, hunit⟩ := hwidths width hs.among
  rw [hchars]
  split
  next hzero =>
    subst hzero
    rw [Nat.eq_zero_of_dvd_of_lt hs.whole h]
    rfl
  next hpos =>
    rw [readFraction_decimals (Nat.pos_of_ne_zero hpos) hle hs.fits, hunit, Nat.div_mul_cancel hs.whole]

/-- After the second stands nothing, or a point and the digits. -/
theorem exists_tell (h : nanos < 1000000000) :
    ∃ ds, Tell nanos ds ∧ fractionChars nanos = if ds.isEmpty then [] else '.' :: ds := by
  obtain ⟨width, hs, hchars⟩ := exists_shortest h
  refine ⟨decimals width (nanos / 10 ^ (9 - width)), ?_, ?_⟩
  · exact
      { width := by rw [length_decimals]; exact hs.among
        digits := all_isDigit_decimals _ _
        value := by rw [length_decimals, digitsNat_decimals hs.fits, Nat.div_mul_cancel hs.whole]
        fewest := by rw [length_decimals]; exact hs.fewest }
  · rw [hchars]
    exact if_congr (by rw [← List.length_eq_zero_iff.trans List.isEmpty_iff.symm, length_decimals]) rfl rfl

/-! ## The whole -/

/-- Which years can be told. -/
theorem inRange_iff_year {a : Instant} : a.inRange = true ↔ -262143 ≤ a.date.year ∧ a.date.year ≤ 262142 := by
  have hfirst : CivilDate.ofDays firstDay = ⟨-262143, 1, 1⟩ := by decide
  have hlast : CivilDate.ofDays lastDay = ⟨262142, 12, 31⟩ := by decide
  have hvalid := a.valid_date
  simp only [CivilDate.isValid, Bool.and_eq_true, decide_eq_true_eq] at hvalid
  have hdate := a.date_bounds
  have hlow : firstDay ≤ Int.fdiv a.seconds 86400 ↔ ¬ a.date.Before ⟨-262143, 1, 1⟩ := by
    rw [← hfirst, date, CivilDate.ofDays_before_iff, Int.not_lt]
  have hhigh : Int.fdiv a.seconds 86400 ≤ lastDay ↔ ¬ CivilDate.Before ⟨262142, 12, 31⟩ a.date := by
    rw [← hlast, date, CivilDate.ofDays_before_iff, Int.not_lt]
  rw [inRange, Bool.and_eq_true, decide_eq_true_eq, decide_eq_true_eq, hlow, hhigh, CivilDate.Before, CivilDate.Before]
  simp only
  omega

/-- The years 0 to 9999 are among them. -/
theorem inRange_of_inColumn {a : Instant} (h : a.InColumn) : a.inRange = true :=
  inRange_iff_year.mpr ⟨Int.le_trans (by decide) h.1, Int.le_trans h.2 (by decide)⟩

/-- Every instant of the years that can be told reads back from its text. -/
theorem parse_text {a : Instant} (h : a.inRange = true) : parse a.text = .ok a := by
  have hdate := a.date_bounds
  have hvalid := a.valid_date
  simp only [CivilDate.isValid, Bool.and_eq_true, decide_eq_true_eq] at hvalid
  have hday := a.secondOfDay_lt
  have hyear := inRange_iff_year.mp h
  have hsecond : a.shownSecond ≤ 60 := by
    unfold shownSecond
    split <;> omega
  have hhour : a.secondOfDay / 3600 ≤ 23 := by omega
  have hminute : a.secondOfDay / 60 % 60 ≤ 59 := by omega
  have hfraction : a.fraction < 1000000000 := Nat.mod_lt _ (by decide)
  have hshift : a.shift? 0 = some a := by
    rw [shift?, dif_pos (by rw [Int.sub_zero]; exact a.leap)]
    exact congrArg some (eq_of_parts (Int.sub_zero _) rfl)
  have hoffset : readOffset (Text.trimStart ['Z']) = .ok (0, []) := by decide
  have hchars : a.text = String.ofList (yearChars a.date.year ++ '-' :: (decimals 2 a.date.month ++ '-' ::
      (decimals 2 a.date.day ++ 'T' :: (decimals 2 (a.secondOfDay / 3600) ++ ':' ::
        (decimals 2 (a.secondOfDay / 60 % 60) ++ ':' :: (decimals 2 a.shownSecond ++
          (fractionChars a.fraction ++ ['Z']))))))) := by
    rw [← padded_eq_decimals (n := a.date.month) (by decide) (by omega),
      ← padded_eq_decimals (n := a.date.day) (by decide) (by omega),
      ← padded_eq_decimals (n := a.secondOfDay / 3600) (by decide) (by omega),
      ← padded_eq_decimals (n := a.secondOfDay / 60 % 60) (by decide) (by omega),
      ← padded_eq_decimals (n := a.shownSecond) (by decide) (by omega)]
    simp only [text, dateTimeChars, List.append_assoc, List.cons_append]
    rfl
  rw [parse, hchars, String.toList_ofList]
  simp only [bind, Except.bind, readYear_yearChars (y := a.date.year) (by omega) (by omega), readMark_cons (by decide : Text.isSpace '-' = false),
    readMark_cons (by decide : Text.isSpace ':' = false), readField_decimals hvalid.1.1.1 hdate.1 (by omega),
    readField_decimals hvalid.1.2 hdate.2 (by omega), readField_decimals (Nat.zero_le _) hhour (by omega),
    readField_decimals (Nat.zero_le _) hminute (by omega), readField_decimals (Nat.zero_le _) hsecond (by omega),
    readFraction_fractionChars hfraction, true_or, if_true, pure, Except.pure, hoffset]
  rw [if_neg (by decide), dif_pos hfraction, a.ofCivil?_shown hfraction]
  simp only [h, hshift, Bool.not_true, Bool.false_or]
  rfl

/-- What is read lies in the years that can be told. -/
theorem inRange_of_parse {s : String} {a : Instant} (h : parse s = .ok a) : a.inRange = true := by
  obtain ⟨⟨year, cs⟩, -, h⟩ := exists_of_bind_eq_ok h
  obtain ⟨cs, -, h⟩ := exists_of_bind_eq_ok h
  obtain ⟨⟨month, cs⟩, -, h⟩ := exists_of_bind_eq_ok h
  obtain ⟨cs, -, h⟩ := exists_of_bind_eq_ok h
  obtain ⟨⟨day, cs⟩, -, h⟩ := exists_of_bind_eq_ok h
  dsimp only at h
  cases cs with
  | nil => cases h
  | cons c rest =>
    dsimp only at h
    split at h
    case isFalse => cases h
    obtain ⟨cs, -, h⟩ := exists_of_bind_eq_ok h
    obtain ⟨⟨hour, cs⟩, -, h⟩ := exists_of_bind_eq_ok h
    obtain ⟨cs, -, h⟩ := exists_of_bind_eq_ok h
    obtain ⟨⟨minute, cs⟩, -, h⟩ := exists_of_bind_eq_ok h
    obtain ⟨cs, -, h⟩ := exists_of_bind_eq_ok h
    obtain ⟨⟨second, cs⟩, -, h⟩ := exists_of_bind_eq_ok h
    obtain ⟨⟨nanos, cs⟩, -, h⟩ := exists_of_bind_eq_ok h
    obtain ⟨⟨offset, cs⟩, -, h⟩ := exists_of_bind_eq_ok h
    dsimp only at h
    split at h
    case isTrue => cases h
    split at h
    case isFalse => cases h
    split at h
    case h_1 => cases h
    split at h
    case isTrue => cases h
    split at h
    case h_1 => cases h
    case h_2 utc hshift =>
      split at h
      case isFalse => cases h
      case isTrue hrange => exact Except.ok.inj h ▸ hrange

end Instant
end Workflows
