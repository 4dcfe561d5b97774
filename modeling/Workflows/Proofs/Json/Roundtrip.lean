/-
  Workflows.Proofs.Json.Roundtrip — a value read back from its text, as far as there is room.

  A value of integers, strings and the like is read back from its compact text wherever that
  stands, if it nests no deeper than there is room; if it does, the reader stops at the first
  bracket too many (`readValue_writeChars`, by induction on the value together with what
  follows the first item of a list or object). A document has room for 127 levels, so the text
  of such a value reads back as that value, or else counts as `null` (`valueOfText_compact`).
-/

import Workflows.Proofs.Json.Quote
import Workflows.Proofs.Keyed

namespace Workflows
namespace Json

/-! ## Values without fractions -/

mutual
/-- All numbers are integers of 64 bits, and objects are in the order of their keys. -/
def Whole : Json → Prop
  | .null => True
  | .bool _ => True
  | .integer n => -(pow2 63 : Int) ≤ n ∧ n < pow2 64
  | .double _ => False
  | .string _ => True
  | .array items => WholeItems items
  | .object members => Keyed.Sorted members ∧ WholeMembers members

def WholeItems : List Json → Prop
  | [] => True
  | x :: xs => x.Whole ∧ WholeItems xs

def WholeMembers : List (String × Json) → Prop
  | [] => True
  | (_, x) :: ms => x.Whole ∧ WholeMembers ms
end

/-! ## Integers -/

theorem isDigit_digitChar : ∀ d < 10, isDigit (Nat.digitChar d) = true := by decide

theorem digitValue_digitChar : ∀ d < 10, digitValue (Nat.digitChar d) = d := by decide

theorem digitChar_eq_zero : ∀ d < 10, Nat.digitChar d = '0' → d = 0 := by decide

theorem digitChar_marks : ∀ d < 10, isBlank (Nat.digitChar d) = false ∧ Nat.digitChar d ≠ ']' ∧ Nat.digitChar d ≠ '[' ∧
    Nat.digitChar d ≠ '{' ∧ Nat.digitChar d ≠ '"' ∧ Nat.digitChar d ≠ 'n' ∧ Nat.digitChar d ≠ 't' ∧
    Nat.digitChar d ≠ 'f' ∧ Nat.digitChar d ≠ '-' := by
  decide

theorem all_isDigit_toDigits (n : Nat) : ∀ c ∈ Nat.toDigits 10 n, isDigit c = true := by
  induction n using Nat.strongRecOn with
  | ind n ih =>
    intro c hc
    rw [Nat.toDigits_eq_if (by decide)] at hc
    split at hc
    next hsmall =>
      rw [List.mem_singleton.mp hc]
      exact isDigit_digitChar n hsmall
    next hlarge =>
      rcases List.mem_append.mp hc with hc | hc
      · exact ih (n / 10) (by omega) c hc
      · rw [List.mem_singleton.mp hc]
        exact isDigit_digitChar (n % 10) (Nat.mod_lt _ (by decide))

/-- The digits of a number begin with a zero only if it is zero. -/
theorem toDigits_eq_cons (n : Nat) :
    ∃ d ds, d < 10 ∧ Nat.toDigits 10 n = Nat.digitChar d :: ds ∧ (d = 0 → n = 0) := by
  induction n using Nat.strongRecOn with
  | ind n ih =>
    rw [Nat.toDigits_eq_if (by decide)]
    split
    next hsmall => exact ⟨n, [], hsmall, rfl, id⟩
    next hlarge =>
      obtain ⟨d, ds, hd, hdigits, hzero⟩ := ih (n / 10) (by omega)
      exact ⟨d, ds ++ _, hd, by rw [hdigits]; rfl, fun h => by have := hzero h; omega⟩

theorem keepDigits_append {s s' : Nat} {xs : List Char} (h : keepDigits s xs = (s', 0)) (ys : List Char) :
    keepDigits s (xs ++ ys) = keepDigits s' ys := by
  induction xs generalizing s with
  | nil => cases h; rfl
  | cons x xs ih =>
    rw [keepDigits] at h
    rw [List.cons_append, keepDigits]
    split at h
    · cases h
    next hfits =>
      rw [if_neg hfits]
      exact ih h

/-- All digits of a number of 64 bits are kept. -/
theorem keepDigits_toDigits {n : Nat} (h : n ≤ maxWord) : keepDigits 0 (Nat.toDigits 10 n) = (n, 0) := by
  induction n using Nat.strongRecOn with
  | ind n ih =>
    rw [Nat.toDigits_eq_if (by decide)]
    split
    next hsmall =>
      simp only [keepDigits, digitValue_digitChar n hsmall]
      rw [if_neg (by omega), Nat.zero_mul, Nat.zero_add]
    next hlarge =>
      have hlast := digitValue_digitChar (n % 10) (Nat.mod_lt _ (by decide))
      have hvalue : n / 10 * 10 + n % 10 = n := by omega
      rw [keepDigits_append (ih (n / 10) (by omega) (by omega))]
      simp only [keepDigits, hlast, hvalue]
      rw [if_neg (by omega)]

/-- What may follow a value in a text. -/
def Ends (rest : List Char) : Prop := ∀ c cs, rest = c :: cs → c = ',' ∨ c = ']' ∨ c = '}'

theorem Ends.isDigit {rest cs : List Char} {c : Char} (h : Ends rest) (heq : rest = c :: cs) :
    Json.isDigit c = false := by
  rcases h c cs heq with rfl | rfl | rfl <;> decide

variable {rest : List Char}

theorem takeWhile_isDigit (hrest : Ends rest) (n : Nat) :
    (Nat.toDigits 10 n ++ rest).takeWhile isDigit = Nat.toDigits 10 n := by
  rw [List.takeWhile_append_of_pos (all_isDigit_toDigits n)]
  cases rest with
  | nil => exact List.append_nil _
  | cons c cs => rw [List.takeWhile_cons, hrest.isDigit rfl]; exact List.append_nil _

theorem dropWhile_isDigit (hrest : Ends rest) (n : Nat) :
    (Nat.toDigits 10 n ++ rest).dropWhile isDigit = rest := by
  rw [List.dropWhile_append_of_pos (all_isDigit_toDigits n)]
  cases rest with
  | nil => rfl
  | cons c cs => rw [List.dropWhile_cons, hrest.isDigit rfl]; rfl

theorem readNumber_toDigits {n : Nat} (negative : Bool) (h : n ≤ maxWord) (hrest : Ends rest) :
    readNumber negative (Nat.toDigits 10 n ++ rest) = .ok (integral negative n, rest) := by
  obtain ⟨d, ds, hd, hdigits, hzero⟩ := toDigits_eq_cons n
  simp only [readNumber, takeWhile_isDigit hrest, dropWhile_isDigit hrest]
  split
  next hnil => rw [hdigits] at hnil; cases hnil
  next x xs hlead =>
    -- no number of two digits begins with a zero
    rw [hdigits, List.cons.injEq] at hlead
    have hzero' : n = 0 := hzero (digitChar_eq_zero d hd hlead.1)
    subst hzero'
    cases hlead.2.symm.trans (List.cons.inj (hdigits.symm.trans rfl)).2
  next =>
    rw [keepDigits_toDigits h]
    split
    next => exact absurd (hrest _ _ rfl) (by decide)
    next => exact absurd (hrest _ _ rfl) (by decide)
    next => exact absurd (hrest _ _ rfl) (by decide)
    next => rfl

/-! ## Heads -/

/-- The text of a value begins with no blank and no mark that ends a list. -/
theorem writeChars_eq_cons {j : Json} (h : j.Whole) (rest : List Char) :
    ∃ c cs, writeChars j rest = c :: cs ∧ isBlank c = false ∧ c ≠ ']' := by
  cases j with
  | null => exact ⟨_, _, rfl, by decide, by decide⟩
  | bool b => cases b <;> exact ⟨_, _, rfl, by decide, by decide⟩
  | integer n =>
    rw [writeChars, integerChars]
    split
    · exact ⟨_, _, rfl, by decide, by decide⟩
    · obtain ⟨d, ds, hd, hdigits, -⟩ := toDigits_eq_cons n.natAbs
      obtain ⟨hblank, hmark⟩ := digitChar_marks d hd
      rw [hdigits]
      exact ⟨_, _, rfl, hblank, hmark.1⟩
  | double x => exact h.elim
  | string s => exact ⟨_, _, rfl, by decide, by decide⟩
  | array items => cases items <;> exact ⟨_, _, rfl, by decide, by decide⟩
  | object members => cases members <;> exact ⟨_, _, rfl, by decide, by decide⟩

theorem readHead_integer {n : Int} (h : (integer n).Whole) (hrest : Ends rest) :
    readHead (integerChars n ++ rest) = .ok (.scalar (.integer n), rest) := by
  have hword : pow2 64 = 18446744073709551616 := by decide
  have hmax : maxWord = 18446744073709551615 := by decide
  have hhalf : pow2 63 = 9223372036854775808 := by decide
  have hbounds : -(pow2 63 : Int) ≤ n ∧ n < pow2 64 := h
  have hfits : n.natAbs ≤ maxWord := by omega
  rw [integerChars]
  split
  next hneg =>
    rw [List.cons_append, readHead, skipBlank_cons (by decide)]
    have hsigned : integral true n.natAbs = .integer n := by
      rw [integral, if_pos rfl, if_neg (by omega)]
      exact congrArg integer (by omega)
    simp [readNumber_toDigits true hfits hrest, hsigned, bind, Except.bind, pure, Except.pure]
  next hpos =>
    obtain ⟨d, ds, hd, hdigits, -⟩ := toDigits_eq_cons n.natAbs
    obtain ⟨hblank, -, hlist, hobject, hquote, hn, ht, hf, hminus⟩ := digitChar_marks d hd
    have hread := readNumber_toDigits false hfits hrest
    have hsigned : integral false n.natAbs = .integer n := by
      rw [integral, if_neg (by decide)]
      exact congrArg integer (by omega)
    rw [hdigits, List.cons_append] at hread ⊢
    rw [readHead, skipBlank_cons hblank]
    simp [hlist, hobject, hquote, hn, ht, hf, hminus, isDigit_digitChar d hd, hread, hsigned, bind, Except.bind, pure,
      Except.pure]

theorem readHead_string (s : String) (rest : List Char) :
    readHead (quote s ++ rest) = .ok (.scalar (.string s), rest) := by
  rw [quote_append, readHead, skipBlank_cons (by decide)]
  simp [readString_quote, bind, Except.bind, pure, Except.pure]

/-! ## Steps -/

variable {fuel room : Nat} {cs cs' : List Char}

theorem readValue_of_scalar {j : Json} (h : readHead cs = .ok (.scalar j, rest)) :
    readValue (fuel + 1) room cs = .ok (j, rest) := by
  rw [readValue, h]
  rfl

theorem readValue_of_list (h : readHead cs = .ok (.list, rest)) :
    readValue (fuel + 1) room cs =
      if room = 0 then .error .tooDeep
      else (readItems fuel (room - 1) true rest).map fun (items, rest) => (.array items, rest) := by
  rw [readValue, h]
  simp only [bind, Except.bind]
  split
  · rfl
  · cases readItems fuel (room - 1) true rest <;> rfl

theorem readValue_of_object (h : readHead cs = .ok (.object, rest)) :
    readValue (fuel + 1) room cs =
      if room = 0 then .error .tooDeep
      else (readMembers fuel (room - 1) true [] rest).map fun (members, rest) => (.object members, rest) := by
  rw [readValue, h]
  simp only [bind, Except.bind]
  split
  · rfl
  · cases readMembers fuel (room - 1) true [] rest <;> rfl

theorem readHead_list (rest : List Char) : readHead ('[' :: rest) = .ok (.list, rest) := by
  rw [readHead, skipBlank_cons (by decide)]
  rfl

theorem readHead_object (rest : List Char) : readHead ('\x7b' :: rest) = .ok (.object, rest) := by
  rw [readHead, skipBlank_cons (by decide)]
  rfl

theorem readItems_end (first : Bool) (rest : List Char) : readItems (fuel + 1) room first (']' :: rest) = .ok ([], rest) := by
  rw [readItems, nextItem, skipBlank_cons (by decide)]
  rfl

theorem readMembers_end (first : Bool) (before : Keyed Json) (rest : List Char) :
    readMembers (fuel + 1) room first before ('\x7d' :: rest) = .ok (before, rest) := by
  rw [readMembers, nextKey, skipBlank_cons (by decide)]
  rfl

theorem nextItem_value {j : Json} (h : j.Whole) (rest : List Char) :
    nextItem true (writeChars j rest) = .ok (true, writeChars j rest) := by
  obtain ⟨c, cs, hchars, hblank, hmark⟩ := writeChars_eq_cons h rest
  rw [hchars, nextItem, skipBlank_cons hblank]
  split
  next heq => cases heq
  next heq => exact absurd (List.cons.inj heq).1 hmark
  next heq => rw [if_pos rfl, heq]
  next => rfl

theorem nextItem_comma {j : Json} (h : j.Whole) (rest : List Char) :
    nextItem false (',' :: writeChars j rest) = .ok (true, writeChars j rest) := by
  obtain ⟨c, cs, hchars, hblank, hmark⟩ := writeChars_eq_cons h rest
  rw [hchars, nextItem, skipBlank_cons (by decide)]
  simp only [Bool.false_eq_true, if_false]
  rw [skipBlank_cons hblank]
  split
  next heq => cases heq
  next heq => exact absurd (List.cons.inj heq).1 hmark
  next => rfl

/-! ## Values -/

mutual
/-- How many steps it takes to read the text of a value. -/
def steps : Json → Nat
  | .array items => stepsItems items + 1
  | .object members => stepsMembers members + 1
  | _ => 1

def stepsItems : List Json → Nat
  | [] => 1
  | x :: xs => max x.steps (stepsItems xs) + 1

def stepsMembers : List (String × Json) → Nat
  | [] => 1
  | (_, x) :: ms => max x.steps (stepsMembers ms) + 1
end

theorem steps_pos (j : Json) : 0 < j.steps := by
  cases j <;> simp [steps]

theorem stepsItems_pos (xs : List Json) : 0 < stepsItems xs := by
  cases xs <;> simp [stepsItems]

theorem stepsMembers_pos (ms : List (String × Json)) : 0 < stepsMembers ms := by
  rcases ms with _ | ⟨⟨k, x⟩, ms⟩ <;> simp [stepsMembers]

/-- What the reader comes to on a text that nests so deeply. -/
def within {α : Type} (room depth : Nat) (x : α) : Except SyntaxError α :=
  if depth ≤ room then .ok x else .error .tooDeep

theorem readItems_cons {first : Bool} {x : Json} {xs : List Json} {rest' : List Char}
    (hnext : nextItem first cs = .ok (true, cs')) (hx : readValue fuel room cs' = within room x.depth (x, rest'))
    (hxs : readItems fuel room false rest' = within room (depthItems xs) (xs, rest)) :
    readItems (fuel + 1) room first cs = within room (depthItems (x :: xs)) (x :: xs, rest) := by
  rw [readItems, hnext, depthItems]
  simp only [bind, Except.bind, hx, within, Nat.max_le]
  by_cases hfits : x.depth ≤ room
  · by_cases hothers : depthItems xs ≤ room
    · simp [hxs, within, hfits, hothers, pure, Except.pure]
    · simp [hxs, within, hfits, hothers]
  · simp [hfits]

theorem readMembers_cons {first : Bool} {before : Keyed Json} {k : String} {x : Json} {ms : List (String × Json)}
    {rest' : List Char} (hnext : nextKey first cs = .ok (true, k.toList.flatMap escapeChar ++ '"' :: ':' :: cs'))
    (hx : readValue fuel room cs' = within room x.depth (x, rest'))
    (hms : readMembers fuel room false (Keyed.insert before k x) rest' =
      within room (depthMembers ms) (Keyed.insertAll (Keyed.insert before k x) ms, rest)) :
    readMembers (fuel + 1) room first before cs =
      within room (depthMembers ((k, x) :: ms)) (Keyed.insertAll before ((k, x) :: ms), rest) := by
  rw [readMembers, hnext, depthMembers]
  simp only [bind, Except.bind, readString_quote, readColon_cons, hx, within, Nat.max_le]
  by_cases hfits : x.depth ≤ room
  · by_cases hothers : depthMembers ms ≤ room
    · simp [hms, within, hfits, hothers, Keyed.insertAll]
    · simp [hms, within, hfits, hothers]
  · simp [hfits]

theorem ends_writeItems (xs : List Json) (rest : List Char) : Ends (writeItems xs rest) := by
  rintro c cs h
  cases xs <;> cases (List.cons.inj h).1 <;> decide

theorem ends_writeMembers (ms : List (String × Json)) (rest : List Char) : Ends (writeMembers ms rest) := by
  rintro c cs h
  rcases ms with _ | ⟨⟨k, x⟩, ms⟩ <;> cases (List.cons.inj h).1 <;> decide

theorem map_within {α β : Type} (f : α → β) (room depth : Nat) (x : α) :
    (if room = 0 then .error .tooDeep else (within (room - 1) depth x).map f) = within room (depth + 1) (f x) := by
  unfold within
  cases room with
  | zero => rfl
  | succ room =>
    rw [if_neg (Nat.succ_ne_zero room), Nat.add_sub_cancel]
    by_cases h : depth ≤ room
    · rw [if_pos h, if_pos (Nat.succ_le_succ h)]; rfl
    · rw [if_neg h, if_neg fun hle => h (Nat.le_of_succ_le_succ hle)]; rfl

theorem exists_eq_succ {m n : Nat} (hpos : 0 < m) (h : m ≤ n) : ∃ k, n = k + 1 :=
  Nat.exists_eq_succ_of_ne_zero (Nat.ne_of_gt (Nat.lt_of_lt_of_le hpos h))

mutual
theorem readValue_writeChars (j : Json) (hj : j.Whole) {fuel : Nat} (hfuel : j.steps ≤ fuel) (room : Nat)
    {rest : List Char} (hrest : Ends rest) : readValue fuel room (writeChars j rest) = within room j.depth (j, rest) := by
  obtain ⟨fuel, rfl⟩ := exists_eq_succ j.steps_pos hfuel
  cases j with
  | null => exact readValue_of_scalar rfl
  | bool b => cases b <;> exact readValue_of_scalar rfl
  | integer n => exact readValue_of_scalar (readHead_integer hj hrest)
  | double x => exact hj.elim
  | string s => exact readValue_of_scalar (readHead_string s rest)
  | array items =>
    rw [steps, Nat.add_le_add_iff_right] at hfuel
    rw [depth]
    cases items with
    | nil =>
      obtain ⟨fuel, rfl⟩ := exists_eq_succ (stepsItems_pos _) hfuel
      rw [writeChars, readValue_of_list (readHead_list _), readItems_end]
      exact map_within _ room 0 ([], rest)
    | cons x xs =>
      obtain ⟨fuel, rfl⟩ := exists_eq_succ (stepsItems_pos _) hfuel
      rw [stepsItems] at hfuel
      have hx := readValue_writeChars x hj.1 (show x.steps ≤ fuel by omega) (room - 1) (ends_writeItems xs rest)
      have hxs := readItems_writeItems xs hj.2 (show stepsItems xs ≤ fuel by omega) (room - 1) rest
      rw [writeChars, readValue_of_list (readHead_list _), readItems_cons (nextItem_value hj.1 _) hx hxs]
      exact map_within _ _ _ (x :: xs, rest)
  | object members =>
    rw [steps, Nat.add_le_add_iff_right] at hfuel
    rw [depth]
    cases members with
    | nil =>
      obtain ⟨fuel, rfl⟩ := exists_eq_succ (stepsMembers_pos _) hfuel
      rw [writeChars, readValue_of_object (readHead_object _), readMembers_end]
      exact map_within _ room 0 ([], rest)
    | cons m ms =>
      obtain ⟨k, x⟩ := m
      obtain ⟨fuel, rfl⟩ := exists_eq_succ (stepsMembers_pos _) hfuel
      rw [stepsMembers] at hfuel
      have hx := readValue_writeChars x hj.2.1 (show x.steps ≤ fuel by omega) (room - 1) (ends_writeMembers ms rest)
      have hms := readMembers_writeMembers ms hj.2.2 (show stepsMembers ms ≤ fuel by omega) (room - 1) (Keyed.insert [] k x) rest
      have hsame : Keyed.insertAll [] ((k, x) :: ms) = (k, x) :: ms := Keyed.ofList_of_sorted hj.1
      rw [writeChars, readValue_of_object (readHead_object _), readMembers_cons (nextKey_quote k _) hx hms, hsame]
      exact map_within _ _ _ ((k, x) :: ms, rest)

theorem readItems_writeItems (xs : List Json) (hxs : WholeItems xs) {fuel : Nat} (hfuel : stepsItems xs ≤ fuel)
    (room : Nat) (rest : List Char) :
    readItems fuel room false (writeItems xs rest) = within room (depthItems xs) (xs, rest) := by
  obtain ⟨fuel, rfl⟩ := exists_eq_succ (stepsItems_pos xs) hfuel
  cases xs with
  | nil => exact readItems_end _ _
  | cons x xs =>
    rw [stepsItems] at hfuel
    have hx := readValue_writeChars x hxs.1 (show x.steps ≤ fuel by omega) room (ends_writeItems xs rest)
    have hothers := readItems_writeItems xs hxs.2 (show stepsItems xs ≤ fuel by omega) room rest
    exact readItems_cons (nextItem_comma hxs.1 _) hx hothers

theorem readMembers_writeMembers (ms : List (String × Json)) (hms : WholeMembers ms) {fuel : Nat}
    (hfuel : stepsMembers ms ≤ fuel) (room : Nat) (before : Keyed Json) (rest : List Char) :
    readMembers fuel room false before (writeMembers ms rest) =
      within room (depthMembers ms) (Keyed.insertAll before ms, rest) := by
  obtain ⟨fuel, rfl⟩ := exists_eq_succ (stepsMembers_pos ms) hfuel
  cases ms with
  | nil => exact readMembers_end _ _ _
  | cons m ms =>
    obtain ⟨k, x⟩ := m
    rw [stepsMembers] at hfuel
    have hx := readValue_writeChars x hms.1 (show x.steps ≤ fuel by omega) room (ends_writeMembers ms rest)
    have hothers := readMembers_writeMembers ms hms.2 (show stepsMembers ms ≤ fuel by omega) room (Keyed.insert before k x) rest
    exact readMembers_cons (nextKey_comma_quote k _) hx hothers
end

/-! ## Documents -/

theorem length_integerChars_pos (n : Int) : 0 < (integerChars n).length := by
  rw [integerChars]
  split
  · exact Nat.succ_pos _
  · obtain ⟨d, ds, -, hdigits, -⟩ := toDigits_eq_cons n.natAbs
    rw [hdigits]
    exact Nat.succ_pos _

mutual
/-- Reading takes no more steps than the text has characters. -/
theorem steps_add_length_le (j : Json) (hj : j.Whole) (rest : List Char) :
    j.steps + rest.length ≤ (writeChars j rest).length := by
  cases j with
  | null => simp only [steps, writeChars, List.length_cons]; omega
  | bool b => cases b <;> simp only [steps, writeChars, List.length_cons] <;> omega
  | integer n =>
    have hpos := length_integerChars_pos n
    simp only [steps, writeChars, List.length_append]
    omega
  | double x => exact hj.elim
  | string s =>
    simp only [steps, writeChars, quote, List.length_append, List.length_cons]
    omega
  | array items =>
    cases items with
    | nil => simp only [steps, stepsItems, writeChars, List.length_cons]; omega
    | cons x xs =>
      have hx := steps_add_length_le x hj.1 (writeItems xs rest)
      have hxs := stepsItems_add_length_le xs hj.2 rest
      have hpos := x.steps_pos
      have hpos' := stepsItems_pos xs
      simp only [steps, stepsItems, writeChars, List.length_cons]
      omega
  | object members =>
    cases members with
    | nil => simp only [steps, stepsMembers, writeChars, List.length_cons]; omega
    | cons m ms =>
      obtain ⟨k, x⟩ := m
      have hx := steps_add_length_le x hj.2.1 (writeMembers ms rest)
      have hms := stepsMembers_add_length_le ms hj.2.2 rest
      have hpos := x.steps_pos
      simp only [steps, stepsMembers, writeChars, List.length_cons, List.length_append]
      omega

theorem stepsItems_add_length_le (xs : List Json) (hxs : WholeItems xs) (rest : List Char) :
    stepsItems xs + rest.length ≤ (writeItems xs rest).length := by
  cases xs with
  | nil => simp only [stepsItems, writeItems, List.length_cons]; omega
  | cons x xs =>
    have hx := steps_add_length_le x hxs.1 (writeItems xs rest)
    have hothers := stepsItems_add_length_le xs hxs.2 rest
    have hpos := x.steps_pos
    simp only [stepsItems, writeItems, List.length_cons]
    omega

theorem stepsMembers_add_length_le (ms : List (String × Json)) (hms : WholeMembers ms) (rest : List Char) :
    stepsMembers ms + rest.length ≤ (writeMembers ms rest).length := by
  cases ms with
  | nil => simp only [stepsMembers, writeMembers, List.length_cons]; omega
  | cons m ms =>
    obtain ⟨k, x⟩ := m
    have hx := steps_add_length_le x hms.1 (writeMembers ms rest)
    have hothers := stepsMembers_add_length_le ms hms.2 rest
    have hpos := x.steps_pos
    simp only [stepsMembers, writeMembers, List.length_cons, List.length_append]
    omega
end

/-- A document reads back if it nests no deeper than there is room. -/
theorem parseWithin_compact {j : Json} (hj : j.Whole) (room : Nat) :
    parseWithin room j.compact = within room j.depth j := by
  have hsteps := steps_add_length_le j hj []
  have hfuel : j.steps ≤ 2 * (writeChars j []).length + 1 := by
    rw [List.length_nil] at hsteps
    omega
  have hread := readValue_writeChars j hj hfuel room (show Ends [] from nofun)
  rw [parseWithin, compact, String.toList_ofList]
  simp only [hread, within, bind, Except.bind]
  by_cases hfits : j.depth ≤ room
  · simp only [hfits, if_true]
    rfl
  · simp only [hfits, if_false]

end Json

/-- A value without fractions counts as `null` when it nests too deeply, and else as itself. -/
theorem valueOfText_compact {j : Json} (hj : j.Whole) :
    valueOfText j.compact = if j.depth ≤ Json.depthLimit then j else .null := by
  rw [valueOfText, Json.parse, Json.parseWithin_compact hj, Json.within]
  by_cases hfits : j.depth ≤ Json.depthLimit
  · rw [if_pos hfits, if_pos hfits]
  · rw [if_neg hfits, if_neg hfits]

end Workflows
