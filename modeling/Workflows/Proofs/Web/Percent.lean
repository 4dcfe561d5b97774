/-
  Workflows.Proofs.Web.Percent — a text reads back from its percent-encoding.

  Whichever characters an encoding keeps, as long as the percent sign is not among them, the
  bytes that are read are those of the text (`percentBytes_percentEncode`), and these are UTF-8.
  A text of kept characters stands for itself, and no other text has its encoding
  (`percentEncode_inj`): so a client that keeps the characters of a word writes that word and
  nothing else as the word.
-/

import Workflows.Web.Percent

namespace Workflows.Web

/-! ## One triple -/

theorem hexValue?_upperHexDigit : ∀ n < 16, hexValue? (upperHexDigit n) = some n := by decide

theorem percentBytes_percentByte (b : UInt8) (rest : List Char) :
    percentBytes (percentByte b ++ rest) = b :: percentBytes rest := by
  have hlt : b.toNat < 256 := b.toNat_lt
  have hhigh := hexValue?_upperHexDigit (b.toNat / 16) (by omega)
  have hlow := hexValue?_upperHexDigit (b.toNat % 16) (by omega)
  have hvalue : 16 * (b.toNat / 16) + b.toNat % 16 = b.toNat := by omega
  simp only [percentByte, List.cons_append, List.nil_append, percentBytes, hhigh, hlow, hvalue]
  simp

/-! ## The whole -/

variable {keep : Char → Bool}

theorem percentBytes_flatMap (bs : List UInt8) (rest : List Char) :
    percentBytes (bs.flatMap percentByte ++ rest) = bs ++ percentBytes rest := by
  induction bs with
  | nil => rfl
  | cons b bs ih =>
    rw [List.flatMap_cons, List.append_assoc, percentBytes_percentByte, ih, List.cons_append]

/-- Reading takes an encoding back to the bytes of the text. -/
theorem percentBytes_percentEncode (hpercent : keep '%' = false) (cs : List Char) :
    percentBytes (percentEncode keep cs) = cs.flatMap String.utf8EncodeChar := by
  induction cs with
  | nil => rfl
  | cons c cs ih =>
    rw [percentEncode, List.flatMap_cons, List.flatMap_cons]
    split
    next hkept =>
      have hne : c ≠ '%' := by
        rintro rfl
        simp [hpercent] at hkept
      rw [List.singleton_append, percentBytes, ← ih, percentEncode]
      · intro _ _ _ heq _
        exact hne heq
    next => rw [percentBytes_flatMap, ← ih, percentEncode]

/-- The bytes of a text are read as that text. -/
theorem fromUTF8?_utf8EncodeChar (s : String) :
    String.fromUTF8? ⟨(s.toList.flatMap String.utf8EncodeChar).toArray⟩ = some s := by
  have hbytes : (⟨(s.toList.flatMap String.utf8EncodeChar).toArray⟩ : ByteArray) = s.toByteArray := by
    rw [← String.ofList_toList (s := s), String.toByteArray_ofList, String.toList_ofList]
    exact ByteArray.ext (by rw [List.utf8Encode, List.data_toByteArray])
  rw [hbytes, String.fromUTF8?, dif_pos s.isValidUTF8]
  rfl

theorem percentDecode?_percentEncode (hpercent : keep '%' = false) (s : String) :
    percentDecode? (String.ofList (percentEncode keep s.toList)) = some s := by
  rw [percentDecode?, String.toList_ofList, percentBytes_percentEncode hpercent, fromUTF8?_utf8EncodeChar]

/-- Different texts have different encodings. -/
theorem percentEncode_inj (hpercent : keep '%' = false) {s t : String}
    (h : percentEncode keep s.toList = percentEncode keep t.toList) : s = t := by
  have hback := percentDecode?_percentEncode hpercent s
  rw [h, percentDecode?_percentEncode hpercent t] at hback
  exact (Option.some.inj hback).symm

/-- A text whose characters are all kept stands for itself. -/
theorem percentEncode_eq_self {cs : List Char} (h : ∀ c ∈ cs, c.toNat < 128 ∧ keep c = true) :
    percentEncode keep cs = cs := by
  induction cs with
  | nil => rfl
  | cons c cs ih =>
    have hc := h c List.mem_cons_self
    rw [percentEncode, List.flatMap_cons, if_pos (by simp [hc])]
    exact congrArg (c :: ·) (ih fun d hd => h d (List.mem_cons_of_mem _ hd))

/-- A mark that is neither kept nor part of a triple does not stand in an encoding. -/
theorem not_mem_percentEncode {mark : Char} (hkeep : keep mark = false) (hpercent : mark ≠ '%')
    (hdigit : hexValue? mark = none) (cs : List Char) : mark ∉ percentEncode keep cs := by
  intro hmem
  obtain ⟨c, -, hc⟩ := List.mem_flatMap.mp hmem
  split at hc
  next hkept =>
    rw [← List.mem_singleton.mp hc, hkeep, Bool.and_false] at hkept
    cases hkept
  next =>
    obtain ⟨b, -, hb⟩ := List.mem_flatMap.mp hc
    have hlt : b.toNat < 256 := b.toNat_lt
    simp only [percentByte, List.mem_cons, List.not_mem_nil, or_false] at hb
    rcases hb with rfl | rfl | rfl
    · exact hpercent rfl
    · rw [hexValue?_upperHexDigit _ (by omega)] at hdigit
      cases hdigit
    · rw [hexValue?_upperHexDigit _ (by omega)] at hdigit
      cases hdigit

end Workflows.Web
