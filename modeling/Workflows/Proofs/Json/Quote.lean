/-
  Workflows.Proofs.Json.Quote — strings read back from their quoted form.

  Whatever a character is escaped to, the reader of strings takes it for that character
  (`readStringFrom_escapeChar`). So a quoted string reads back wherever it stands
  (`readString_quote`), and a small document made of strings, such as a node error, reads back
  as a whole (`nodeErrorOfText?_compact`).
-/

import Mathlib.Tactic.SplitIfs
import Workflows.Json.Text
import Workflows.Store.Table

namespace Workflows

namespace Json

theorem hexValue?_hexDigit : ∀ d < 16, hexValue? (hexDigit d) = some d := by decide

/-- A control character reads back from its four hexadecimal digits. -/
theorem readStringFrom_control {c : Char} (h : c.toNat < 32) (done rest : List Char) :
    readStringFrom .plain done
        ('\\' :: 'u' :: '0' :: '0' :: hexDigit (c.toNat / 16) :: hexDigit (c.toNat % 16) :: rest) =
      readStringFrom .plain (c :: done) rest := by
  have hhigh := hexValue?_hexDigit (c.toNat / 16) (by omega)
  have hlow := hexValue?_hexDigit (c.toNat % 16) (by omega)
  have hzero : hexValue? '0' = some 0 := by decide
  have hvalue : c.toNat / 16 * 16 + c.toNat % 16 = c.toNat := by omega
  have hlone : ¬ (56320 ≤ c.toNat ∧ c.toNat ≤ 57343) := by omega
  have hlead : ¬ (55296 ≤ c.toNat ∧ c.toNat ≤ 56319) := by omega
  simp [readStringFrom, hzero, hhigh, hlow, hvalue, if_neg hlone, if_neg hlead]

/-- Whatever a character is escaped to reads back as that character. -/
theorem readStringFrom_escapeChar (c : Char) (done rest : List Char) :
    readStringFrom .plain done (escapeChar c ++ rest) = readStringFrom .plain (c :: done) rest := by
  have hself : Char.ofNat c.toNat = c := Char.ofNat_toNat c
  unfold escapeChar
  split_ifs with hquote hback hnewline hreturn htab hbackspace hfeed hcontrol
  case pos | pos | pos | pos | pos => subst_vars; rfl
  case pos => rw [← hself, hbackspace]; rfl
  case pos => rw [← hself, hfeed]; rfl
  case pos => exact readStringFrom_control hcontrol done rest
  case neg => simp [readStringFrom, hquote, hback, hcontrol]

theorem readStringFrom_flatMap (cs done rest : List Char) :
    readStringFrom .plain done (cs.flatMap escapeChar ++ '"' :: rest) =
      .ok (String.ofList (done.reverse ++ cs), rest) := by
  induction cs generalizing done with
  | nil => simp [readStringFrom]
  | cons c cs ih =>
    rw [List.flatMap_cons, List.append_assoc, readStringFrom_escapeChar, ih, List.reverse_cons, List.append_assoc]
    rfl

/-- A quoted string reads back, and what comes after it is left. -/
theorem readString_quote (s : String) (rest : List Char) :
    readString (s.toList.flatMap escapeChar ++ '"' :: rest) = .ok (s, rest) := by
  rw [readString, readStringFrom_flatMap, List.reverse_nil, List.nil_append, String.ofList_toList]

theorem quote_append (s : String) (rest : List Char) :
    quote s ++ rest = '"' :: (s.toList.flatMap escapeChar ++ '"' :: rest) := by
  simp [quote]

/-- What is not blank is not skipped. -/
theorem skipBlank_cons {c : Char} (h : isBlank c = false) (rest : List Char) : skipBlank (c :: rest) = c :: rest := by
  rw [skipBlank, List.dropWhile_cons, h]
  rfl

theorem nextKey_quote (name : String) (rest : List Char) :
    nextKey true (quote name ++ rest) = .ok (true, name.toList.flatMap escapeChar ++ '"' :: rest) := by
  rw [quote_append, nextKey, skipBlank_cons (by decide)]
  rfl

theorem nextKey_comma_quote (name : String) (rest : List Char) :
    nextKey false (',' :: (quote name ++ rest)) = .ok (true, name.toList.flatMap escapeChar ++ '"' :: rest) := by
  rw [quote_append, nextKey, skipBlank_cons (by decide)]
  simp only
  rw [skipBlank_cons (by decide)]
  rfl

theorem readColon_cons (rest : List Char) : readColon (':' :: rest) = .ok rest := by
  rw [readColon, skipBlank_cons (by decide)]
  rfl

end Json

namespace Shape

variable (fuel room : Nat) (rest : List Char)

theorem readText_text_quote (s : String) : readText fuel .text room (Json.quote s ++ rest) = .ok (.string s, rest) := by
  have hhead : Json.readHead (Json.quote s ++ rest) = .ok (.scalar (.string s), rest) := by
    rw [Json.quote_append, Json.readHead, Json.skipBlank_cons (by decide)]
    simp [Json.readString_quote, bind, Except.bind, pure, Except.pure]
  simp only [readText, readScalar, hhead, syntactic, bind, Except.bind, conform, shaped, pure, Except.pure]

theorem readText_oneOf_quote {names : List String} {s : String} (h : s ∈ names) :
    readText fuel (.oneOf names) room (Json.quote s ++ rest) = .ok (.string s, rest) := by
  have hpick : pickName names s = .ok (.string s) := by
    rw [pickName, if_pos (List.contains_iff_mem.mpr h)]
  rw [readText, readChoice, Json.quote_append, Json.skipBlank_cons (by decide)]
  simp only [Json.readString_quote, syntactic, bind, Except.bind, hpick, shaped, pure, Except.pure]

/-- A member whose key comes next is read before the others. -/
theorem readMembers_of_nextKey {member : (before : Keyed Json) → String → List Char →
      Except DecodeError (Keyed Json × List Char)} {first : Bool} {before after : Keyed Json} {name : String}
    {cs rest' : List Char}
    (hkey : Json.nextKey first cs = .ok (true, name.toList.flatMap Json.escapeChar ++ '"' :: rest))
    (hmember : member before name rest = .ok (after, rest')) :
    readMembers member (fuel + 1) first before cs = readMembers member fuel false after rest' := by
  simp only [readMembers, hkey, syntactic, bind, Except.bind, Json.readString_quote, hmember]

end Shape

namespace NodeError

theorem ofText_text (k : NodeErrorKind) : NodeErrorKind.ofText k.text = k := by
  cases k <;> rfl

theorem text_mem (k : NodeErrorKind) : k.text ∈ ["failed", "timeout", "canceled", "invalidInput"] := by
  cases k <;> decide

theorem toList_compact (e : NodeError) : e.toJson.compact.toList =
    '{' :: (Json.quote "kind" ++ ':' :: (Json.quote e.kind.text ++ ',' :: (Json.quote "message" ++
      ':' :: (Json.quote e.message ++ ['}'])))) := by
  rw [Json.compact, String.toList_ofList, toJson, Json.writeChars, Json.writeChars, Json.writeMembers, Json.writeChars,
    Json.writeMembers]

variable (fuel room : Nat) (rest : List Char)

theorem readMember_kind (e : NodeError) :
    Shape.readMember fuel [Shape.field "kind" (.oneOf ["failed", "timeout", "canceled", "invalidInput"]),
        Shape.field "message" .text] room [] "kind" (':' :: (Json.quote e.kind.text ++ rest)) =
      .ok ([("kind", .string e.kind.text)], rest) := by
  simp [Shape.field, Shape.readMember, Shape.afterColon, Json.readColon_cons, Shape.syntactic, Keyed.contains,
    Keyed.insert, bind, Except.bind, pure, Except.pure, Shape.readText_oneOf_quote _ _ _ (text_mem e.kind)]

theorem readMember_message (e : NodeError) :
    Shape.readMember fuel [Shape.field "kind" (.oneOf ["failed", "timeout", "canceled", "invalidInput"]),
        Shape.field "message" .text] room [("kind", .string e.kind.text)] "message"
        (':' :: (Json.quote e.message ++ rest)) =
      .ok ([("kind", .string e.kind.text), ("message", .string e.message)], rest) := by
  have hafter : ¬ "message" < "kind" := by decide
  simp [Shape.field, Shape.readMember, Shape.afterColon, Json.readColon_cons, Shape.syntactic, Keyed.contains,
    Keyed.insert, hafter, bind, Except.bind, pure, Except.pure, Shape.readText_text_quote]

/-- The text of a node error reads back. -/
theorem parseText_compact (e : NodeError) : shape.parseText e.toJson.compact = .ok e.toJson := by
  obtain ⟨fuel, hfuel⟩ : ∃ fuel, 2 * e.toJson.compact.toList.length + 1 = fuel + 3 := by
    refine ⟨2 * e.toJson.compact.toList.length - 2, ?_⟩
    rw [toList_compact, List.length_cons]
    omega
  rw [Shape.parseText, hfuel, toList_compact, shape, Shape.readText,
    Json.skipBlank_cons (show Json.isBlank '{' = false by decide)]
  have henter : Shape.enter Json.depthLimit = .ok 126 := rfl
  simp only [henter, bind, Except.bind, pure, Except.pure]
  rw [Shape.readMembers_of_nextKey _ _ (Json.nextKey_quote _ _) (readMember_kind _ _ _ e),
    Shape.readMembers_of_nextKey _ _ (Json.nextKey_comma_quote _ _) (readMember_message _ _ _ e)]
  rfl

end NodeError

/-- The text of a node error describes that error. -/
theorem nodeErrorOfText?_compact (e : NodeError) : nodeErrorOfText? e.toJson.compact = some e := by
  rw [nodeErrorOfText?, NodeError.parseText_compact]
  simp [NodeError.ofPlain, NodeError.toJson, Json.member, Json.member?, Keyed.get?, Json.textOf, Json.string?,
    NodeError.ofText_text]

end Workflows
