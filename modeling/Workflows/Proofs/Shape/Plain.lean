/-
  Workflows.Proofs.Shape.Plain — documents that are plain already, and what a plain document holds.

  Reading a record drops the members it does not know and complains of those that are missing.
  A document written by the program has neither, so it is read as it stands as soon as each of
  its members is (`conform_record`). The other way round, whatever is read as a record is an
  object whose members have each been read by the shape of their field
  (`member_of_conform_record`), also when the record was written as a list.
-/

import Workflows.Shape.Conform
import Workflows.Proofs.Fallible
import Workflows.Proofs.Keyed

namespace Workflows

/-! ## Members of a written record -/

namespace Json

variable {key k : String} {v : Option Json} {rest : List (String × Option Json)}

@[simp] theorem member?_record_nil (key : String) : (record []).member? key = none := rfl

@[simp] theorem member?_record_cons : (record ((k, v) :: rest)).member? key =
    if key = k then v.or ((record rest).member? key) else (record rest).member? key := by
  cases v with
  | none => simp [record, member?]
  | some x => simp [record, member?, Keyed.get?_cons]

theorem mem_keys_record {members : List (String × Option Json)} {x : Json} (h : (k, some x) ∈ members) :
    k ∈ Keyed.keys (members.filterMap fun (k, v) => v.map (k, ·)) :=
  List.mem_map.mpr ⟨(k, x), List.mem_filterMap.mpr ⟨_, h, rfl⟩, rfl⟩

end Json

namespace Shape

variable {fields : List (String × Presence × Shape)}

/-! ## Reading what is plain -/

@[simp] theorem conform_any (j : Json) : conform .any j = .ok j := by rw [conform]

@[simp] theorem conform_text (s : String) : conform .text (.string s) = .ok (.string s) := by
  rw [conform]

@[simp] theorem conform_nullable {inner : Shape} {j : Json} (h : conform inner j = .ok j) :
    conform (.nullable inner) j = .ok j := by
  cases j with
  | null => rfl
  | _ => exact h

@[simp] theorem conform_list {inner : Shape} {items : List Json} (h : ∀ x ∈ items, conform inner x = .ok x) :
    conform (.list inner) (.array items) = .ok (.array items) := by
  have hitems : items.mapM (conform inner) = .ok items := by rw [mapM_ok (g := fun x => x) h, List.map_id']
  exact congrArg (fun read => do return Json.array (← read)) hitems

@[simp] theorem conform_dict {inner : Shape} {members : List (String × Json)}
    (h : ∀ m ∈ members, conform inner m.2 = .ok m.2) : conform (.dict inner) (.object members) = .ok (.object members) := by
  have hmembers : members.mapM (fun m => do return (m.1, ← conform inner m.2)) = .ok members := by
    refine (mapM_ok (g := fun m => m) fun m hm => ?_).trans (by rw [List.map_id'])
    rw [h m hm]
    rfl
  exact congrArg (fun read => do return Json.object (← read)) hmembers

theorem conformMember_of_get? {key : String} {value : Json} {presence : Presence} {shape : Shape}
    (hfield : Keyed.get? fields key = some (presence, shape)) (h : conform shape value = .ok value) :
    conformMember fields key value = .ok (some (key, value)) := by
  induction fields with
  | nil => cases hfield
  | cons field rest ih =>
    obtain ⟨name, presence', shape'⟩ := field
    rw [Keyed.get?_cons] at hfield
    rw [conformMember]
    by_cases hname : key = name
    · rw [if_pos hname] at hfield
      obtain ⟨rfl, rfl⟩ := Prod.mk.inj (Option.some.inj hfield)
      rw [if_pos hname.symm, h]
      rfl
    · rw [if_neg hname] at hfield
      rw [if_neg (Ne.symm hname), ih hfield]

/-- A value that is read as it stands by the field of its name. -/
def Stands (fields : List (String × Presence × Shape)) (key : String) (value : Json) : Prop :=
  ∃ presence shape, Keyed.get? fields key = some (presence, shape) ∧ conform shape value = .ok value

@[simp] theorem not_stands_nil {key : String} {value : Json} : ¬ Stands [] key value := by
  rintro ⟨presence, shape, hfield, -⟩
  cases hfield

@[simp] theorem stands_cons {name key : String} {presence : Presence} {shape : Shape} {value : Json} :
    Stands ((name, presence, shape) :: fields) key value ↔
      if key = name then conform shape value = .ok value else Stands fields key value := by
  simp only [Stands, Keyed.get?_cons]
  split
  next =>
    constructor
    · rintro ⟨_, _, heq, hconform⟩
      obtain ⟨rfl, rfl⟩ := Prod.mk.inj (Option.some.inj heq)
      exact hconform
    · exact fun hconform => ⟨presence, shape, rfl, hconform⟩
  next => rfl

/-- A written record is read as it stands when its members are and those that must be there are. -/
theorem conform_record {label : String} {members : List (String × Option Json)}
    (hstand : ∀ m ∈ members, ∀ x ∈ m.2, Stands fields m.1 x)
    (hthere : ∀ f ∈ fields, f.2.1 = .required → ∃ x, (f.1, some x) ∈ members) :
    conform (.record label fields) (.record members) = .ok (.record members) := by
  have hmembers : ∀ m ∈ members.filterMap (fun (k, v) => v.map (k, ·)),
      conformMember fields m.1 m.2 = .ok (some m) := by
    intro m hm
    obtain ⟨⟨k, v⟩, hmem, hv⟩ := List.mem_filterMap.mp hm
    obtain ⟨x, rfl, rfl⟩ := Option.map_eq_some_iff.mp hv
    obtain ⟨presence, shape, hfield, hshape⟩ := hstand _ hmem x rfl
    exact conformMember_of_get? hfield hshape
  have hmissing : missing? fields (Keyed.keys (members.filterMap fun (k, v) => v.map (k, ·))) = none := by
    rw [missing?, Option.map_eq_none_iff, List.find?_eq_none]
    intro f hf
    simp only [Bool.and_eq_true, decide_eq_true_eq, Bool.not_eq_true', not_and]
    intro hrequired
    obtain ⟨x, hx⟩ := hthere f hf hrequired
    simpa using Json.mem_keys_record hx
  rw [Json.record, conform]
  simp only [filterMapM_eq_self hmembers, hmissing, bind, Except.bind]
  rfl

/-! ## What a plain document holds -/

theorem field_of_conformMember {key k : String} {value x : Json} (h : conformMember fields key value = .ok (some (k, x))) :
    ∃ presence shape, (k, presence, shape) ∈ fields ∧ conform shape value = .ok x := by
  induction fields with
  | nil => cases h
  | cons field rest ih =>
    obtain ⟨name, presence, shape⟩ := field
    rw [conformMember] at h
    split at h
    next hname =>
      obtain ⟨x', hx, h⟩ := exists_of_bind_eq_ok h
      cases h
      exact ⟨presence, shape, hname ▸ List.mem_cons_self, hx⟩
    next =>
      obtain ⟨presence', shape', hmem, hx⟩ := ih h
      exact ⟨presence', shape', List.mem_cons_of_mem _ hmem, hx⟩

theorem field_of_conformItems {label : String} {i extra : Nat} {items : List Json} {pairs : List (String × Json)}
    (h : conformItems label i fields items = .ok (pairs, extra)) :
    ∀ p ∈ pairs, ∃ presence shape value, (p.1, presence, shape) ∈ fields ∧ conform shape value = .ok p.2 := by
  induction fields generalizing i items pairs extra with
  | nil =>
    cases h
    nofun
  | cons field rest ih =>
    obtain ⟨name, presence, shape⟩ := field
    have hlater {pairs' : List (String × Json)} {i' extra' : Nat} {items' : List Json}
        (h' : conformItems label i' rest items' = .ok (pairs', extra')) : ∀ p ∈ pairs',
        ∃ presence' shape' value, (p.1, presence', shape') ∈ (name, presence, shape) :: rest ∧
          conform shape' value = .ok p.2 := fun p hp => by
      obtain ⟨presence', shape', value, hmem, hx⟩ := ih h' p hp
      exact ⟨presence', shape', value, List.mem_cons_of_mem _ hmem, hx⟩
    cases items with
    | nil =>
      rw [conformItems] at h
      split at h
      · exact hlater h
      · cases h
    | cons x items =>
      rw [conformItems] at h
      obtain ⟨value, hvalue, h⟩ := exists_of_bind_eq_ok h
      obtain ⟨⟨pairs', extra'⟩, hpairs, h⟩ := exists_of_bind_eq_ok h
      cases h
      intro p hp
      rcases List.mem_cons.mp hp with rfl | hp
      · exact ⟨presence, shape, x, List.mem_cons_self, hvalue⟩
      · exact hlater hpairs p hp

/-- Each member of a record that was read has been read by the shape of its field. -/
theorem member_of_conform_record {label key : String} {j plain x : Json}
    (h : conform (.record label fields) j = .ok plain) (hx : plain.member? key = some x) :
    ∃ presence shape value, (key, presence, shape) ∈ fields ∧ conform shape value = .ok x := by
  cases j with
  | object members =>
    rw [conform] at h
    obtain ⟨known, hknown, h⟩ := exists_of_bind_eq_ok h
    split at h
    · cases h
    · cases h
      obtain ⟨m, -, hm⟩ := exists_of_mem_filterMapM hknown (Keyed.mem_of_get? hx)
      obtain ⟨presence, shape, hmem, hshape⟩ := field_of_conformMember hm
      exact ⟨presence, shape, _, hmem, hshape⟩
  | array items =>
    rw [conform] at h
    obtain ⟨⟨pairs, extra⟩, hpairs, h⟩ := exists_of_bind_eq_ok h
    dsimp only at h
    split at h
    · cases h
      have hget : Keyed.get? pairs.reverse key = some x := by
        rwa [Json.ofPairs, Json.member?, Keyed.ofList, Keyed.get?_insertAll, Keyed.get?_nil, Option.or_none] at hx
      exact field_of_conformItems hpairs _ (List.mem_reverse.mp (Keyed.mem_of_get? hget))
    · cases h
  | _ =>
    rw [conform] at h
    · cases h
    all_goals nofun

end Shape
end Workflows
