/-
  Workflows.Data.Keyed — finite maps as lists of pairs in ascending key order.

  Every map of the library that answers show is shown in the order of its keys (strings by
  code point), so the map is that list: equal maps are equal lists. `insert` keeps the order
  and replaces the value of a key already there; a list built from `[]` by `insert` and
  `erase` is `Sorted`.
-/
namespace Workflows

/-- A map from strings, in ascending key order. -/
abbrev Keyed (α : Type) := List (String × α)

namespace Keyed

variable {α β : Type}

def get? (m : Keyed α) (key : String) : Option α := (m.find? (·.1 == key)).map (·.2)

def contains (m : Keyed α) (key : String) : Bool := m.any (·.1 == key)

def insert (m : Keyed α) (key : String) (value : α) : Keyed α :=
  match m with
  | [] => [(key, value)]
  | (k, v) :: rest =>
    if key < k then (key, value) :: (k, v) :: rest
    else if key = k then (key, value) :: rest
    else (k, v) :: insert rest key value

def erase (m : Keyed α) (key : String) : Keyed α := m.filter (·.1 != key)

/-- Changes the value of a key that is there. -/
def modify (m : Keyed α) (key : String) (f : α → α) : Keyed α :=
  m.map fun (k, v) => if k = key then (k, f v) else (k, v)

def keys (m : Keyed α) : List String := m.map (·.1)

def values (m : Keyed α) : List α := m.map (·.2)

def mapValues (f : α → β) (m : Keyed α) : Keyed β := m.map fun (k, v) => (k, f v)

/-- Inserts the pairs of `extra` one after the other. -/
def insertAll (m : Keyed α) (extra : List (String × α)) : Keyed α :=
  extra.foldl (fun acc (k, v) => acc.insert k v) m

/-- The map of the pairs, the last value of a key being kept. -/
def ofList (pairs : List (String × α)) : Keyed α := insertAll [] pairs

/-- Keys ascend strictly. -/
def Sorted (m : Keyed α) : Prop := m.Pairwise (·.1 < ·.1)

end Keyed

/-- Distinct strings in ascending order. -/
abbrev NameSet := List String

namespace NameSet

def insert (s : NameSet) (name : String) : NameSet :=
  match s with
  | [] => [name]
  | n :: rest =>
    if name < n then name :: n :: rest
    else if name = n then n :: rest
    else n :: insert rest name

def ofList (names : List String) : NameSet := names.foldl insert []

def union (s : NameSet) (names : List String) : NameSet := names.foldl insert s

end NameSet
end Workflows
