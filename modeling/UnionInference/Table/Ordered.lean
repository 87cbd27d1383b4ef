import Std.Data.HashMap

/-!
A table that remembers the order in which its keys arrived. The entries stand in a row, and an index
gives the place of each key in it. Replacing a value keeps its place; removing an entry closes the
gap, so every later place moves down by one.
-/

namespace UnionInference

/-- A table with its entries in order of arrival. -/
structure OrderedTable (κ ν : Type) [BEq κ] [Hashable κ] where
  /-- The entries, oldest first. -/
  entries : Array (κ × ν) := #[]
  /-- The place of each key. -/
  index : Std.HashMap κ Nat := {}

namespace OrderedTable

variable {κ ν : Type} [BEq κ] [Hashable κ]

/-- The table with no entries. -/
def empty : OrderedTable κ ν := {}

instance : Inhabited (OrderedTable κ ν) := ⟨empty⟩

/-- The value stored under a key. -/
def get? (t : OrderedTable κ ν) (k : κ) : Option ν :=
  match t.index[k]? with
  | some i => t.entries[i]?.map Prod.snd
  | none => none

/-- Whether the key has an entry. -/
def contains (t : OrderedTable κ ν) (k : κ) : Bool := t.index.contains k

/-- Stores a value: in the key's place if it has one, else at the end. -/
def insert (t : OrderedTable κ ν) (k : κ) (v : ν) : OrderedTable κ ν :=
  match t.index[k]? with
  | some i => { t with entries := t.entries.modify i fun e => (e.1, v) }
  | none => { entries := t.entries.push (k, v), index := t.index.insert k t.entries.size }

/-- Removes a key, moving the later entries down. -/
def erase (t : OrderedTable κ ν) (k : κ) : OrderedTable κ ν :=
  match t.index[k]? with
  | some i =>
    { entries := t.entries.eraseIdxIfInBounds i
      index := (t.index.erase k).map fun _ j => if i < j then j - 1 else j }
  | none => t

/-- Stores a value and tells the one it replaces. -/
def exchange (t : OrderedTable κ ν) (k : κ) (v : ν) : Option ν × OrderedTable κ ν :=
  (t.get? k, t.insert k v)

/-- Removes a key and tells the value it had. -/
def take (t : OrderedTable κ ν) (k : κ) : Option ν × OrderedTable κ ν :=
  (t.get? k, t.erase k)

/-- The number of entries. -/
def size (t : OrderedTable κ ν) : Nat := t.entries.size

/-- Whether there is no entry. -/
def isEmpty (t : OrderedTable κ ν) : Bool := t.entries.isEmpty

/-- The entries in order. -/
def toList (t : OrderedTable κ ν) : List (κ × ν) := t.entries.toList

/-- The keys in order. -/
def keys (t : OrderedTable κ ν) : List κ := t.toList.map Prod.fst

/-- The values in order. -/
def values (t : OrderedTable κ ν) : List ν := t.toList.map Prod.snd

/-- The table made by storing the pairs one after the other. -/
def ofList (entries : List (κ × ν)) : OrderedTable κ ν :=
  entries.foldl (fun t e => t.insert e.1 e.2) empty

/-- The entries that satisfy a test, in the same order. -/
def filter (t : OrderedTable κ ν) (p : κ → ν → Bool) : OrderedTable κ ν :=
  (t.toList.filter fun e => !p e.1 e.2).foldl (fun t e => t.erase e.1) t

/-- Two tables are equal when they have the same entries in the same order. -/
instance [BEq ν] : BEq (OrderedTable κ ν) := ⟨fun a b => a.entries == b.entries⟩

end OrderedTable

end UnionInference
