import Std.Data.HashMap

/-!
A table that keeps every value stored under a key, in order of arrival.
-/

namespace UnionInference

/-- A table with a row of values for each key. -/
structure MultiTable (κ ν : Type) [BEq κ] [Hashable κ] where
  /-- The values of each key, oldest first. -/
  rows : Std.HashMap κ (List ν) := {}

namespace MultiTable

variable {κ ν : Type} [BEq κ] [Hashable κ]

/-- The table with no values. -/
def empty : MultiTable κ ν := {}

instance : Inhabited (MultiTable κ ν) := ⟨empty⟩

/-- The values stored under a key, if there are any. -/
def get? (t : MultiTable κ ν) (k : κ) : Option (List ν) := t.rows[k]?

/-- Appends a value to those of a key. -/
def insert (t : MultiTable κ ν) (k : κ) (v : ν) : MultiTable κ ν :=
  ⟨t.rows.insert k ((t.get? k).getD [] ++ [v])⟩

/-- Removes a key with all its values. -/
def erase (t : MultiTable κ ν) (k : κ) : MultiTable κ ν := ⟨t.rows.erase k⟩

/-- Removes a key and tells the values it had. -/
def take (t : MultiTable κ ν) (k : κ) : Option (List ν) × MultiTable κ ν :=
  (t.get? k, t.erase k)

/-- Whether a key has values. -/
def contains (t : MultiTable κ ν) (k : κ) : Bool := t.rows.contains k

/-- The number of keys. -/
def size (t : MultiTable κ ν) : Nat := t.rows.size

/-- Whether there is no key. -/
def isEmpty (t : MultiTable κ ν) : Bool := t.rows.isEmpty

end MultiTable

end UnionInference
