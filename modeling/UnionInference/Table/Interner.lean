import Std.Data.HashMap

/-!
A pool of texts in which each text has one handle, the number of texts that came before it.
-/

namespace UnionInference

/-- A pool of distinct texts. -/
structure Interner where
  /-- The texts by handle. -/
  texts : Array String := #[]
  /-- The handle of each text. -/
  handles : Std.HashMap String Nat := {}

namespace Interner

/-- The pool with no texts. -/
def empty : Interner := {}

/-- The handle of a text that is in the pool. -/
def get? (p : Interner) (s : String) : Option Nat := p.handles[s]?

/-- The text of a handle. -/
def resolve? (p : Interner) (handle : Nat) : Option String := p.texts[handle]?

/-- The handle of a text, which joins the pool if it was not there. -/
def intern (p : Interner) (s : String) : Nat × Interner :=
  match p.get? s with
  | some handle => (handle, p)
  | none =>
    let handle := p.texts.size
    (handle, { texts := p.texts.push s, handles := p.handles.insert s handle })

/-- The number of texts. -/
def size (p : Interner) : Nat := p.texts.size

/-- Whether the pool has no texts. -/
def isEmpty (p : Interner) : Bool := p.texts.isEmpty

end Interner

end UnionInference
