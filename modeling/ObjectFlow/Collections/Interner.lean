import ObjectFlow.Collections.OrderedSet
/-!
# Interning tables

A table gives each key it meets the next free number, its handle. Handles count
from zero, and no key is ever removed or renumbered.
-/

namespace ObjectFlow

/-- The keys met so far. The handle of a key is its place. -/
structure Interner (κ : Type) where
  keys : OrderedSet κ

namespace Interner

variable {κ : Type}

def empty : Interner κ := ⟨∅⟩

instance : EmptyCollection (Interner κ) := ⟨empty⟩
instance : Inhabited (Interner κ) := ⟨empty⟩

def size (t : Interner κ) : Nat := t.keys.size

/-- The keys in the order of their handles. -/
def toList (t : Interner κ) : List κ := t.keys.toList

variable [DecidableEq κ]

/-- The handle of a key, if the table has met it. -/
def find? (t : Interner κ) (k : κ) : Option Nat := t.keys.index? k

def contains (t : Interner κ) (k : κ) : Bool := decide (k ∈ t.keys)

/-- The table once it has met a key. -/
def intern (t : Interner κ) (k : κ) : Interner κ := ⟨t.keys.insert k⟩

/-- The handle of a key, which is the next free one if the key is new. -/
def get (t : Interner κ) (k : κ) : Nat × Interner κ :=
  ((t.find? k).getD t.size, t.intern k)

end Interner

end ObjectFlow
