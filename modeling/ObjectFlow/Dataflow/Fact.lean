import ObjectFlow.Collections.OrderedMap
/-!
# Facts

A fact gives each key a value of a lattice. A key that it does not mention has
the bottom value, and the operations never write that value down.
-/

namespace ObjectFlow

/-- A type with a least value. -/
class Bottom (α : Type) where
  bottom : α

/-- A finite map whose other keys have the bottom value. -/
structure Fact (κ α : Type) where
  bindings : OrderedMap κ α

namespace Fact

variable {κ α : Type}

def empty : Fact κ α := ⟨∅⟩

instance : EmptyCollection (Fact κ α) := ⟨empty⟩
instance : Inhabited (Fact κ α) := ⟨empty⟩

def keys (f : Fact κ α) : List κ := f.bindings.keys

def entries (f : Fact κ α) : List (κ × α) := f.bindings.entries

def size (f : Fact κ α) : Nat := f.bindings.size

def render (key : κ → String) (value : α → String) (f : Fact κ α) : String :=
  "\x7b" ++ ", ".intercalate (f.entries.map fun e => key e.1 ++ "=" ++ value e.2) ++ "\x7d"

variable [DecidableEq κ] [DecidableEq α] [Bottom α]

omit [DecidableEq α] in
def get (f : Fact κ α) (k : κ) : α := f.bindings.getD k Bottom.bottom

/-- Gives a key the bottom value, and says whether it had another. -/
def remove (f : Fact κ α) (k : κ) : Bool × Fact κ α :=
  (decide (f.get k ≠ Bottom.bottom), ⟨f.bindings.erase k⟩)

/-- Gives a key a value, and says whether it had another. -/
def update (f : Fact κ α) (k : κ) (v : α) : Bool × Fact κ α :=
  if v = Bottom.bottom then f.remove k
  else if f.bindings.get? k = some v then (false, f)
  else (true, ⟨f.bindings.insert k v⟩)

/-- Gives the keys of a list their values, in order. -/
def updateAll (f : Fact κ α) (l : List (κ × α)) : Fact κ α :=
  l.foldl (fun f e => (f.update e.1 e.2).2) f

def ofList (l : List (κ × α)) : Fact κ α := (∅ : Fact κ α).updateAll l

omit [Bottom α] in
/-- The same bindings, in whatever order. -/
def sameAs (f g : Fact κ α) : Bool := f.bindings.sameAs g.bindings

omit [Bottom α] in
/-- The contents of another fact, and whether they differ. A fact that agrees is kept. -/
def replaceBy (f g : Fact κ α) : Bool × Fact κ α := if f.sameAs g then (false, f) else (true, g)

end Fact

end ObjectFlow
