import ObjectFlow.Collections.OrderedMap
/-!
# Maps that fill themselves in

Asking for a key that is not bound makes its value and keeps it, so a value is
made once. A value that cannot be made leaves the map as it was.
-/

namespace ObjectFlow

/-- A map whose missing values are made on demand. -/
structure LazyMap (κ ν : Type) where
  known : OrderedMap κ ν

namespace LazyMap

variable {κ ν : Type}

def empty : LazyMap κ ν := ⟨∅⟩

def keys (m : LazyMap κ ν) : List κ := m.known.keys

variable [DecidableEq κ]

/-- The value of a key as far as it is known. -/
def find? (m : LazyMap κ ν) (k : κ) : Option ν := m.known.get? k

def contains (m : LazyMap κ ν) (k : κ) : Bool := m.known.contains k

/-- Binds a key whether or not it is bound. -/
def insert (m : LazyMap κ ν) (k : κ) (v : ν) : LazyMap κ ν := ⟨m.known.insert k v⟩

/-- The value of a key, made by `make` if it is not known yet. -/
def get {μ : Type → Type} [Monad μ] (make : κ → μ ν) (m : LazyMap κ ν) (k : κ) :
    μ (ν × LazyMap κ ν) :=
  match m.find? k with
  | some v => pure (v, m)
  | none => do
    let v ← make k
    pure (v, m.insert k v)

end LazyMap

end ObjectFlow
