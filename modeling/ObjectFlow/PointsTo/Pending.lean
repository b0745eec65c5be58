import ObjectFlow.Collections.OrderedMap
import ObjectFlow.Collections.OrderedSet
/-!
# Pending objects

The work list of the pointer analysis pairs pointers with objects that are to
reach them. A pointer waits at most once: what is added to a waiting pointer
joins the objects that wait for it. Pointers are taken in the order in which
they began to wait.
-/

namespace ObjectFlow

/-- A set of objects that a pointer may point to. -/
abbrev PointsToSet (ω : Type) := OrderedSet ω

structure Pending (π ω : Type) where
  objects : OrderedMap π (PointsToSet ω)

namespace Pending

variable {π ω : Type}

def empty : Pending π ω := ⟨∅⟩

instance : Inhabited (Pending π ω) := ⟨empty⟩

/-- The waiting pointers, the next one first. -/
def pointers (w : Pending π ω) : List π := w.objects.keys

def size (w : Pending π ω) : Nat := w.objects.size

def isEmpty (w : Pending π ω) : Bool := w.objects.isEmpty

/-- The pointer that has waited longest, with its objects, and the list without it. -/
def poll? (w : Pending π ω) : Option ((π × PointsToSet ω) × Pending π ω) :=
  w.objects.pop?.map fun r => (r.1, ⟨r.2⟩)

/-- Lets objects wait for a pointer. The pointer waits even for no objects. -/
def add [DecidableEq π] [DecidableEq ω] (w : Pending π ω) (p : π) (objs : PointsToSet ω) :
    Pending π ω :=
  match w.objects.get? p with
  | none => ⟨w.objects.insert p objs⟩
  | some waiting => ⟨w.objects.insert p (waiting.union objs)⟩

end Pending

end ObjectFlow
