import ObjectFlow.Collections.OrderedSet
/-!
# Breadth-first search

`search next n queue seen` expands the nodes of `queue` in order. Each newly met
node joins both the queue and `seen`, which so lists the nodes in the order of
their discovery. The bound `n` counts expansions; as every node is queued at
most once, the number of nodes is enough.
-/

namespace ObjectFlow

variable {α : Type} [DecidableEq α]

def search (next : α → List α) : Nat → List α → OrderedSet α → OrderedSet α
  | 0, _, seen => seen
  | _ + 1, [], seen => seen
  | n + 1, a :: queue, seen =>
    let fresh := seen.missing (OrderedSet.ofList (next a))
    search next n (queue ++ fresh.toList) (seen.union fresh)

/-- The nodes reached from `a` by any number of steps, `a` first, the nearest next. -/
def reachableFrom (next : α → List α) (bound : Nat) (a : α) : List α :=
  (search next bound [a] (OrderedSet.singleton a)).toList

end ObjectFlow
