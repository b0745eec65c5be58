/-!
# Merging orders

Several lists are merged into one list that keeps the order of each. The next
item is the first head that stands in no tail; if every head stands in some
tail, the orders contradict each other and there is no merge.
-/

namespace ObjectFlow.OrderMerge

variable {α : Type} [DecidableEq α]

/-- The first head of some orders that stands in no tail of them. -/
def next? (orders : List (List α)) : Option α :=
  (orders.filterMap List.head?).find? fun a => orders.all fun o => decide (a ∉ o.tail)

/-- An order less the item, if it begins with it. -/
def advance (a : α) (order : List α) : List α := if order.head? = some a then order.tail else order

/-- The merge of orders that takes at most `n` items. -/
def mergeUpTo : Nat → List (List α) → Option (List α)
  | n, orders =>
    if orders.all List.isEmpty then some []
    else match n with
      | 0 => none
      | n + 1 => do
        let a ← next? orders
        let rest ← mergeUpTo n (orders.map (advance a))
        some (a :: rest)

/-- The merge of orders. Each item taken leaves at least one order shorter, so the number of all
items is bound enough. -/
def merge (orders : List (List α)) : Option (List α) := mergeUpTo orders.flatten.length orders

/-- The merge of the orders of some bases that keeps the order of the bases as well. No base may be
named twice. -/
def mergeBases (bases : List α) (orders : List (List α)) : Option (List α) :=
  if bases.Nodup then merge (orders ++ [bases]) else none

end ObjectFlow.OrderMerge
