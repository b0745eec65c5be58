import ObjectFlow.Collections.OrderedSet
/-!
# Work queues

First in, first out, and no item waits twice: pushing an item that is already
waiting does nothing. Once popped, it may be queued again.
-/

namespace ObjectFlow

/-- A queue in which no item waits twice. -/
structure WorkQueue (α : Type) where
  waiting : OrderedSet α

namespace WorkQueue

variable {α : Type}

def empty : WorkQueue α := ⟨∅⟩

instance : Inhabited (WorkQueue α) := ⟨empty⟩

/-- The waiting items, the next one first. -/
def toList (q : WorkQueue α) : List α := q.waiting.toList

def size (q : WorkQueue α) : Nat := q.waiting.size

def isEmpty (q : WorkQueue α) : Bool := q.waiting.isEmpty

/-- The item that has waited longest, and the queue behind it. -/
def pop? (q : WorkQueue α) : Option (α × WorkQueue α) :=
  match q with
  | ⟨⟨[], _⟩⟩ => none
  | ⟨⟨a :: as, h⟩⟩ => some (a, ⟨⟨as, (List.nodup_cons.1 h).2⟩⟩)

@[simp] theorem toList_empty : (empty : WorkQueue α).toList = [] := rfl

variable [DecidableEq α]

def contains (q : WorkQueue α) (a : α) : Bool := decide (a ∈ q.waiting)

/-- Queues an item and says whether it was not waiting before. -/
def push (q : WorkQueue α) (a : α) : Bool × WorkQueue α :=
  (!q.contains a, ⟨q.waiting.insert a⟩)

/-- Queues the items of a list, in order. -/
def pushAll (q : WorkQueue α) (l : List α) : WorkQueue α := ⟨q.waiting.insertAll l⟩

/-- The queue of the items of a list. -/
def ofList (l : List α) : WorkQueue α := empty.pushAll l

theorem toList_push (q : WorkQueue α) (a : α) :
    (q.push a).2.toList = if q.contains a then q.toList else q.toList ++ [a] := by
  simp only [push, toList, contains, OrderedSet.toList_insert, decide_eq_true_eq]

omit [DecidableEq α] in
theorem toList_eq_of_pop? {q r : WorkQueue α} {a : α} (h : q.pop? = some (a, r)) :
    q.toList = a :: r.toList := by
  match q, h with
  | ⟨⟨b :: bs, hn⟩⟩, h =>
    simp only [pop?, Option.some.injEq, Prod.mk.injEq] at h
    obtain ⟨rfl, rfl⟩ := h
    rfl

omit [DecidableEq α] in
theorem toList_eq_nil_of_pop? {q : WorkQueue α} (h : q.pop? = none) : q.toList = [] := by
  match q, h with
  | ⟨⟨[], _⟩⟩, _ => rfl

end WorkQueue

end ObjectFlow
