import Mathlib.Data.Finset.Erase
import Mathlib.Data.Finset.Insert
import ObjectFlow.Proofs.Containers
import ObjectFlow.Proofs.Histories
/-!
# No item waits twice

A queue is kept as a list of items and a set of marks for those that wait, and both must
be changed together. Whatever was pushed, popped and looked for, the marks are the items of
the list, each there once, and the items come out in the order of the pushes that queued
them. So no item is lost, and none is kept out by a mark that was left behind.
-/

namespace ObjectFlow

/-! ## Requests and answers -/

/-- What a queue can be asked. -/
inductive QueueRequest (α : Type) where
  | push (a : α)
  | pop
  | contains (a : α)

/-- What a queue answers. -/
inductive QueueAnswer (α : Type) where
  | truth (b : Bool)
  | item (a : α)
  /-- There is nothing to pop. -/
  | nothing

/-- The item that a request queued. -/
def queued? {α : Type} (e : QueueRequest α × QueueAnswer α) : Option α :=
  match e with
  | (.push a, .truth true) => some a
  | _ => none

/-- The item that a request took out. -/
def popped? {α : Type} (e : QueueRequest α × QueueAnswer α) : Option α :=
  match e with
  | (.pop, .item a) => some a
  | _ => none

namespace WorkQueue

variable {α : Type} [DecidableEq α]

def ask (q : WorkQueue α) : QueueRequest α → QueueAnswer α × WorkQueue α
  | .push a => (.truth (q.push a).1, (q.push a).2)
  | .pop =>
    match q.pop? with
    | none => (.nothing, q)
    | some (a, rest) => (.item a, rest)
  | .contains a => (.truth (q.contains a), q)

end WorkQueue

/-- The items that wait, and a mark for each of them. -/
structure MarkedQueue (α : Type) where
  items : List α
  marks : Finset α

namespace MarkedQueue

variable {α : Type} [DecidableEq α]

def empty : MarkedQueue α := ⟨[], ∅⟩

def ask (m : MarkedQueue α) : QueueRequest α → QueueAnswer α × MarkedQueue α
  | .push a =>
    if a ∈ m.marks then (.truth false, m) else (.truth true, ⟨m.items ++ [a], insert a m.marks⟩)
  | .pop =>
    match m.items with
    | [] => (.nothing, m)
    | a :: rest => (.item a, ⟨rest, m.marks.erase a⟩)
  | .contains a => (.truth (decide (a ∈ m.marks)), m)

end MarkedQueue

/-! ## The list and the marks -/

namespace WorkQueue

variable {α : Type} [DecidableEq α] {q : WorkQueue α} {a : α} {l : List α}

theorem contains_eq (q : WorkQueue α) (a : α) : q.contains a = decide (a ∈ q.toList) := rfl

omit [DecidableEq α] in
theorem nodup_toList (q : WorkQueue α) : q.toList.Nodup := q.waiting.nodup

theorem ask_contains (q : WorkQueue α) (a : α) :
    q.ask (.contains a) = (.truth (decide (a ∈ q.toList)), q) := rfl

theorem ask_push_of_mem (h : a ∈ q.toList) : q.ask (.push a) = (.truth false, q) := by
  have hsame : q.push a = (false, q) :=
    Prod.ext (congrArg not (decide_eq_true h)) (congrArg mk (OrderedSet.insert_of_mem h))
  rw [ask, hsame]

theorem ask_push_of_not_mem (h : a ∉ q.toList) :
    ∃ r, q.ask (.push a) = (.truth true, r) ∧ r.toList = q.toList ++ [a] := by
  refine ⟨(q.push a).2, ?_, ?_⟩
  · simp only [ask, push, contains_eq, h, decide_false, Bool.not_false]
  · rw [toList_push, contains_eq, decide_eq_false h, if_neg Bool.false_ne_true]

theorem ask_pop_nil (h : q.toList = []) : q.ask .pop = (.nothing, q) := by
  cases hq : q.pop? with
  | none => simp only [ask, hq]
  | some x => cases h.symm.trans (toList_eq_of_pop? hq)

theorem ask_pop_cons (h : q.toList = a :: l) :
    ∃ r, q.ask .pop = (.item a, r) ∧ r.toList = l := by
  obtain ⟨r, hpop, hr⟩ := pop?_of_toList h
  exact ⟨r, by simp only [ask, hpop], hr⟩

end WorkQueue

namespace MarkedQueue

variable {α : Type} [DecidableEq α] {m : MarkedQueue α} {q : WorkQueue α}

/-- The list is that of a queue, and the marks are its items. -/
structure Shows (m : MarkedQueue α) (q : WorkQueue α) : Prop where
  items : m.items = q.toList
  marks : ∀ a, a ∈ m.marks ↔ a ∈ m.items

omit [DecidableEq α] in
theorem shows_empty : (empty : MarkedQueue α).Shows .empty :=
  ⟨rfl, fun a => iff_of_false (Finset.notMem_empty a) List.not_mem_nil⟩

/-- A request changes the list and the marks together. -/
theorem Shows.ask (h : m.Shows q) (r : QueueRequest α) :
    (m.ask r).1 = (q.ask r).1 ∧ (m.ask r).2.Shows (q.ask r).2 := by
  have hmark : ∀ a, a ∈ m.marks ↔ a ∈ q.toList := fun a => h.items ▸ h.marks a
  cases r with
  | contains a => exact ⟨by simp only [MarkedQueue.ask, WorkQueue.ask_contains, hmark], h⟩
  | push a =>
    by_cases ha : a ∈ q.toList
    · rw [WorkQueue.ask_push_of_mem ha, MarkedQueue.ask, if_pos ((hmark a).2 ha)]
      exact ⟨rfl, h⟩
    · obtain ⟨r, hr, hlist⟩ := WorkQueue.ask_push_of_not_mem ha
      rw [hr, MarkedQueue.ask, if_neg (mt (hmark a).1 ha)]
      refine ⟨rfl, by rw [hlist, h.items], fun b => ?_⟩
      rw [Finset.mem_insert, h.marks, List.mem_append, List.mem_singleton, or_comm]
  | pop =>
    cases hitems : m.items with
    | nil =>
      rw [WorkQueue.ask_pop_nil (h.items.symm.trans hitems)]
      simp only [MarkedQueue.ask, hitems]
      exact ⟨trivial, h⟩
    | cons a l =>
      have hq : q.toList = a :: l := h.items.symm.trans hitems
      obtain ⟨r, hr, hlist⟩ := WorkQueue.ask_pop_cons hq
      rw [hr]
      simp only [MarkedQueue.ask, hitems]
      refine ⟨trivial, hlist.symm, fun b => ?_⟩
      -- the item that was taken does not come again
      have ha : a ∉ l := (List.nodup_cons.1 (hq ▸ q.nodup_toList)).1
      rw [Finset.mem_erase, h.marks, hitems, List.mem_cons]
      constructor
      · rintro ⟨hne, hb⟩
        exact hb.resolve_left hne
      · intro hb
        exact ⟨fun hba => ha (hba ▸ hb), .inr hb⟩

end MarkedQueue

/-! ## Histories of a queue -/

namespace WorkQueue

variable {α : Type} [DecidableEq α] {q : WorkQueue α}

/-- Items come out in the order of the pushes that queued them. -/
abbrev InOrder (history : List (QueueRequest α × QueueAnswer α)) (q : WorkQueue α) : Prop :=
  FirstInFirstOut (fun _ => queued?) (fun _ => popped?) history q.toList

omit [DecidableEq α] in
theorem inOrder_empty : InOrder [] (empty : WorkQueue α) := .nil

theorem InOrder.ask {history : List (QueueRequest α × QueueAnswer α)} (h : InOrder history q)
    (r : QueueRequest α) : InOrder (history ++ [(r, (q.ask r).1)]) (q.ask r).2 := by
  cases r with
  | contains a => exact h.skip rfl rfl
  | push a =>
    by_cases ha : a ∈ q.toList
    · rw [ask_push_of_mem ha]
      exact h.skip rfl rfl
    · obtain ⟨r, hr, hlist⟩ := ask_push_of_not_mem ha
      rw [hr, InOrder, hlist]
      exact h.enter rfl rfl
  | pop =>
    cases hq : q.toList with
    | nil =>
      rw [ask_pop_nil hq]
      exact h.skip rfl rfl
    | cons a l =>
      obtain ⟨r, hr, hlist⟩ := ask_pop_cons hq
      rw [InOrder, hq] at h
      rw [hr, InOrder, hlist]
      exact h.leave rfl rfl

theorem ofList_eq (l : List α) : ofList l = (askAll ask empty (l.map .push)).2 := by
  induction l using List.reverseRecOn with
  | nil => rfl
  | append_singleton l a ih =>
    rw [List.map_append, List.map_singleton, askAll_concat, ← ih]
    exact congrArg mk (List.foldl_concat ..)

/-- A queue and its marks after a history, and what each request would do next. -/
structure Exact (history : List (QueueRequest α × QueueAnswer α)) (q : WorkQueue α)
    (m : MarkedQueue α) : Prop where
  nodup : q.toList.Nodup
  /-- The list and the marks are those of the queue, and answer as it does. -/
  shows : m.Shows q
  answers : ∀ r, (m.ask r).1 = (q.ask r).1
  contains : ∀ a, q.ask (.contains a) = (.truth (decide (a ∈ q.toList)), q)
  push_waiting : ∀ a, a ∈ q.toList → q.ask (.push a) = (.truth false, q)
  push_new : ∀ a, a ∉ q.toList →
    ∃ r, q.ask (.push a) = (.truth true, r) ∧ r.toList = q.toList ++ [a]
  pop_nothing : q.toList = [] → q.ask .pop = (.nothing, q) ∧ m.ask .pop = (.nothing, m)
  pop_item : ∀ a l, q.toList = a :: l → ∃ r, q.ask .pop = (.item a, r) ∧ r.toList = l
  /-- Each push that queued its item belongs to one later pop, or its item still waits. -/
  inOrder : InOrder history q

/-- Whatever list a queue begins with and whatever it is asked, no item waits twice, none is lost
and all come out in order. The items of the first list are pushed before anything is asked. -/
theorem queue_exact (items : List α) (rs : List (QueueRequest α)) :
    let marked := askAll MarkedQueue.ask .empty (items.map .push ++ rs)
    Exact marked.1 (askAll ask (ofList items) rs).2 marked.2 := by
  intro marked
  have hstate : (askAll ask (ofList items) rs).2 = (askAll ask empty (items.map .push ++ rs)).2 := by
    rw [askAll_append, ofList_eq]
  have hmarked : marked.1 = (askAll ask empty (items.map .push ++ rs)).1 ∧
      marked.2.Shows (askAll ask empty (items.map .push ++ rs)).2 :=
    askAll_simulation MarkedQueue.shows_empty (fun _ _ r h => h.ask r) _
  have horder : InOrder (askAll ask empty (items.map .push ++ rs)).1
      (askAll ask empty (items.map .push ++ rs)).2 :=
    askAll_induction _ inOrder_empty fun _ _ r _ h => InOrder.ask h r
  rw [← hmarked.1, ← hstate] at horder
  have hshows := hstate ▸ hmarked.2
  exact {
    nodup := nodup_toList _
    shows := hshows
    answers r := (hshows.ask r).1
    contains := ask_contains _
    push_waiting _ := ask_push_of_mem
    push_new _ := ask_push_of_not_mem
    pop_nothing hnil := by
      refine ⟨ask_pop_nil hnil, ?_⟩
      have hitems := hshows.items.trans hnil
      simp only [MarkedQueue.ask, hitems]
    pop_item _ _ := ask_pop_cons
    inOrder := horder }

/-- An item that was popped may wait again, behind the others. -/
example : (askAll MarkedQueue.ask .empty [.push 1, .push 2, .push 1, .pop, .push 1]).2.items =
    [2, 1] := by decide

end WorkQueue

end ObjectFlow
