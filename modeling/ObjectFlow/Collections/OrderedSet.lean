/-!
# Sets in insertion order

A finite set that lists its members in the order in which they were first
added. Adding a member again changes nothing, so the list never repeats one.
-/

namespace ObjectFlow

/-- A finite set, listed in the order in which its members were added. -/
@[ext]
structure OrderedSet (α : Type) where
  toList : List α
  nodup : toList.Nodup

namespace OrderedSet

variable {α : Type}

/-- The set without members. -/
def empty : OrderedSet α := ⟨[], List.nodup_nil⟩

instance : EmptyCollection (OrderedSet α) := ⟨empty⟩
instance : Inhabited (OrderedSet α) := ⟨empty⟩
instance : Membership α (OrderedSet α) := ⟨fun s a => a ∈ s.toList⟩

/-- The set with one member. -/
def singleton (a : α) : OrderedSet α := ⟨[a], by simp⟩

/-- The number of members. -/
def size (s : OrderedSet α) : Nat := s.toList.length

def isEmpty (s : OrderedSet α) : Bool := s.toList.isEmpty

theorem mem_iff {s : OrderedSet α} {a : α} : a ∈ s ↔ a ∈ s.toList := Iff.rfl

@[simp] theorem toList_empty : (∅ : OrderedSet α).toList = [] := rfl

@[simp] theorem not_mem_empty (a : α) : a ∉ (∅ : OrderedSet α) := List.not_mem_nil

@[simp] theorem mem_singleton {a b : α} : a ∈ singleton b ↔ a = b := List.mem_singleton

/-- The members that satisfy a test. -/
def filter (s : OrderedSet α) (p : α → Bool) : OrderedSet α :=
  ⟨s.toList.filter p, List.Pairwise.filter p s.nodup⟩

@[simp] theorem mem_filter {s : OrderedSet α} {p : α → Bool} {a : α} :
    a ∈ s.filter p ↔ a ∈ s ∧ p a = true := List.mem_filter

variable [DecidableEq α]

instance : DecidableEq (OrderedSet α) := fun s t =>
  decidable_of_iff (s.toList = t.toList) OrderedSet.ext_iff.symm

instance (a : α) (s : OrderedSet α) : Decidable (a ∈ s) :=
  inferInstanceAs (Decidable (a ∈ s.toList))

/-- Adds a member at the end, unless it is there already. -/
def insert (s : OrderedSet α) (a : α) : OrderedSet α :=
  if h : a ∈ s.toList then s
  else ⟨s.toList ++ [a], by
    refine List.nodup_append.2 ⟨s.nodup, by simp, ?_⟩
    intro b hb c hc
    rw [List.mem_singleton.1 hc]
    exact fun hbc => h (hbc ▸ hb)⟩

/-- Adds the members of a list, in order. -/
def insertAll (s : OrderedSet α) (l : List α) : OrderedSet α := l.foldl insert s

/-- The members of a list, each at its first place. -/
def ofList (l : List α) : OrderedSet α := (∅ : OrderedSet α).insertAll l

/-- Adds every member of `t`. -/
def union (s t : OrderedSet α) : OrderedSet α := s.insertAll t.toList

/-- The members of `t` that `s` lacks, in the order of `t`. -/
def missing (s t : OrderedSet α) : OrderedSet α := t.filter fun a => decide (a ∉ s)

/-- The place of a member, counted from zero. -/
def index? (s : OrderedSet α) (a : α) : Option Nat := s.toList.findIdx? (· = a)

theorem toList_insert (s : OrderedSet α) (a : α) :
    (s.insert a).toList = if a ∈ s then s.toList else s.toList ++ [a] := by
  by_cases h : a ∈ s.toList
  · simp [insert, mem_iff, h]
  · simp [insert, mem_iff, h]

@[simp] theorem mem_insert {s : OrderedSet α} {a b : α} : a ∈ s.insert b ↔ a ∈ s ∨ a = b := by
  rw [mem_iff, toList_insert]
  split
  · rename_i h
    exact ⟨Or.inl, fun hab => hab.elim id fun e => e ▸ h⟩
  · simp [mem_iff]

theorem insert_of_mem {s : OrderedSet α} {a : α} (h : a ∈ s) : s.insert a = s := by
  ext1
  simp [toList_insert, h]

@[simp] theorem mem_insertAll {l : List α} {s : OrderedSet α} {a : α} :
    a ∈ s.insertAll l ↔ a ∈ s ∨ a ∈ l := by
  induction l generalizing s with
  | nil => simp [insertAll]
  | cons b l ih => simp [insertAll, ← or_assoc] at ih ⊢; simp [ih]

@[simp] theorem mem_ofList {l : List α} {a : α} : a ∈ ofList l ↔ a ∈ l := by simp [ofList]

@[simp] theorem mem_union {s t : OrderedSet α} {a : α} : a ∈ s.union t ↔ a ∈ s ∨ a ∈ t :=
  mem_insertAll

@[simp] theorem mem_missing {s t : OrderedSet α} {a : α} : a ∈ s.missing t ↔ a ∈ t ∧ a ∉ s := by
  simp [missing]

end OrderedSet

end ObjectFlow
