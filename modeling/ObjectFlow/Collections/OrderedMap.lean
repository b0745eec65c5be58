/-!
# Maps in insertion order

A finite map that lists its entries in the order in which their keys were first
bound. Binding a key again changes its value in place; a key that was erased
goes to the end when it is bound anew.
-/

namespace ObjectFlow

/-- A finite map, listed in the order in which its keys were bound. -/
@[ext]
structure OrderedMap (κ ν : Type) where
  entries : List (κ × ν)
  nodup : (entries.map Prod.fst).Nodup

namespace OrderedMap

variable {κ ν : Type}

/-- The map without entries. -/
def empty : OrderedMap κ ν := ⟨[], List.nodup_nil⟩

instance : EmptyCollection (OrderedMap κ ν) := ⟨empty⟩
instance : Inhabited (OrderedMap κ ν) := ⟨empty⟩

def keys (m : OrderedMap κ ν) : List κ := m.entries.map Prod.fst

def values (m : OrderedMap κ ν) : List ν := m.entries.map Prod.snd

/-- The number of entries. -/
def size (m : OrderedMap κ ν) : Nat := m.entries.length

def isEmpty (m : OrderedMap κ ν) : Bool := m.entries.isEmpty

/-- The oldest entry and the map without it. -/
def pop? (m : OrderedMap κ ν) : Option ((κ × ν) × OrderedMap κ ν) :=
  match m with
  | ⟨[], _⟩ => none
  | ⟨e :: es, h⟩ => some (e, ⟨es, (List.nodup_cons.1 h).2⟩)

variable [DecidableEq κ]

/-- The value bound to a key. -/
def get? (m : OrderedMap κ ν) (k : κ) : Option ν :=
  (m.entries.find? fun e => decide (e.1 = k)).map Prod.snd

def getD (m : OrderedMap κ ν) (k : κ) (v : ν) : ν := (m.get? k).getD v

def contains (m : OrderedMap κ ν) (k : κ) : Bool := (m.get? k).isSome

/-- The entries of a list with the value of one key replaced. -/
def replace (k : κ) (v : ν) (es : List (κ × ν)) : List (κ × ν) :=
  es.map fun e => if e.1 = k then (k, v) else e

theorem map_fst_replace (k : κ) (v : ν) (es : List (κ × ν)) :
    (replace k v es).map Prod.fst = es.map Prod.fst := by
  simp only [replace, List.map_map]
  refine List.map_congr_left fun e _ => ?_
  simp only [Function.comp]
  split
  · rename_i h
    exact h.symm
  · rfl

/-- Binds a key: in place if it is bound already, at the end otherwise. -/
def insert (m : OrderedMap κ ν) (k : κ) (v : ν) : OrderedMap κ ν :=
  if h : k ∈ m.entries.map Prod.fst then
    ⟨replace k v m.entries, by rw [map_fst_replace]; exact m.nodup⟩
  else
    ⟨m.entries ++ [(k, v)], by
      rw [List.map_append]
      refine List.nodup_append.2 ⟨m.nodup, by simp, ?_⟩
      intro a ha b hb
      have hbk : b = k := by simpa using hb
      rw [hbk]
      exact fun hak => h (hak ▸ ha)⟩

/-- Unbinds a key. -/
def erase (m : OrderedMap κ ν) (k : κ) : OrderedMap κ ν :=
  ⟨m.entries.filter fun e => decide (e.1 ≠ k),
    List.Pairwise.sublist (List.filter_sublist.map Prod.fst) m.nodup⟩

/-- Binds the pairs of a list, in order. -/
def insertAll (m : OrderedMap κ ν) (l : List (κ × ν)) : OrderedMap κ ν :=
  l.foldl (fun m e => m.insert e.1 e.2) m

/-- The pairs of a list: a key keeps its first place and its last value. -/
def ofList (l : List (κ × ν)) : OrderedMap κ ν := (∅ : OrderedMap κ ν).insertAll l

/-- The same keys with the same values, in whatever order. -/
def sameAs [DecidableEq ν] (m n : OrderedMap κ ν) : Bool :=
  decide (m.size = n.size) && m.entries.all fun e => decide (n.get? e.1 = some e.2)

/-! ## Lookup after each operation -/

@[simp] theorem get?_empty (k : κ) : (∅ : OrderedMap κ ν).get? k = none := rfl

theorem get?_eq_none_iff {m : OrderedMap κ ν} {k : κ} : m.get? k = none ↔ k ∉ m.keys := by
  simp only [get?, keys, Option.map_eq_none_iff, List.find?_eq_none, decide_eq_true_eq,
    List.mem_map, Prod.exists, exists_and_right, exists_eq_right, not_exists]
  exact ⟨fun h v hv => h (k, v) hv rfl, fun h e he hek => h e.2 (hek ▸ he)⟩

theorem find?_replace (k : κ) (v : ν) (j : κ) (es : List (κ × ν)) :
    (replace k v es).find? (fun e => decide (e.1 = j)) =
      if j = k then (es.find? fun e => decide (e.1 = k)).map fun _ => (k, v)
      else es.find? fun e => decide (e.1 = j) := by
  induction es with
  | nil => simp [replace]
  | cons e es ih =>
    simp only [replace, List.map_cons, List.find?_cons] at ih ⊢
    by_cases hek : e.1 = k
    · by_cases hjk : j = k
      · simp [hek, hjk]
      · have hkj : ¬ k = j := fun h => hjk h.symm
        simp only [hek, if_true, hkj, decide_false, hjk, if_false]
        simpa [hjk] using ih
    · by_cases hej : e.1 = j
      · have hjk : ¬ j = k := fun h => hek (hej.trans h)
        simp [hej, hjk]
      · simp only [hek, if_false, hej, decide_false]
        rw [ih]

@[simp] theorem get?_insert (m : OrderedMap κ ν) (k : κ) (v : ν) (j : κ) :
    (m.insert k v).get? j = if j = k then some v else m.get? j := by
  by_cases h : k ∈ m.entries.map Prod.fst
  · simp only [insert, h, dite_true, get?, find?_replace]
    split
    · obtain ⟨e, he, hek⟩ := List.mem_map.1 h
      have : (m.entries.find? fun e => decide (e.1 = k)).isSome := by
        rw [List.find?_isSome]
        exact ⟨e, he, by simp [hek]⟩
      obtain ⟨a, ha⟩ := Option.isSome_iff_exists.1 this
      simp [ha]
    · rfl
  · simp only [insert, h, dite_false, get?, List.find?_append]
    by_cases hjk : j = k
    · subst hjk
      have : m.entries.find? (fun e => decide (e.1 = j)) = none := by
        rw [List.find?_eq_none]
        exact fun e he hej => h (List.mem_map.2 ⟨e, he, by simpa using hej⟩)
      simp [this]
    · have hkj : ¬ k = j := fun h => hjk h.symm
      simp [hjk, hkj]

@[simp] theorem get?_erase (m : OrderedMap κ ν) (k j : κ) :
    (m.erase k).get? j = if j = k then none else m.get? j := by
  simp only [erase, get?, List.find?_filter]
  by_cases hjk : j = k
  · subst hjk
    simp
  · simp only [hjk, if_false]
    congr 1
    refine congrArg (fun p => List.find? p m.entries) (funext fun e => ?_)
    by_cases hej : e.1 = j
    · simp [hej, hjk]
    · simp [hej]

end OrderedMap

end ObjectFlow
