import ObjectFlow.Proofs.Containers
import ObjectFlow.Proofs.ElementNumbers
import ObjectFlow.Proofs.Histories
/-!
# One object for each element

Elements are objects that are asked for by their keys. Equal keys are one object, which is made
when it is first asked for and keeps its key, its number and the method that contains it. A
call site brings this method while it is being made itself. The numbers are those that a
manager gives, so elements may be compared as objects.
-/

namespace ObjectFlow

namespace PointsTo

/-! ## Keys -/

/-- What an element is asked for by. The base of a field and an array are themselves elements, and
stand in the key as the objects that they are. -/
inductive ElementKey where
  | var (c : Ctx) (v : Option Var)
  | staticField (f : Field)
  | instanceField (base : Nat) (f : Field)
  | arrayIndex (array : Nat)
  | object (o : CtxObject)
  | method (m : CtxMethod)
  | callSite (s : CtxCallSite)
deriving DecidableEq

namespace ElementKey

def kind : ElementKey → ElementKind
  | var _ _ => .var
  | staticField _ => .staticField
  | instanceField _ _ => .instanceField
  | arrayIndex _ => .arrayIndex
  | object _ => .object
  | method _ => .method
  | callSite _ => .callSite

/-- The method that a call site brings. -/
def container? : ElementKey → Option ElementKey
  | callSite s => some (.method s.container)
  | _ => none

/-- The set that a new element has: pointers alone have one. -/
def set? : ElementKey → Option (PointsToSet Nat)
  | object _ | method _ | callSite _ => none
  | _ => some ∅

/-- The element that a key stands for, where objects are known by what they are. -/
def meaning? (object? : Nat → Option CtxObject) : ElementKey → Option Element
  | var c v => some (.pointer (.var c v))
  | staticField f => some (.pointer (.staticField f))
  | instanceField b f => (object? b).map fun o => .pointer (.instanceField o f)
  | arrayIndex a => (object? a).map fun o => .pointer (.arrayIndex o)
  | object o => some (.object o)
  | method m => some (.method m)
  | callSite s => some (.callSite s)

/-- What asking for an element can add to the elements of a kind. -/
def brings (k : ElementKey) (κ : ElementKind) : Option ElementKey :=
  if k.kind = κ then some k else k.container?.filter fun m => decide (m.kind = κ)

variable {k m : ElementKey} {κ : ElementKind}

theorem kind_ne_of_container? (h : k.container? = some m) : m.kind ≠ k.kind := by
  cases k <;> cases h
  exact nofun

theorem container?_of_container? (h : k.container? = some m) : m.container? = none := by
  cases k <;> cases h
  rfl

theorem brings_of_alone (h : k.container? = none) (κ : ElementKind) :
    k.brings κ = if k.kind = κ then some k else none := by
  rw [brings, h, Option.filter_none]

theorem brings_of_container? (h : k.container? = some m) (hκ : k.kind ≠ κ) :
    k.brings κ = m.brings κ := by
  rw [brings, if_neg hκ, h, brings_of_alone (container?_of_container? h), Option.filter_some]
  simp only [decide_eq_true_eq]

theorem of_brings {j : ElementKey} (h : k.brings κ = some j) :
    j.kind = κ ∧ (j = k ∨ k.container? = some j) := by
  unfold brings at h
  split at h
  · rename_i hκ
    obtain rfl := Option.some.inj h
    exact ⟨hκ, .inl rfl⟩
  · obtain ⟨hm, hκ⟩ := Option.filter_eq_some_iff.1 h
    exact ⟨of_decide_eq_true hκ, .inr hm⟩

variable {object? : Nat → Option CtxObject} {e : Element}

theorem kind_of_meaning? (h : k.meaning? object? = some e) : e.kind = k.kind := by
  cases k with
  | instanceField b f =>
    obtain ⟨o, -, rfl⟩ := Option.map_eq_some_iff.1 h
    rfl
  | arrayIndex a =>
    obtain ⟨o, -, rfl⟩ := Option.map_eq_some_iff.1 h
    rfl
  | _ =>
    cases h
    rfl

/-- Keys that stand for one element are equal if no object is there twice. -/
theorem faithful_meaning? (ho : Faithful object?) : Faithful (meaning? object?) := by
  intro k j e hk hj
  have hkind := (kind_of_meaning? hk).symm.trans (kind_of_meaning? hj)
  cases k with
  | instanceField b f =>
    cases j <;> cases hkind
    obtain ⟨o, hb, rfl⟩ := Option.map_eq_some_iff.1 hk
    obtain ⟨o', hb', heq⟩ := Option.map_eq_some_iff.1 hj
    cases heq
    rw [ho b _ o hb hb']
  | arrayIndex a =>
    cases j <;> cases hkind
    obtain ⟨o, ha, rfl⟩ := Option.map_eq_some_iff.1 hk
    obtain ⟨o', ha', heq⟩ := Option.map_eq_some_iff.1 hj
    cases heq
    rw [ho a _ o ha ha']
  | _ =>
    cases j <;> cases hkind
    cases hk
    cases hj
    rfl

/-- A key brings what its element brings. -/
theorem meaning?_brings (object? : Nat → Option CtxObject) (k : ElementKey) (κ : ElementKind) :
    (k.brings κ).bind (meaning? object?) = (k.meaning? object?).bind (·.brings κ) := by
  by_cases hκ : k.kind = κ
  · rw [brings, if_pos hκ, Option.bind_some]
    cases he : k.meaning? object? with
    | none => rfl
    | some e => exact (if_pos ((kind_of_meaning? he).trans hκ)).symm
  · rw [brings, if_neg hκ]
    cases k with
    | callSite s => cases κ <;> first | rfl | exact absurd rfl hκ
    | instanceField b f =>
      show none = ((object? b).map _).bind _
      cases object? b with
      | none => rfl
      | some o => exact (if_neg hκ).symm
    | arrayIndex a =>
      show none = ((object? a).map _).bind _
      cases object? a with
      | none => rfl
      | some o => exact (if_neg hκ).symm
    | _ => exact (if_neg hκ).symm

end ElementKey

/-! ## Elements as objects -/

structure ElementRecord where
  key : ElementKey
  index : Nat
  container : Option Nat

/-- The elements in the order in which they were made, with a table of them for each kind. The sets
of pointers change when objects are found. -/
structure ElementStore where
  elements : List ElementRecord
  table : ElementKind → OrderedMap ElementKey Nat
  sets : Nat → Option (PointsToSet Nat)

inductive ElementRequest where
  | get (k : ElementKey)
  | find (k : ElementKey)
  /-- A pointer takes objects. -/
  | fill (h : Nat) (objs : PointsToSet Nat)

namespace ElementStore

def empty : ElementStore := ⟨[], fun _ => ∅, fun _ => none⟩

def find? (s : ElementStore) (k : ElementKey) : Option Nat := (s.table k.kind).get? k

def ofKind (s : ElementStore) (κ : ElementKind) : List ElementRecord :=
  s.elements.filter fun r => decide (r.key.kind = κ)

def key? (s : ElementStore) (h : Nat) : Option ElementKey := s.elements[h]?.map (·.key)

def index? (s : ElementStore) (h : Nat) : Option Nat := s.elements[h]?.map (·.index)

/-- A new element stands last, and in the table of its kind. -/
def enter (s : ElementStore) (k : ElementKey) (index : Nat) (container : Option Nat) :
    Nat × ElementStore :=
  (s.elements.length,
    { elements := s.elements ++ [⟨k, index, container⟩]
      table := Function.update s.table k.kind ((s.table k.kind).insert k s.elements.length)
      sets := Function.update s.sets s.elements.length k.set? })

/-- Asks for an element that brings no other. -/
def getAlone (s : ElementStore) (k : ElementKey) : Nat × ElementStore :=
  match s.find? k with
  | some h => (h, s)
  | none => s.enter k (s.table k.kind).size none

/-- A new element has its number before it asks for its container, and enters its table after. -/
def get (s : ElementStore) (k : ElementKey) : Nat × ElementStore :=
  match s.find? k with
  | some h => (h, s)
  | none =>
    match k.container? with
    | none => s.enter k (s.table k.kind).size none
    | some m => (s.getAlone m).2.enter k (s.table k.kind).size (some (s.getAlone m).1)

def fill (s : ElementStore) (h : Nat) (objs : PointsToSet Nat) : ElementStore :=
  { s with sets := Function.update s.sets h ((s.sets h).map (·.union objs)) }

def ask (s : ElementStore) : ElementRequest → Option Nat × ElementStore
  | .get k => (some (s.get k).1, (s.get k).2)
  | .find k => (s.find? k, s)
  | .fill h objs => (none, s.fill h objs)

/-! ## What the tables say -/

/-- The tables hold the elements that there are, each with its number among those of its kind. -/
structure Sound (s : ElementStore) : Prop where
  found : ∀ k h, s.find? k = some h ↔ s.key? h = some k
  keys : ∀ κ, (s.table κ).keys = (s.ofKind κ).map (·.key)
  indexes : ∀ κ, (s.ofKind κ).map (·.index) = List.range (s.ofKind κ).length
  contained : ∀ r ∈ s.elements, ∀ m, r.key.container? = some m →
    ∃ h, r.container = some h ∧ s.find? m = some h

variable {s t : ElementStore} {k m : ElementKey} {h index : Nat} {container : Option Nat}

theorem sound_empty : Sound empty := by
  refine ⟨fun k h => ?_, fun _ => rfl, fun _ => rfl, fun r hr => absurd hr List.not_mem_nil⟩
  show (∅ : OrderedMap ElementKey Nat).get? k = some h ↔ (none : Option ElementKey) = some k
  rw [OrderedMap.get?_empty]
  exact iff_of_false nofun nofun

theorem find?_eq_none_iff : s.find? k = none ↔ k ∉ (s.table k.kind).keys :=
  OrderedMap.get?_eq_none_iff

theorem mem_keys_of_find? (hk : s.find? k = some h) : k ∈ (s.table k.kind).keys :=
  OrderedMap.mem_keys_iff.2 ⟨h, hk⟩

theorem find?_enter (s : ElementStore) (k j : ElementKey) (index : Nat) (container : Option Nat) :
    (s.enter k index container).2.find? j =
      if j = k then some s.elements.length else s.find? j := by
  show (Function.update s.table k.kind _ j.kind).get? j = _
  by_cases hkind : j.kind = k.kind
  · rw [hkind, Function.update_self, OrderedMap.get?_insert, find?, hkind]
  · have hne : j ≠ k := fun hjk => hkind (congrArg ElementKey.kind hjk)
    rw [Function.update_of_ne hkind, if_neg hne, find?]

theorem find?_enter_self (s : ElementStore) (k : ElementKey) (index : Nat)
    (container : Option Nat) : (s.enter k index container).2.find? k = some s.elements.length := by
  rw [find?_enter, if_pos rfl]

theorem sets_enter (hh : h < s.elements.length) :
    (s.enter k index container).2.sets h = s.sets h :=
  Function.update_of_ne (Nat.ne_of_lt hh) ..

theorem key?_enter (s : ElementStore) (k : ElementKey) (index : Nat) (container : Option Nat)
    (a : Nat) : (s.enter k index container).2.key? a =
      if a = s.elements.length then some k else s.key? a := by
  show (s.elements ++ [_])[a]?.map _ = _
  split
  · rename_i ha
    rw [ha, List.getElem?_concat_length, Option.map_some]
  · rename_i ha
    rcases Nat.lt_or_gt_of_ne ha with hlt | hgt
    · rw [List.getElem?_append_left hlt, key?]
    · rw [key?, List.getElem?_eq_none (Nat.le_of_lt hgt), List.getElem?_eq_none]
      rw [List.length_append]
      exact hgt

theorem keys_enter (s : ElementStore) (k : ElementKey) (index : Nat) (container : Option Nat)
    (κ : ElementKind) : ((s.enter k index container).2.table κ).keys =
      grown (s.table κ).keys (if k.kind = κ then some k else none) := by
  show (Function.update s.table k.kind _ κ).keys = _
  by_cases hκ : k.kind = κ
  · rw [if_pos hκ, ← hκ, Function.update_self]
    exact OrderedMap.keys_insert ..
  · rw [Function.update_of_ne (Ne.symm hκ), if_neg hκ]
    rfl

theorem ofKind_enter (s : ElementStore) (k : ElementKey) (index : Nat) (container : Option Nat)
    (κ : ElementKind) : (s.enter k index container).2.ofKind κ =
      s.ofKind κ ++ if k.kind = κ then [⟨k, index, container⟩] else [] := by
  show List.filter _ (s.elements ++ [_]) = _
  rw [List.filter_append, List.filter_singleton]
  by_cases hκ : k.kind = κ <;> simp [hκ, ofKind]

theorem key?_length (s : ElementStore) : s.key? s.elements.length = none := by
  rw [key?, List.getElem?_eq_none (Nat.le_refl _), Option.map_none]

theorem length_keys (s : ElementStore) (κ : ElementKind) :
    (s.table κ).keys.length = (s.table κ).size := List.length_map ..

theorem Sound.size_table (hs : s.Sound) (κ : ElementKind) :
    (s.table κ).size = (s.ofKind κ).length := by
  rw [← length_keys, hs.keys, List.length_map]

theorem Sound.enter (hs : s.Sound) (hk : s.find? k = none)
    (hc : ∀ m, k.container? = some m → ∃ h, container = some h ∧ s.find? m = some h) :
    (s.enter k (s.table k.kind).size container).2.Sound := by
  have hfind : ∀ {j a}, s.find? j = some a →
      (s.enter k (s.table k.kind).size container).2.find? j = some a := fun {j a} hj => by
    rw [find?_enter, if_neg, hj]
    rintro rfl
    rw [hj] at hk
    cases hk
  refine ⟨fun j a => ?_, fun κ => ?_, fun κ => ?_, fun r hr m hm => ?_⟩
  · rw [find?_enter, key?_enter]
    by_cases hj : j = k <;> by_cases ha : a = s.elements.length
    · rw [if_pos hj, if_pos ha, hj, ha]
      exact iff_of_true rfl rfl
    · rw [if_pos hj, if_neg ha, ← hs.found, hj, hk]
      exact iff_of_false (fun h => ha (Option.some.inj h).symm) nofun
    · rw [if_neg hj, if_pos ha, hs.found, ha, key?_length]
      exact iff_of_false nofun fun h => hj (Option.some.inj h).symm
    · rw [if_neg hj, if_neg ha]
      exact hs.found j a
  · rw [keys_enter, ofKind_enter, List.map_append, ← hs.keys]
    split
    · rename_i hκ
      exact grown_of_not_mem (hκ ▸ find?_eq_none_iff.1 hk)
    · exact (List.append_nil _).symm
  · rw [ofKind_enter, List.map_append, hs.indexes, List.length_append]
    by_cases hκ : k.kind = κ
    · rw [if_pos hκ, List.length_singleton, List.range_succ, ← hκ, ← hs.size_table]
      rfl
    · rw [if_neg hκ, List.map_nil, List.append_nil, List.length_nil, Nat.add_zero]
  · rcases List.mem_append.1 hr with hr | hr
    · obtain ⟨a, ha, hm⟩ := hs.contained r hr m hm
      exact ⟨a, ha, hfind hm⟩
    · obtain rfl := List.mem_singleton.1 hr
      obtain ⟨a, ha, hm⟩ := hc m hm
      exact ⟨a, ha, hfind hm⟩

/-! ## What a request does -/

/-- A key was answered with its element: the elements that there were have been kept, and at most
the element and its container are new. -/
structure Gives (s : ElementStore) (k : ElementKey) (a : Nat) (t : ElementStore) : Prop where
  sound : t.Sound
  found : t.find? k = some a
  elements : s.elements <+: t.elements
  sets : ∀ h, h < s.elements.length → t.sets h = s.sets h
  keys : ∀ κ, (t.table κ).keys = grown (s.table κ).keys (k.brings κ)

theorem get_of_find? (hk : s.find? k = some h) : s.get k = (h, s) := by
  simp only [get, hk]

theorem getAlone_of_find? (hk : s.find? k = some h) : s.getAlone k = (h, s) := by
  simp only [getAlone, hk]

theorem getAlone_of_new (hk : s.find? k = none) :
    s.getAlone k = s.enter k (s.table k.kind).size none := by
  simp only [getAlone, hk]

theorem get_of_alone (hk : k.container? = none) : s.get k = s.getAlone k := by
  cases hfind : s.find? k with
  | some h => rw [get_of_find? hfind, getAlone_of_find? hfind]
  | none => simp only [get, getAlone, hfind, hk]

theorem get_of_container? (hk : s.find? k = none) (hm : k.container? = some m) :
    s.get k = (s.getAlone m).2.enter k (s.table k.kind).size (some (s.getAlone m).1) := by
  simp only [get, hk, hm]

/-- An element is found together with its container. -/
theorem Sound.find?_container (hs : s.Sound) (hk : s.find? k = some h)
    (hm : k.container? = some m) : ∃ a, s.find? m = some a := by
  obtain ⟨r, hr, rfl⟩ := Option.map_eq_some_iff.1 ((hs.found k h).1 hk)
  obtain ⟨a, -, ha⟩ := hs.contained r (List.mem_of_getElem? hr) m hm
  exact ⟨a, ha⟩

theorem Gives.again (hs : s.Sound) (hk : s.find? k = some h) : s.Gives k h s := by
  refine ⟨hs, hk, List.prefix_rfl, fun _ _ => rfl, fun κ => ?_⟩
  cases hj : k.brings κ with
  | none => rfl
  | some j =>
    obtain ⟨rfl, rfl | hm⟩ := ElementKey.of_brings hj
    · exact (grown_of_mem (mem_keys_of_find? hk)).symm
    · obtain ⟨a, ha⟩ := hs.find?_container hk hm
      exact (grown_of_mem (mem_keys_of_find? ha)).symm

theorem Sound.getAlone (hs : s.Sound) (hk : k.container? = none) :
    s.Gives k (s.getAlone k).1 (s.getAlone k).2 := by
  cases hfind : s.find? k with
  | some h =>
    rw [getAlone_of_find? hfind]
    exact .again hs hfind
  | none =>
    rw [getAlone_of_new hfind]
    refine ⟨hs.enter hfind fun m hm => ?_, find?_enter_self .., List.prefix_append .., ?_, ?_⟩
    · rw [hk] at hm
      cases hm
    · exact fun h hh => sets_enter hh
    · intro κ
      rw [keys_enter, ElementKey.brings_of_alone hk]

/-- An element whose container has been asked for can be made. -/
theorem Gives.enter {a : Nat} (ht : s.Gives m a t) (hm : k.container? = some m)
    (hk : s.find? k = none) :
    s.Gives k t.elements.length (t.enter k (s.table k.kind).size (some a)).2 := by
  have hkind := ElementKey.kind_ne_of_container? hm
  have hother : m.brings k.kind = none := by
    rw [ElementKey.brings_of_alone (ElementKey.container?_of_container? hm), if_neg hkind]
  have hkeys : (t.table k.kind).keys = (s.table k.kind).keys := by
    rw [ht.keys, hother]
    rfl
  have hnew : t.find? k = none := by
    rw [find?_eq_none_iff, hkeys]
    exact find?_eq_none_iff.1 hk
  have hsize : (s.table k.kind).size = (t.table k.kind).size := by
    rw [← length_keys, ← length_keys, hkeys]
  refine ⟨?_, find?_enter_self .., ht.elements.trans (List.prefix_append ..), fun h hh => ?_,
    fun κ => ?_⟩
  · rw [hsize]
    refine ht.sound.enter hnew fun m' hm' => ⟨a, rfl, ?_⟩
    obtain rfl := Option.some.inj (hm.symm.trans hm')
    exact ht.found
  · rw [sets_enter (Nat.lt_of_lt_of_le hh ht.elements.length_le), ht.sets h hh]
  · rw [keys_enter]
    by_cases hκ : k.kind = κ
    · rw [if_pos hκ, ← hκ, hkeys, ElementKey.brings, if_pos rfl]
    · rw [if_neg hκ, ElementKey.brings_of_container? hm hκ, ← ht.keys]
      rfl

theorem Sound.get (hs : s.Sound) (k : ElementKey) : s.Gives k (s.get k).1 (s.get k).2 := by
  cases hfind : s.find? k with
  | some h =>
    rw [get_of_find? hfind]
    exact .again hs hfind
  | none =>
    cases hm : k.container? with
    | none =>
      rw [get_of_alone hm]
      exact hs.getAlone hm
    | some m =>
      rw [get_of_container? hfind hm]
      exact (hs.getAlone (ElementKey.container?_of_container? hm)).enter hm hfind

/-- What was found is found again. -/
theorem Sound.find?_of_prefix (hs : s.Sound) (ht : t.Sound) (hkept : s.elements <+: t.elements)
    (hk : s.find? k = some h) : t.find? k = some h := by
  obtain ⟨r, hr, rfl⟩ := Option.map_eq_some_iff.1 ((hs.found k h).1 hk)
  obtain ⟨rest, hrest⟩ := hkept
  rw [ht.found, key?, ← hrest, List.getElem?_append_left (List.getElem?_eq_some_iff.1 hr).1, hr,
    Option.map_some]

/-! ## Histories of elements -/

/-- The keys that were asked for. -/
def asked (history : List (ElementRequest × Option Nat)) : List ElementKey :=
  history.filterMap fun e => match e.1 with
    | .get k => some k
    | _ => none

/-- The element was asked for, or a call site that it contains. -/
def Made (history : List (ElementRequest × Option Nat)) (k : ElementKey) : Prop :=
  ∃ j ∈ asked history, j = k ∨ j.container? = some k

/-- The tables have what was asked for. -/
structure Recorded (history : List (ElementRequest × Option Nat)) (s : ElementStore) : Prop where
  sound : s.Sound
  keys : ∀ κ, (s.table κ).keys = collected (·.brings κ) (asked history)
  got : ∀ k a, (.get k, a) ∈ history → ∃ h, a = some h ∧ s.find? k = some h

variable {history : List (ElementRequest × Option Nat)}

theorem recorded_empty : Recorded [] empty :=
  ⟨sound_empty, fun _ => rfl, fun _ _ h => absurd h List.not_mem_nil⟩

theorem Sound.fill (hs : s.Sound) (h : Nat) (objs : PointsToSet Nat) : (s.fill h objs).Sound :=
  ⟨hs.found, hs.keys, hs.indexes, hs.contained⟩

theorem asked_concat (history : List (ElementRequest × Option Nat)) (r : ElementRequest)
    (a : Option Nat) : asked (history ++ [(r, a)]) = asked history ++ asked [(r, a)] :=
  List.filterMap_append ..

/-- A request that asks for no element leaves the tables as they are. -/
theorem Recorded.other (hr : Recorded history s) (ht : t.Sound) (htable : t.table = s.table)
    {r : ElementRequest} {a : Option Nat} (hnot : asked [(r, a)] = []) :
    Recorded (history ++ [(r, a)]) t := by
  refine ⟨ht, fun κ => ?_, fun k b hmem => ?_⟩
  · rw [htable, asked_concat, hnot, List.append_nil, hr.keys]
  · rcases List.mem_append.1 hmem with hmem | hmem
    · rw [find?, htable]
      exact hr.got k b hmem
    · obtain ⟨rfl, -⟩ := Prod.mk.inj (List.mem_singleton.1 hmem)
      cases hnot

theorem Recorded.get (hr : Recorded history s) (k : ElementKey) :
    Recorded (history ++ [(.get k, some (s.get k).1)]) (s.get k).2 := by
  have hget := hr.sound.get k
  refine ⟨hget.sound, fun κ => ?_, fun j a hmem => ?_⟩
  · rw [hget.keys, hr.keys, asked_concat]
    exact (collected_concat ..).symm
  · rcases List.mem_append.1 hmem with hmem | hmem
    · obtain ⟨h, rfl, hj⟩ := hr.got j a hmem
      exact ⟨h, rfl, hr.sound.find?_of_prefix hget.sound hget.elements hj⟩
    · obtain ⟨hkey, rfl⟩ := Prod.mk.inj (List.mem_singleton.1 hmem)
      obtain rfl := ElementRequest.get.inj hkey
      exact ⟨_, rfl, hget.found⟩

theorem Recorded.ask (hr : Recorded history s) (r : ElementRequest) :
    Recorded (history ++ [(r, (s.ask r).1)]) (s.ask r).2 := by
  cases r with
  | get k => exact hr.get k
  | find k => exact hr.other hr.sound rfl rfl
  | fill h objs => exact hr.other (hr.sound.fill h objs) rfl rfl

theorem Recorded.eq_iff {a b : Option Nat} (hr : Recorded history s) {j : ElementKey}
    (ha : (.get k, a) ∈ history) (hb : (.get j, b) ∈ history) : a = b ↔ k = j := by
  obtain ⟨h, rfl, hk⟩ := hr.got k a ha
  obtain ⟨h', rfl, hj⟩ := hr.got j b hb
  constructor
  · intro heq
    rw [hr.sound.found] at hk hj
    exact Option.some.inj (hk.symm.trans (Option.some.inj heq ▸ hj))
  · rintro rfl
    exact hk.symm.trans hj

/-- An element is there exactly if it was asked for or brought. -/
theorem Recorded.find?_ne_none_iff (hr : Recorded history s) :
    s.find? k ≠ none ↔ Made history k := by
  rw [Ne, find?_eq_none_iff, not_not, hr.keys, mem_collected]
  constructor
  · rintro ⟨j, hj, hbrings⟩
    exact ⟨j, hj, (ElementKey.of_brings hbrings).2.imp_left Eq.symm⟩
  · rintro ⟨j, hj, rfl | hk⟩
    · exact ⟨j, hj, if_pos rfl⟩
    · refine ⟨j, hj, ?_⟩
      have hkind := ElementKey.kind_ne_of_container? hk
      rw [ElementKey.brings_of_container? hk hkind.symm, ElementKey.brings, if_pos rfl]

/-! ## Numbers -/

/-- Objects by what they are. -/
def object? (s : ElementStore) (h : Nat) : Option CtxObject :=
  (s.key? h).bind fun
    | .object o => some o
    | _ => none

/-- A manager that was asked for the same elements. -/
def managed (s : ElementStore) (history : List (ElementRequest × Option Nat)) : Manager :=
  ((asked history).filterMap (·.meaning? s.object?)).foldl Manager.intern .empty

theorem key?_of_object? {o : CtxObject} (ho : s.object? h = some o) :
    s.key? h = some (.object o) := by
  obtain ⟨k, hk, heq⟩ := Option.bind_eq_some_iff.1 ho
  cases k <;> cases heq
  exact hk

theorem Sound.faithful_object? (hs : s.Sound) : Faithful s.object? := fun a b o ha hb => by
  have hfind := (hs.found _ a).2 (key?_of_object? ha)
  exact Option.some.inj (hfind.symm.trans ((hs.found _ b).2 (key?_of_object? hb)))

theorem Recorded.listed (hr : Recorded history s) (κ : ElementKind) :
    (s.managed history).listed κ = (s.table κ).keys.filterMap (·.meaning? s.object?) := by
  rw [managed, Manager.listed_foldl, hr.keys]
  exact (filterMap_collected (ElementKey.faithful_meaning? hr.sound.faithful_object?)
    (fun k => ElementKey.meaning?_brings _ k κ) _).symm

/-- What is brought has a meaning if what is asked for has one. -/
theorem Recorded.meaning?_ne_none (hr : Recorded history s)
    (hown : ∀ k ∈ asked history, k.meaning? s.object? ≠ none) {κ : ElementKind}
    (hk : k ∈ (s.table κ).keys) : k.meaning? s.object? ≠ none := by
  rw [hr.keys] at hk
  obtain ⟨j, hj, hbrings⟩ := mem_collected.1 hk
  obtain ⟨-, rfl | hm⟩ := ElementKey.of_brings hbrings
  · exact hown k hj
  · cases j <;> cases hm
    exact nofun

theorem Sound.findIdx?_keys (hs : s.Sound) (k : ElementKey) :
    (s.table k.kind).keys.findIdx? (fun j => decide (j = k)) = (s.find? k).bind s.index? := by
  cases hk : s.find? k with
  | none =>
    refine List.findIdx?_eq_none_iff.2 fun j hj => decide_eq_false ?_
    rintro rfl
    exact find?_eq_none_iff.1 hk hj
  | some h =>
    obtain ⟨r, hr, hkey⟩ := Option.map_eq_some_iff.1 ((hs.found k h).1 hk)
    have hmem : r ∈ s.ofKind k.kind :=
      List.mem_filter.2 ⟨List.mem_of_getElem? hr, decide_eq_true (congrArg ElementKey.kind hkey)⟩
    obtain ⟨i, hi⟩ := List.mem_iff_getElem?.1 hmem
    have hindex : r.index = i := by
      have hget := congrArg (fun l : List Nat => l[i]?) (hs.indexes k.kind)
      simp only [List.getElem?_map, hi, Option.map_some] at hget
      exact (List.getElem?_eq_some_iff.1 hget.symm).2.symm.trans (List.getElem_range _)
    have hget : (s.table k.kind).keys[i]? = some k := by
      rw [hs.keys, List.getElem?_map, hi, Option.map_some, hkey]
    have hnodup : (s.table k.kind).keys.Nodup := (s.table k.kind).nodup
    rw [findIdx?_of_getElem? hnodup hget, Option.bind_some, index?, hr, Option.map_some, hindex]

/-- A manager numbers an element as its object is numbered. -/
theorem Recorded.find?_managed (hr : Recorded history s)
    (hown : ∀ k ∈ asked history, k.meaning? s.object? ≠ none) {e : Element}
    (hk : k.meaning? s.object? = some e) :
    (s.managed history).find? e = (s.find? k).bind s.index? := by
  rw [Manager.find?_eq, ElementKey.kind_of_meaning? hk, hr.listed, ← hr.sound.findIdx?_keys]
  exact findIdx?_filterMap (ElementKey.faithful_meaning? hr.sound.faithful_object?)
    (fun j hj => hr.meaning?_ne_none hown hj) hk

theorem index?_enter (s : ElementStore) (k : ElementKey) (index : Nat) (container : Option Nat) :
    (s.enter k index container).2.index? s.elements.length = some index := by
  show (s.elements ++ [_])[s.elements.length]?.map _ = _
  rw [List.getElem?_concat_length, Option.map_some]

theorem index?_get_of_new (hk : s.find? k = none) :
    (s.get k).2.index? (s.get k).1 = some (s.table k.kind).size := by
  cases hm : k.container? with
  | none =>
    rw [get_of_alone hm, getAlone_of_new hk]
    exact index?_enter ..
  | some m =>
    rw [get_of_container? hk hm]
    exact index?_enter ..

theorem Recorded.get_managed (hr : Recorded history s)
    (hown : ∀ k ∈ asked history, k.meaning? s.object? ≠ none) {e : Element}
    (hk : k.meaning? s.object? = some e) :
    (s.get k).2.index? (s.get k).1 = some ((s.managed history).get e).1 := by
  rw [Manager.get, hr.find?_managed hown hk]
  cases hfind : s.find? k with
  | some h =>
    obtain ⟨r, hrec, -⟩ := Option.map_eq_some_iff.1 ((hr.sound.found k h).1 hfind)
    rw [get_of_find? hfind, Option.bind_some, index?, hrec]
    rfl
  | none =>
    have hall : ∀ j ∈ (s.table k.kind).keys, (j.meaning? s.object?).isSome := fun j hj =>
      Option.isSome_iff_ne_none.2 (hr.meaning?_ne_none hown hj)
    rw [index?_get_of_new hfind, Manager.count_eq, ElementKey.kind_of_meaning? hk, hr.listed,
      List.filterMap_length_eq_length.2 hall, length_keys]
    rfl

/-! ## All requests -/

/-- A later store: the elements that there were are as they were, and only who was given objects
has another set. -/
structure Later (s : ElementStore) (rs : List ElementRequest) (t : ElementStore) : Prop where
  elements : s.elements <+: t.elements
  sets : ∀ h, h < s.elements.length → (∀ objs, .fill h objs ∉ rs) → t.sets h = s.sets h

theorem Sound.ask (hs : s.Sound) (r : ElementRequest) :
    (s.ask r).2.Sound ∧ s.Later [r] (s.ask r).2 := by
  cases r with
  | get k =>
    have hget := hs.get k
    exact ⟨hget.sound, hget.elements, fun h hh _ => hget.sets h hh⟩
  | find k => exact ⟨hs, List.prefix_rfl, fun _ _ _ => rfl⟩
  | fill a objs =>
    refine ⟨hs.fill a objs, List.prefix_rfl, fun h _ hnot => Function.update_of_ne ?_ ..⟩
    rintro rfl
    exact hnot objs (List.mem_singleton.2 rfl)

/-- What one request keeps, all of them keep. -/
theorem Sound.later (hs : s.Sound) (rs : List ElementRequest) :
    s.Later rs (askAll ElementStore.ask s rs).2 := by
  have hall : (askAll ElementStore.ask s rs).2.Sound ∧
      s.Later rs (askAll ElementStore.ask s rs).2 := by
    refine askAll_induction (P := fun _ (t : ElementStore) => t.Sound ∧ s.Later rs t) rs
      ⟨hs, List.prefix_rfl, fun _ _ _ => rfl⟩ fun _ t r hr ht => ?_
    obtain ⟨hsound, hlater⟩ := ht
    obtain ⟨hnext, hstep⟩ := hsound.ask r
    refine ⟨hnext, hlater.elements.trans hstep.elements, fun h hh hnot => ?_⟩
    refine (hstep.sets h ?_ fun objs hmem => ?_).trans (hlater.sets h hh hnot)
    · exact Nat.lt_of_lt_of_le hh hlater.elements.length_le
    · exact hnot objs (List.mem_singleton.1 hmem ▸ hr)
  exact hall.2

/-- A store after a history, and what can be asked of it next. -/
structure Interns (history : List (ElementRequest × Option Nat)) (s : ElementStore) : Prop where
  /-- Two answers are one element exactly if the keys are equal. -/
  same : ∀ k j a b, (.get k, a) ∈ history → (.get j, b) ∈ history → (a = b ↔ k = j)
  got : ∀ k a, (.get k, a) ∈ history → a ≠ none ∧ s.find? k = a
  /-- To look for an element changes nothing. It is found if it was asked for or brought, and
  nothing else is. -/
  find : ∀ k, s.ask (.find k) = (s.find? k, s)
  found : ∀ k, s.find? k ≠ none ↔ Made history k
  again : ∀ k h, s.find? k = some h → s.key? h = some k ∧ s.ask (.get k) = (some h, s)
  /-- The elements of a kind are numbered in the order in which they were made. -/
  indexes : ∀ κ, (s.ofKind κ).map (·.index) = List.range (s.ofKind κ).length
  container : ∀ r ∈ s.elements, ∀ x, r.key = .callSite x →
    ∃ h, r.container = some h ∧ s.get (.method x.container) = (h, s)
  later : ∀ rs, s.Later rs (askAll ask s rs).2
  /-- A manager that was asked for the same elements answers with the same numbers, if objects in
  keys are objects of the store. -/
  numbers : (∀ k ∈ asked history, k.meaning? s.object? ≠ none) →
    ∀ k e, k.meaning? s.object? = some e →
      (s.managed history).find? e = (s.find? k).bind s.index? ∧
      (s.get k).2.index? (s.get k).1 = some ((s.managed history).get e).1

/-- Whatever is asked, each key has one element, which stays as it was made. -/
theorem elements_intern (rs : List ElementRequest) :
    Interns (askAll ask empty rs).1 (askAll ask empty rs).2 := by
  have hr : Recorded (askAll ask empty rs).1 (askAll ask empty rs).2 :=
    askAll_induction rs recorded_empty fun _ _ r _ h => Recorded.ask h r
  exact {
    same k j a b ha hb := hr.eq_iff ha hb
    got k a ha := by
      obtain ⟨h, rfl, hk⟩ := hr.got k a ha
      exact ⟨nofun, hk⟩
    find _ := rfl
    found _ := hr.find?_ne_none_iff
    again k h hk := ⟨(hr.sound.found k h).1 hk, by rw [ElementStore.ask, get_of_find? hk]⟩
    indexes := hr.sound.indexes
    container r hmem x hx := by
      obtain ⟨h, hcontainer, hfind⟩ :=
        hr.sound.contained r hmem (.method x.container) (by rw [hx, ElementKey.container?])
      exact ⟨h, hcontainer, get_of_find? hfind⟩
    later := hr.sound.later
    numbers hown k e hk := ⟨hr.find?_managed hown hk, hr.get_managed hown hk⟩ }

/-- The method of a call site is made before the call site. -/
example (x : CtxCallSite) : (empty.get (.callSite x)).2.elements =
    [⟨.method x.container, 0, none⟩, ⟨.callSite x, 0, some 0⟩] := rfl

end ElementStore

end PointsTo

end ObjectFlow
