import Mathlib.Data.List.Induction
import Mathlib.Data.List.Nodup
import ObjectFlow.PointsTo.Element
/-!
# Numbers of elements

A manager lists the elements of each kind in the order in which they appeared, and a call site
brings the method that contains it. So what it lists follows from what it was asked for, kind
by kind, and the number of an element is its place there.
-/

namespace ObjectFlow

namespace PointsTo

/-! ## What is brought in turn -/

/-- A list that has taken what was brought, if it did not have it. -/
def grown {α : Type} [DecidableEq α] (l : List α) (brought : Option α) : List α :=
  brought.elim l fun a => if a ∈ l then l else l ++ [a]

section
variable {α β : Type} [DecidableEq α] [DecidableEq β] {l : List α} {a b : α} {o : Option α}

theorem grown_of_mem (h : a ∈ l) : grown l (some a) = l := if_pos h

theorem grown_of_not_mem (h : a ∉ l) : grown l (some a) = l ++ [a] := if_neg h

theorem mem_grown : b ∈ grown l o ↔ b ∈ l ∨ o = some b := by
  cases o with
  | none => simp [grown]
  | some a =>
    by_cases ha : a ∈ l
    · rw [grown_of_mem ha]
      exact ⟨.inl, fun h => h.elim id fun hab => Option.some.inj hab ▸ ha⟩
    · rw [grown_of_not_mem ha]
      simp [eq_comm]

/-- What some items have brought in turn. -/
def collected (brings : α → Option α) (l : List α) : List α :=
  l.foldl (fun out a => grown out (brings a)) []

theorem collected_concat (brings : α → Option α) (l : List α) (a : α) :
    collected brings (l ++ [a]) = grown (collected brings l) (brings a) := List.foldl_concat ..

theorem mem_collected {brings : α → Option α} :
    b ∈ collected brings l ↔ ∃ a ∈ l, brings a = some b := by
  induction l using List.reverseRecOn with
  | nil => simp [collected]
  | append_singleton l a ih =>
    rw [collected_concat, mem_grown, ih]
    simp [or_and_right, exists_or]

variable {f : α → Option β}

/-- Items that stand for one thing are one. -/
def Faithful (f : α → Option β) : Prop := ∀ a b c, f a = some c → f b = some c → a = b

theorem filterMap_grown (hf : Faithful f) (l : List α) (o : Option α) :
    (grown l o).filterMap f = grown (l.filterMap f) (o.bind f) := by
  cases o with
  | none => rfl
  | some a =>
    rw [Option.bind_some]
    by_cases ha : a ∈ l
    · rw [grown_of_mem ha]
      cases hfa : f a with
      | none => rfl
      | some c => exact (grown_of_mem (List.mem_filterMap.2 ⟨a, ha, hfa⟩)).symm
    · rw [grown_of_not_mem ha, List.filterMap_append]
      cases hfa : f a with
      | none => simp [hfa, grown]
      | some c =>
        have hc : c ∉ l.filterMap f := fun h => by
          obtain ⟨b, hb, hfb⟩ := List.mem_filterMap.1 h
          exact ha (hf a b c hfa hfb ▸ hb)
        rw [grown_of_not_mem hc]
        simp [hfa]

theorem filterMap_collected {brings : α → Option α} {brings' : β → Option β} (hf : Faithful f)
    (h : ∀ a, (brings a).bind f = (f a).bind brings') (l : List α) :
    (collected brings l).filterMap f = collected brings' (l.filterMap f) := by
  induction l using List.reverseRecOn with
  | nil => rfl
  | append_singleton l a ih =>
    rw [collected_concat, filterMap_grown hf, ih, h, List.filterMap_append]
    cases hfa : f a with
    | none => simp [hfa, grown]
    | some b => simp [hfa, collected_concat]

/-- What stands for an item is where the item is. -/
theorem findIdx?_filterMap (hf : Faithful f) (hall : ∀ a ∈ l, f a ≠ none) {c : β}
    (ha : f a = some c) : (l.filterMap f).findIdx? (fun d => decide (d = c)) =
      l.findIdx? fun b => decide (b = a) := by
  induction l with
  | nil => rfl
  | cons b l ih =>
    obtain ⟨d, hd⟩ := Option.ne_none_iff_exists'.1 (hall b List.mem_cons_self)
    have heq : d = c ↔ b = a :=
      ⟨fun h => hf b a c (h ▸ hd) ha, fun h => Option.some.inj (hd.symm.trans (h ▸ ha))⟩
    rw [List.filterMap_cons_some hd, List.findIdx?_cons, List.findIdx?_cons,
      ih fun a ha => hall a (List.mem_cons_of_mem _ ha), decide_eq_decide.2 heq]

theorem findIdx?_of_getElem? {i : Nat} (hl : l.Nodup) (ha : l[i]? = some a) :
    l.findIdx? (fun b => decide (b = a)) = some i := by
  obtain ⟨hi, rfl⟩ := List.getElem?_eq_some_iff.1 ha
  refine List.findIdx?_eq_some_iff_getElem.2 ⟨hi, decide_eq_true rfl, fun j hj => ?_⟩
  rw [decide_eq_true_eq]
  exact fun h => Nat.ne_of_lt hj ((hl.getElem_inj_iff).1 h)

end

/-! ## Elements of a manager -/

inductive ElementKind where
  | var | staticField | instanceField | arrayIndex | object | method | callSite
deriving DecidableEq

namespace Element

def kind : Element → ElementKind
  | pointer (.var _ _) => .var
  | pointer (.staticField _) => .staticField
  | pointer (.instanceField _ _) => .instanceField
  | pointer (.arrayIndex _) => .arrayIndex
  | object _ => .object
  | method _ => .method
  | callSite _ => .callSite

def container? : Element → Option Element
  | callSite s => some (.method s.container)
  | _ => none

def brings (e : Element) (κ : ElementKind) : Option Element :=
  if e.kind = κ then some e else e.container?.filter fun m => decide (m.kind = κ)

end Element

namespace Manager

/-- The elements of a kind, in the order of their numbers. -/
def listed (m : Manager) : ElementKind → List Element
  | .var => m.vars.toList.map fun k => .pointer (.var k.1 k.2)
  | .staticField => m.staticFields.toList.map fun f => .pointer (.staticField f)
  | .instanceField => m.instanceFields.toList.map fun k => .pointer (.instanceField k.1 k.2)
  | .arrayIndex => m.arrayIndexes.toList.map fun a => .pointer (.arrayIndex a)
  | .object => m.objects.toList.map .object
  | .method => m.methods.toList.map .method
  | .callSite => m.callSites.toList.map .callSite

/-- The table of an element, which lists it by its key there. -/
structure StandsIn {α : Type} [DecidableEq α] (m : Manager) (e : Element) (t : Interner α) (a : α)
    (f : α → Element) : Prop where
  injective : Function.Injective f
  key : f a = e
  listed : m.listed e.kind = t.toList.map f
  find? : m.find? e = t.find? a
  count : m.count e = t.size
  intern : (m.intern e).listed e.kind = (t.intern a).toList.map f

theorem exists_standsIn (m : Manager) (e : Element) : ∃ (α : Type) (_ : DecidableEq α)
    (t : Interner α) (a : α) (f : α → Element), m.StandsIn e t a f := by
  match e with
  | .pointer (.var c v) =>
    refine ⟨_, _, m.vars, (c, v), fun k => .pointer (.var k.1 k.2), ?_, rfl, rfl, rfl, rfl, rfl⟩
    rintro ⟨_, _⟩ ⟨_, _⟩ h
    cases h
    rfl
  | .pointer (.instanceField b f) =>
    refine ⟨_, _, m.instanceFields, (b, f), fun k => .pointer (.instanceField k.1 k.2), ?_, rfl,
      rfl, rfl, rfl, rfl⟩
    rintro ⟨_, _⟩ ⟨_, _⟩ h
    cases h
    rfl
  | .pointer (.staticField f) =>
    refine ⟨_, _, m.staticFields, f, fun f => .pointer (.staticField f), fun _ _ h => ?_, rfl, rfl,
      rfl, rfl, rfl⟩
    exact Pointer.staticField.inj (Element.pointer.inj h)
  | .pointer (.arrayIndex a) =>
    refine ⟨_, _, m.arrayIndexes, a, fun a => .pointer (.arrayIndex a), fun _ _ h => ?_, rfl, rfl,
      rfl, rfl, rfl⟩
    exact Pointer.arrayIndex.inj (Element.pointer.inj h)
  | .object o =>
    exact ⟨_, _, m.objects, o, .object, fun _ _ => Element.object.inj, rfl, rfl, rfl, rfl, rfl⟩
  | .method c =>
    exact ⟨_, _, m.methods, c, .method, fun _ _ => Element.method.inj, rfl, rfl, rfl, rfl, rfl⟩
  | .callSite s =>
    exact ⟨_, _, m.callSites, s, .callSite, fun _ _ => Element.callSite.inj, rfl, rfl, rfl, rfl,
      rfl⟩

theorem count_eq (m : Manager) (e : Element) : m.count e = (m.listed e.kind).length := by
  obtain ⟨α, _, t, a, f, h⟩ := m.exists_standsIn e
  rw [h.count, h.listed, List.length_map]
  rfl

theorem find?_eq (m : Manager) (e : Element) :
    m.find? e = (m.listed e.kind).findIdx? fun e' => decide (e' = e) := by
  obtain ⟨α, _, t, a, f, h⟩ := m.exists_standsIn e
  rw [h.find?, h.listed, List.findIdx?_map, ← h.key]
  show List.findIdx? _ _ = _
  congr 1
  funext b
  exact decide_eq_decide.2 h.injective.eq_iff.symm

theorem listed_intern_self (m : Manager) (e : Element) :
    (m.intern e).listed e.kind = grown (m.listed e.kind) (some e) := by
  obtain ⟨α, _, t, a, f, h⟩ := m.exists_standsIn e
  rw [h.intern, h.listed, ← h.key, Interner.toList, Interner.intern, OrderedSet.toList_insert]
  by_cases ha : a ∈ t.keys
  · rw [if_pos ha]
    exact (grown_of_mem (List.mem_map_of_mem ha)).symm
  · rw [if_neg ha, List.map_append, List.map_singleton]
    exact (grown_of_not_mem fun hmem => ha ((List.mem_map_of_injective h.injective).1 hmem)).symm

theorem listed_intern (m : Manager) (e : Element) (κ : ElementKind) :
    (m.intern e).listed κ = grown (m.listed κ) (e.brings κ) := by
  by_cases hκ : e.kind = κ
  · rw [← hκ, listed_intern_self, Element.brings, if_pos rfl]
  · rw [Element.brings, if_neg hκ]
    match e with
    | .callSite s =>
      cases κ with
      | method => exact listed_intern_self m (.method s.container)
      | callSite => exact absurd rfl hκ
      | _ => rfl
    | .pointer (.var _ _) | .pointer (.staticField _) | .pointer (.instanceField _ _)
    | .pointer (.arrayIndex _) | .object _ | .method _ =>
      cases κ <;> first | rfl | exact absurd rfl hκ

/-- What a manager lists after some elements have appeared. -/
theorem listed_foldl (es : List Element) (κ : ElementKind) :
    (es.foldl intern empty).listed κ = collected (·.brings κ) es := by
  induction es using List.reverseRecOn with
  | nil => cases κ <;> rfl
  | append_singleton es e ih => rw [List.foldl_concat, listed_intern, ih, collected_concat]

end Manager

end PointsTo

end ObjectFlow
