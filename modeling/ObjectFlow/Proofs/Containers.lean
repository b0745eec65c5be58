import Mathlib.Data.List.Nodup
import Mathlib.Data.List.Perm.Subperm
import ObjectFlow.Collections.WorkQueue
import ObjectFlow.Graph.CallGraph
import ObjectFlow.PointsTo.FlowGraph
import ObjectFlow.PointsTo.Pending
/-!
# What the containers hold after an operation

Each container is described by membership alone: a list of results by the
results that it was made from, an ordered map by its look-up, a flow graph and a
call graph by their edges, the pending objects by the set that waits for each
pointer.
-/

namespace ObjectFlow

/-! ## Lists of results -/

section Lists
variable {α β ε : Type} {x : α → Except ε β} {a : α} {l : List α}

theorem exists_of_map_ok {r : Except ε α} {f : α → β} {b : β} (h : r.map f = .ok b) :
    ∃ a, r = .ok a ∧ f a = b := by
  cases r with
  | error e => cases h
  | ok a => exact ⟨a, rfl, Except.ok.inj h⟩

theorem eq_error_of_map {r : Except ε α} {f : α → β} {e : ε} (h : r.map f = .error e) :
    r = .error e := by
  cases r with
  | error e' => exact congrArg Except.error (Except.error.inj h)
  | ok a => cases h

theorem exists_of_mapError {ε' : Type} {r : Except ε α} {f : ε → ε'} {e : ε'}
    (h : r.mapError f = .error e) : ∃ e', r = .error e' ∧ e = f e' := by
  cases r with
  | error e' => exact ⟨e', rfl, (Except.error.inj h).symm⟩
  | ok a => cases h

theorem mapM_cons_eq_ok {bs : List β} (h : (a :: l).mapM x = .ok bs) :
    ∃ b rest, x a = .ok b ∧ l.mapM x = .ok rest ∧ bs = b :: rest := by
  rw [List.mapM_cons] at h
  cases hx : x a with
  | error e =>
    rw [hx] at h
    cases h
  | ok b =>
    cases hl : l.mapM x with
    | error e =>
      rw [hx, hl] at h
      cases h
    | ok rest =>
      rw [hx, hl] at h
      exact ⟨b, rest, rfl, rfl, (Except.ok.inj h).symm⟩

theorem mapM_concat_eq_ok {bs : List β} (h : (l ++ [a]).mapM x = .ok bs) :
    ∃ init b, x a = .ok b ∧ bs = init ++ [b] := by
  induction l generalizing bs with
  | nil =>
    obtain ⟨b, rest, hb, hrest, rfl⟩ := mapM_cons_eq_ok h
    obtain rfl := Except.ok.inj hrest
    exact ⟨[], b, hb, rfl⟩
  | cons c l ih =>
    obtain ⟨d, rest, -, hrest, rfl⟩ := mapM_cons_eq_ok h
    obtain ⟨init, b, hb, rfl⟩ := ih hrest
    exact ⟨d :: init, b, hb, rfl⟩

theorem mapM_cons_eq_error {e : ε} (h : (a :: l).mapM x = .error e) :
    x a = .error e ∨ l.mapM x = .error e := by
  rw [List.mapM_cons] at h
  cases hx : x a with
  | error e' =>
    rw [hx] at h
    obtain rfl : e' = e := Except.error.inj h
    exact .inl rfl
  | ok b =>
    cases hl : l.mapM x with
    | error e' =>
      rw [hx, hl] at h
      obtain rfl : e' = e := Except.error.inj h
      exact .inr rfl
    | ok rest =>
      rw [hx, hl] at h
      cases h

theorem forall₂_of_mapM {y : α → Except ε β} {R : β → β → Prop} {bs' : List β}
    (hxy : ∀ a b', y a = .ok b' → ∃ b, x a = .ok b ∧ R b b') (h : l.mapM y = .ok bs') :
    ∃ bs, l.mapM x = .ok bs ∧ List.Forall₂ R bs bs' := by
  induction l generalizing bs' with
  | nil =>
    obtain rfl := Except.ok.inj h
    exact ⟨[], rfl, .nil⟩
  | cons a l ih =>
    obtain ⟨b', rest', hy, hl, rfl⟩ := mapM_cons_eq_ok h
    obtain ⟨b, hx, hr⟩ := hxy a b' hy
    obtain ⟨rest, hrest, hall⟩ := ih hl
    refine ⟨b :: rest, ?_, .cons hr hall⟩
    rw [List.mapM_cons, hx, hrest]
    rfl

theorem mapM_congr {y : α → Except ε β} (h : ∀ a ∈ l, x a = y a) : l.mapM x = l.mapM y := by
  induction l with
  | nil => rfl
  | cons a l ih =>
    rw [List.mapM_cons, List.mapM_cons, h a List.mem_cons_self,
      ih fun a' ha' => h a' (List.mem_cons_of_mem _ ha')]

theorem exists_of_mem_mapM {bs : List β} {b : β} (h : l.mapM x = .ok bs) (hb : b ∈ bs) :
    ∃ a ∈ l, x a = .ok b := by
  induction l generalizing bs with
  | nil =>
    obtain rfl := Except.ok.inj h
    cases hb
  | cons a l ih =>
    obtain ⟨b₀, rest, hx, hl, rfl⟩ := mapM_cons_eq_ok h
    rcases List.mem_cons.1 hb with rfl | hb
    · exact ⟨a, List.mem_cons_self, hx⟩
    · obtain ⟨a', ha', hxa'⟩ := ih hl hb
      exact ⟨a', List.mem_cons_of_mem _ ha', hxa'⟩

theorem exists_mem_of_mapM {bs : List β} (h : l.mapM x = .ok bs) (ha : a ∈ l) :
    ∃ b ∈ bs, x a = .ok b := by
  induction l generalizing bs with
  | nil => cases ha
  | cons a₀ l ih =>
    obtain ⟨b₀, rest, hx, hl, rfl⟩ := mapM_cons_eq_ok h
    rcases List.mem_cons.1 ha with rfl | ha
    · exact ⟨b₀, List.mem_cons_self, hx⟩
    · obtain ⟨b, hb, hxb⟩ := ih hl ha
      exact ⟨b, List.mem_cons_of_mem _ hb, hxb⟩

theorem length_of_mapM {bs : List β} (h : l.mapM x = .ok bs) : bs.length = l.length := by
  induction l generalizing bs with
  | nil =>
    obtain rfl := Except.ok.inj h
    rfl
  | cons a l ih =>
    obtain ⟨b, rest, -, hrest, rfl⟩ := mapM_cons_eq_ok h
    rw [List.length_cons, List.length_cons, ih hrest]

theorem getElem?_of_mapM {bs : List β} {i : Nat} (h : l.mapM x = .ok bs) (ha : l[i]? = some a) :
    ∃ b, bs[i]? = some b ∧ x a = .ok b := by
  induction l generalizing bs i with
  | nil => cases ha
  | cons a₀ l ih =>
    obtain ⟨b₀, rest, hx, hl, rfl⟩ := mapM_cons_eq_ok h
    cases i with
    | zero =>
      obtain rfl := Option.some.inj ha
      exact ⟨b₀, rfl, hx⟩
    | succ i =>
      obtain ⟨b, hb, hxa⟩ := ih hl ha
      exact ⟨b, hb, hxa⟩

theorem exists_of_mapM_error {e : ε} (h : l.mapM x = .error e) :
    ∃ a ∈ l, x a = .error e := by
  induction l with
  | nil => cases h
  | cons a l ih =>
    rcases mapM_cons_eq_error h with hx | hl
    · exact ⟨a, List.mem_cons_self, hx⟩
    · obtain ⟨a', ha', hxa'⟩ := ih hl
      exact ⟨a', List.mem_cons_of_mem _ ha', hxa'⟩

end Lists

/-! ## Ordered maps -/

namespace OrderedMap

variable {κ ν : Type} [DecidableEq κ]

theorem mem_entries_iff {m : OrderedMap κ ν} {k : κ} {v : ν} :
    (k, v) ∈ m.entries ↔ m.get? k = some v := by
  constructor
  · intro h
    obtain ⟨e, he⟩ : ∃ e, m.entries.find? (fun e => decide (e.1 = k)) = some e :=
      Option.isSome_iff_exists.1 (List.find?_isSome.2 ⟨(k, v), h, by simp⟩)
    have hk : e.1 = k := by simpa using List.find?_some he
    have hev : e = (k, v) := List.inj_on_of_nodup_map m.nodup (List.mem_of_find?_eq_some he) h hk
    simp [get?, he, hev]
  · intro h
    obtain ⟨e, he, hv⟩ := Option.map_eq_some_iff.1 h
    have hk : e.1 = k := by simpa using List.find?_some he
    have hm := List.mem_of_find?_eq_some he
    rwa [← hk, ← hv]

theorem mem_keys_iff {m : OrderedMap κ ν} {k : κ} : k ∈ m.keys ↔ ∃ v, m.get? k = some v := by
  simp [keys, ← mem_entries_iff]

theorem mem_values_iff {m : OrderedMap κ ν} {v : ν} : v ∈ m.values ↔ ∃ k, m.get? k = some v := by
  simp [values, ← mem_entries_iff]

theorem getD_of_get? {m : OrderedMap κ ν} {k : κ} {v d : ν} (h : m.get? k = some v) :
    m.getD k d = v := by
  simp [getD, h]

theorem getD_insert (m : OrderedMap κ ν) (k j : κ) (v d : ν) :
    (m.insert k v).getD j d = if j = k then v else m.getD j d := by
  simp only [getD, get?_insert]
  split <;> rfl

theorem getD_erase (m : OrderedMap κ ν) (k j : κ) (d : ν) :
    (m.erase k).getD j d = if j = k then d else m.getD j d := by
  simp only [getD, get?_erase]
  split <;> rfl

theorem contains_iff {m : OrderedMap κ ν} {k : κ} : m.contains k = true ↔ k ∈ m.keys := by
  rw [contains, Option.isSome_iff_exists, mem_keys_iff]

theorem mem_keys_insert {m : OrderedMap κ ν} {k j : κ} {v : ν} :
    j ∈ (m.insert k v).keys ↔ j ∈ m.keys ∨ j = k := by
  simp only [mem_keys_iff, get?_insert]
  by_cases h : j = k <;> simp [h]

theorem mem_keys_insertAll {l : List (κ × ν)} {m : OrderedMap κ ν} {k : κ} :
    k ∈ (m.insertAll l).keys ↔ k ∈ m.keys ∨ k ∈ l.map Prod.fst := by
  induction l generalizing m with
  | nil => simp [insertAll]
  | cons e l ih =>
    show k ∈ ((m.insert e.1 e.2).insertAll l).keys ↔ _
    rw [ih, mem_keys_insert, List.map_cons, List.mem_cons, or_assoc]

theorem mem_keys_ofList {l : List (κ × ν)} {k : κ} : k ∈ (ofList l).keys ↔ k ∈ l.map Prod.fst :=
  mem_keys_insertAll.trans (or_iff_right (by simp [keys, EmptyCollection.emptyCollection, empty]))

theorem keys_insert (m : OrderedMap κ ν) (k : κ) (v : ν) :
    (m.insert k v).keys = if k ∈ m.keys then m.keys else m.keys ++ [k] := by
  unfold insert keys
  split
  · exact map_fst_replace k v m.entries
  · simp

/-- Keys that were not bound before are listed behind the others, in the order of the bindings. -/
theorem keys_insertAll {l : List (κ × ν)} {m : OrderedMap κ ν}
    (h : (m.keys ++ l.map Prod.fst).Nodup) : (m.insertAll l).keys = m.keys ++ l.map Prod.fst := by
  induction l generalizing m with
  | nil => exact (List.append_nil _).symm
  | cons e l ih =>
    have hnew : e.1 ∉ m.keys := fun hin =>
      (List.nodup_append.1 h).2.2 e.1 hin e.1 List.mem_cons_self rfl
    have hkeys : (m.insert e.1 e.2).keys = m.keys ++ [e.1] := by rw [keys_insert, if_neg hnew]
    have happ : m.keys ++ (e :: l).map Prod.fst = (m.insert e.1 e.2).keys ++ l.map Prod.fst := by
      rw [hkeys, List.append_assoc]
      rfl
    rw [happ] at h ⊢
    exact ih h

theorem keys_ofList {l : List (κ × ν)} (h : (l.map Prod.fst).Nodup) :
    (ofList l).keys = l.map Prod.fst := keys_insertAll h

/-- What is bound after a list of bindings comes from the list or was bound before. -/
theorem mem_or_get?_of_insertAll {l : List (κ × ν)} {m : OrderedMap κ ν} {k : κ} {v : ν}
    (h : (m.insertAll l).get? k = some v) : (k, v) ∈ l ∨ m.get? k = some v := by
  induction l generalizing m with
  | nil => exact .inr h
  | cons e l ih =>
    rcases ih h with h | h
    · exact .inl (List.mem_cons_of_mem _ h)
    · rw [get?_insert] at h
      split at h
      · rename_i hk
        obtain rfl := Option.some.inj h
        subst hk
        exact .inl List.mem_cons_self
      · exact .inr h

theorem mem_of_get?_ofList {l : List (κ × ν)} {k : κ} {v : ν} (h : (ofList l).get? k = some v) :
    (k, v) ∈ l := (mem_or_get?_of_insertAll h).resolve_right (by simp)

/-- A map of keys to the default value looks like the empty one. -/
theorem getD_ofList_const (l : List κ) (k : κ) (d : ν) :
    (ofList (l.map fun j => (j, d))).getD k d = d := by
  cases h : (ofList (l.map fun j => (j, d))).get? k with
  | none => simp [getD, h]
  | some v =>
    obtain ⟨j, -, hj⟩ := List.mem_map.1 (mem_of_get?_ofList h)
    rw [getD_of_get? h, (Prod.mk.inj hj).2]

/-- Only the entry of a key can change what is read there while a map is gone through. -/
theorem read_foldl_entries {σ α : Type} {step : σ → κ × ν → σ} {k : κ} (read : σ → α)
    (put : ν → α → α) (hsame : ∀ s v, read (step s (k, v)) = put v (read s))
    (hother : ∀ s e, e.1 ≠ k → read (step s e) = read s) (m : OrderedMap κ ν) (s : σ) :
    read (m.entries.foldl step s) = (m.get? k).elim (read s) fun v => put v (read s) := by
  have absent : ∀ (es : List (κ × ν)) (s : σ), k ∉ es.map Prod.fst →
      read (es.foldl step s) = read s := by
    intro es
    induction es with
    | nil => exact fun s _ => rfl
    | cons e es ih =>
      intro s hk
      rw [List.map_cons, List.mem_cons, not_or] at hk
      rw [List.foldl_cons, ih _ hk.2, hother s e (Ne.symm hk.1)]
  have fold : ∀ (es : List (κ × ν)) (s : σ), (es.map Prod.fst).Nodup →
      read (es.foldl step s) =
        ((es.find? fun e => decide (e.1 = k)).map Prod.snd).elim (read s) fun v =>
          put v (read s) := by
    intro es
    induction es with
    | nil => exact fun s _ => rfl
    | cons e es ih =>
      intro s hn
      rw [List.map_cons, List.nodup_cons] at hn
      rw [List.foldl_cons, List.find?_cons]
      by_cases he : e.1 = k
      · -- the key does not come again
        subst he
        rw [absent es _ hn.1, decide_eq_true rfl]
        exact hsame s e.2
      · rw [ih _ hn.2, decide_eq_false he, hother s e he]
  exact fold m.entries s m.nodup

theorem getD_insertAll_entries (n m : OrderedMap κ ν) (k : κ) (d : ν) :
    (m.insertAll n.entries).getD k d = n.getD k (m.getD k d) := by
  have hsame : ∀ (m : OrderedMap κ ν) v, (m.insert k v).getD k d = v := fun m v => by
    rw [getD_insert, if_pos rfl]
  have hother : ∀ (m : OrderedMap κ ν) (e : κ × ν), e.1 ≠ k →
      (m.insert e.1 e.2).getD k d = m.getD k d := fun m e he => by
    rw [getD_insert, if_neg (Ne.symm he)]
  refine (read_foldl_entries (fun m => m.getD k d) (fun v _ => v) hsame hother n m).trans ?_
  unfold getD
  cases n.get? k <;> rfl

theorem sameAs_refl [DecidableEq ν] (m : OrderedMap κ ν) : m.sameAs m := by
  simp only [sameAs, decide_true, Bool.true_and, List.all_eq_true, decide_eq_true_eq]
  exact fun e he => mem_entries_iff.1 he

/-- Maps of the same size whose entries agree one way agree both ways. -/
theorem get?_eq_of_sameAs [DecidableEq ν] {m n : OrderedMap κ ν} (h : m.sameAs n) (k : κ) :
    m.get? k = n.get? k := by
  simp only [sameAs, Bool.and_eq_true, decide_eq_true_eq, List.all_eq_true] at h
  have hsub : m.entries ⊆ n.entries := fun e he => mem_entries_iff.2 (h.2 e he)
  have hperm : m.entries.Perm n.entries :=
    (List.subperm_of_subset (List.Nodup.of_map _ m.nodup) hsub).perm_of_length_le
      (Nat.le_of_eq h.1.symm)
  apply Option.ext
  intro v
  rw [← mem_entries_iff, ← mem_entries_iff]
  exact hperm.mem_iff

theorem sameAs_of_get?_eq [DecidableEq ν] {m n : OrderedMap κ ν} (h : ∀ k, m.get? k = n.get? k) :
    m.sameAs n := by
  have hperm : m.entries.Perm n.entries := by
    refine (List.perm_ext_iff_of_nodup (List.Nodup.of_map _ m.nodup)
      (List.Nodup.of_map _ n.nodup)).2 fun e => ?_
    rw [mem_entries_iff, mem_entries_iff, h]
  simp only [sameAs, size, hperm.length_eq, decide_true, Bool.true_and, List.all_eq_true,
    decide_eq_true_eq]
  exact fun e he => h e.1 ▸ mem_entries_iff.1 he

/-- Taking the oldest entry is looking it up and erasing it. -/
theorem erase_of_pop? {m rest : OrderedMap κ ν} {k : κ} {v : ν} (h : m.pop? = some ((k, v), rest)) :
    m.get? k = some v ∧ rest = m.erase k := by
  match m, h with
  | ⟨e :: es, hn⟩, h =>
    simp only [pop?, Option.some.injEq, Prod.mk.injEq] at h
    obtain ⟨rfl, rfl⟩ := h
    have hk : ∀ e ∈ es, e.1 ≠ k := by
      intro e he hek
      exact (List.nodup_cons.1 hn).1 (List.mem_map.2 ⟨e, he, hek⟩)
    refine ⟨by simp [get?], OrderedMap.ext ?_⟩
    simp only [erase, List.filter_cons, ne_eq, not_true_eq_false, decide_false]
    exact (List.filter_eq_self.2 fun e he => by simpa using hk e he).symm

theorem size_erase_lt {m : OrderedMap κ ν} {k : κ} {v : ν} (h : m.get? k = some v) :
    (m.erase k).size < m.size := by
  refine List.length_filter_lt_length_iff_exists.2 ⟨(k, v), mem_entries_iff.2 h, by simp⟩

end OrderedMap

/-! ## Ordered sets -/

theorem OrderedSet.isEmpty_iff {α : Type} {s : OrderedSet α} : s.isEmpty = true ↔ ∀ a, a ∉ s := by
  rw [OrderedSet.isEmpty, List.isEmpty_iff, List.eq_nil_iff_forall_not_mem]
  rfl

/-- A set with one member lists that member. -/
theorem OrderedSet.toList_eq_singleton {α : Type} {s : OrderedSet α} {a : α}
    (h : ∀ b, b ∈ s ↔ b = a) : s.toList = [a] :=
  List.perm_singleton.1 <| (List.perm_ext_iff_of_nodup s.nodup (List.nodup_singleton a)).2 fun b =>
    (h b).trans List.mem_singleton.symm

section
variable {α : Type} [DecidableEq α]

/-- Adding the members of a list appends those that are new, each at its first place. -/
theorem OrderedSet.toList_insertAll_eq (s : OrderedSet α) (l : List α) :
    (s.insertAll l).toList = s.toList ++ (l.filter fun a => decide (a ∉ s)).eraseDups := by
  induction l generalizing s with
  | nil => simp [insertAll]
  | cons a l ih =>
    show ((s.insert a).insertAll l).toList = _
    rw [ih, toList_insert]
    by_cases ha : a ∈ s
    · rw [if_pos ha, insert_of_mem ha, List.filter_cons_of_neg (by simpa using ha)]
    · rw [if_neg ha, List.filter_cons_of_pos (by simpa using ha), List.eraseDups_cons,
        List.filter_filter, List.append_assoc, List.singleton_append]
      congr 3
      refine List.filter_congr fun b _ => ?_
      simp [beq_eq_decide, not_or, and_comm]

theorem OrderedSet.ofList_append (l l' : List α) : ofList (l ++ l') = (ofList l).insertAll l' := by
  rw [ofList, insertAll, List.foldl_append]
  rfl

theorem OrderedSet.toList_insertAll_of_nodup {s : OrderedSet α} {l : List α}
    (h : (s.toList ++ l).Nodup) : (s.insertAll l).toList = s.toList ++ l := by
  induction l generalizing s with
  | nil => exact (List.append_nil _).symm
  | cons a l ih =>
    have hnew : a ∉ s := fun hin => (List.nodup_append.1 h).2.2 a hin a List.mem_cons_self rfl
    have hlist : (s.insert a).toList = s.toList ++ [a] := by rw [toList_insert, if_neg hnew]
    have happ : s.toList ++ a :: l = (s.insert a).toList ++ l := by
      rw [hlist, List.append_assoc]
      rfl
    rw [happ] at h ⊢
    exact ih h

theorem OrderedSet.toList_ofList (l : List α) : (ofList l).toList = l.eraseDups := by
  rw [ofList, toList_insertAll_eq]
  simp

end

/-! ## Work queues -/

namespace WorkQueue

variable {α : Type}

theorem ext_toList {q r : WorkQueue α} (h : q.toList = r.toList) : q = r :=
  congrArg WorkQueue.mk (OrderedSet.ext h)

theorem pop?_of_toList {q : WorkQueue α} {a : α} {l : List α} (h : q.toList = a :: l) :
    ∃ r, q.pop? = some (a, r) ∧ r.toList = l := by
  cases hq : q.pop? with
  | none =>
    rw [toList_eq_nil_of_pop? hq] at h
    cases h
  | some x =>
    obtain ⟨b, r⟩ := x
    rw [toList_eq_of_pop? hq] at h
    obtain ⟨rfl, hr⟩ := List.cons.inj h
    exact ⟨r, rfl, hr⟩

theorem toList_ofList [DecidableEq α] {l : List α} (h : l.Nodup) : (ofList l).toList = l :=
  OrderedSet.toList_insertAll_of_nodup h

/-- A queue of distinct items gives them out in their order. -/
theorem pop?_ofList_cons [DecidableEq α] {a : α} {l : List α} (h : (a :: l).Nodup) :
    (ofList (a :: l)).pop? = some (a, ofList l) := by
  obtain ⟨r, hpop, hr⟩ := pop?_of_toList (toList_ofList h)
  rw [hpop, ext_toList (hr.trans (toList_ofList (List.nodup_cons.1 h).2).symm)]

end WorkQueue

/-! ## Pending objects -/

namespace Pending

variable {π ω : Type} [DecidableEq π]

/-- The objects that wait for a pointer. -/
def waiting (w : Pending π ω) (q : π) : PointsToSet ω := w.objects.getD q ∅

/-- The objects that wait for a pointer that waits, and the list without it. -/
def take? (w : Pending π ω) (q : π) : Option (PointsToSet ω × Pending π ω) :=
  (w.objects.get? q).map fun objs => (objs, ⟨w.objects.erase q⟩)

/-- The pointer that has waited longest is one that waits. -/
theorem take?_of_poll? {w rest : Pending π ω} {q : π} {objs : PointsToSet ω}
    (h : w.poll? = some ((q, objs), rest)) : w.take? q = some (objs, rest) := by
  obtain ⟨⟨e, m⟩, he, hm⟩ := Option.map_eq_some_iff.1 h
  simp only [Prod.mk.injEq] at hm
  obtain ⟨rfl, rfl⟩ := hm
  obtain ⟨hg, rfl⟩ := OrderedMap.erase_of_pop? he
  simp [take?, hg]

theorem waiting_of_take? {w rest : Pending π ω} {q : π} {objs : PointsToSet ω}
    (h : w.take? q = some (objs, rest)) (q' : π) :
    w.waiting q = objs ∧ rest.waiting q' = if q' = q then ∅ else w.waiting q' := by
  obtain ⟨o, ho, he⟩ := Option.map_eq_some_iff.1 h
  simp only [Prod.mk.injEq] at he
  obtain ⟨rfl, rfl⟩ := he
  exact ⟨OrderedMap.getD_of_get? ho, OrderedMap.getD_erase _ _ _ _⟩

theorem size_lt_of_take? {w rest : Pending π ω} {q : π} {objs : PointsToSet ω}
    (h : w.take? q = some (objs, rest)) : rest.size < w.size := by
  obtain ⟨o, ho, he⟩ := Option.map_eq_some_iff.1 h
  simp only [Prod.mk.injEq] at he
  obtain ⟨-, rfl⟩ := he
  exact OrderedMap.size_erase_lt ho

/-- Nothing waits for any pointer once no pointer waits. -/
theorem not_mem_waiting_of_poll? {w : Pending π ω} (h : w.poll? = none) (q : π) (o : ω) :
    o ∉ w.waiting q := by
  have hw : w.objects = ∅ := by
    match w, h with
    | ⟨⟨[], _⟩⟩, _ => rfl
  simp [waiting, hw, OrderedMap.getD]

variable [DecidableEq ω]

theorem mem_waiting_add {w : Pending π ω} {p q : π} {objs : PointsToSet ω} {o : ω} :
    o ∈ (w.add p objs).waiting q ↔ o ∈ w.waiting q ∨ (q = p ∧ o ∈ objs) := by
  unfold waiting add
  split <;> rename_i h
  · by_cases hq : q = p
    · subst hq
      simp [OrderedMap.getD, h]
    · simp [OrderedMap.getD_insert, hq]
  · by_cases hq : q = p
    · subst hq
      simp [OrderedMap.getD_insert, OrderedMap.getD_of_get? h]
    · simp [OrderedMap.getD_insert, hq]

end Pending

/-! ## Flow graphs -/

namespace FlowGraph

variable {π : Type} [DecidableEq π]

@[simp] theorem not_hasEdge_empty (s t : π) : ¬ (FlowGraph.empty : FlowGraph π).hasEdge s t := by
  simp [hasEdge, empty, OrderedMap.contains]

theorem hasEdge_addEdge {g : FlowGraph π} {s t a b : π} {kind : FlowKind} :
    (g.addEdge s t kind).hasEdge a b ↔ g.hasEdge a b ∨ (a = s ∧ b = t) := by
  unfold addEdge
  split
  · rename_i h
    constructor
    · exact Or.inl
    · rintro (hab | ⟨rfl, rfl⟩)
      · exact hab
      · exact h
  · simp only [hasEdge, OrderedMap.contains_iff, OrderedMap.mem_keys_insert, Prod.mk.injEq]

theorem mem_succs {g : FlowGraph π} {s t : π} : t ∈ g.succs s ↔ g.hasEdge s t := by
  simp only [succs, hasEdge, OrderedMap.contains_iff, List.mem_filterMap]
  constructor
  · rintro ⟨⟨a, b⟩, hm, he⟩
    split at he <;> simp_all
  · intro h
    exact ⟨(s, t), h, by simp⟩

end FlowGraph

/-! ## Call graphs -/

namespace CallGraph

variable {μ σ : Type} [DecidableEq μ] [DecidableEq σ]

/-- Every edge is kept under its own call site. -/
def Grouped (g : CallGraph μ σ) : Prop :=
  ∀ s es, g.bySite.get? s = some es → ∀ e ∈ es, e.site = s

omit [DecidableEq μ] in
theorem grouped_empty : (empty : CallGraph μ σ).Grouped := by
  intro s es h
  simp [empty] at h

omit [DecidableEq μ] in
theorem mem_edges {g : CallGraph μ σ} {e : CallEdge μ σ} :
    e ∈ g.edges ↔ ∃ s es, g.bySite.get? s = some es ∧ e ∈ es := by
  simp only [edges, List.mem_flatMap, OrderedMap.mem_values_iff]
  constructor
  · rintro ⟨es, ⟨s, hs⟩, he⟩
    exact ⟨s, es, hs, he⟩
  · rintro ⟨s, es, hs, he⟩
    exact ⟨es, ⟨s, hs⟩, he⟩

theorem mem_edges_of_hasEdge {g : CallGraph μ σ} {e : CallEdge μ σ} (h : g.hasEdge e) :
    e ∈ g.edges := by
  simp only [hasEdge, edgesFrom, OrderedMap.getD] at h
  cases hs : g.bySite.get? e.site with
  | none => simp [hs] at h
  | some es => exact mem_edges.2 ⟨e.site, es, hs, by simpa [hs] using h⟩

theorem hasEdge_iff {g : CallGraph μ σ} (hg : g.Grouped) {e : CallEdge μ σ} :
    g.hasEdge e ↔ e ∈ g.edges := by
  refine ⟨mem_edges_of_hasEdge, fun h => ?_⟩
  obtain ⟨s, es, hs, he⟩ := mem_edges.1 h
  have hes : e.site = s := hg s es hs e he
  simp [hasEdge, edgesFrom, hes, OrderedMap.getD_of_get? hs, he]

theorem mem_edgesFrom {g : CallGraph μ σ} (hg : g.Grouped) {s : σ} {e : CallEdge μ σ} :
    e ∈ g.edgesFrom s ↔ e ∈ g.edges ∧ e.site = s := by
  constructor
  · intro he
    cases hs : g.bySite.get? s with
    | none =>
      rw [edgesFrom, OrderedMap.getD, hs] at he
      cases he
    | some es =>
      rw [edgesFrom, OrderedMap.getD_of_get? hs] at he
      exact ⟨mem_edges.2 ⟨s, es, hs, he⟩, hg s es hs e he⟩
  · rintro ⟨he, rfl⟩
    exact of_decide_eq_true ((hasEdge_iff hg).2 he)

theorem mem_calleesOf {g : CallGraph μ σ} (hg : g.Grouped) {s : σ} {m : μ} :
    m ∈ g.calleesOf s ↔ ∃ e ∈ g.edges, e.site = s ∧ e.callee = m := by
  have hin : m ∈ g.calleesOf s ↔ m ∈ (g.edgesFrom s).toList.map CallEdge.callee :=
    OrderedSet.mem_ofList
  rw [hin, List.mem_map]
  constructor
  · rintro ⟨e, he, rfl⟩
    obtain ⟨hedge, hs⟩ := (mem_edgesFrom hg).1 he
    exact ⟨e, hedge, hs, rfl⟩
  · rintro ⟨e, he, hs, rfl⟩
    exact ⟨e, (mem_edgesFrom hg).2 ⟨he, hs⟩, rfl⟩

/-- A graph that reaches its entries and the callees of its edges. -/
structure Closed (g : CallGraph μ σ) : Prop where
  grouped : g.Grouped
  entry : ∀ m ∈ g.entries, m ∈ g.reachable
  callee : ∀ e ∈ g.edges, e.callee ∈ g.reachable

theorem mem_edges_addEdge {g : CallGraph μ σ} {e e' : CallEdge μ σ} :
    e' ∈ (g.addEdge e).edges ↔ e' ∈ g.edges ∨ e' = e := by
  unfold addEdge
  split
  · rename_i h
    exact ⟨Or.inl, fun hor => hor.elim id fun heq => heq ▸ mem_edges_of_hasEdge h⟩
  · simp only [mem_edges, OrderedMap.get?_insert]
    constructor
    · rintro ⟨s, es, hs, he⟩
      split at hs
      · rename_i hse
        simp only [Option.some.injEq] at hs
        subst hs
        rcases OrderedSet.mem_insert.1 he with he | he
        · left
          simp only [edgesFrom, OrderedMap.getD] at he
          cases hs' : g.bySite.get? e.site with
          | none => simp [hs'] at he
          | some es' => exact ⟨e.site, es', hs', by simpa [hs'] using he⟩
        · exact .inr he
      · exact .inl ⟨s, es, hs, he⟩
    · rintro (⟨s, es, hs, he⟩ | rfl)
      · by_cases hse : s = e.site
        · exact ⟨s, _, if_pos hse, OrderedSet.mem_insert.2 (.inl (by
            rw [edgesFrom, ← hse, OrderedMap.getD_of_get? hs]; exact he))⟩
        · exact ⟨s, es, by rw [if_neg hse]; exact hs, he⟩
      · exact ⟨e'.site, _, if_pos rfl, by simp⟩

theorem Grouped.addEdge {g : CallGraph μ σ} (hg : g.Grouped) (e : CallEdge μ σ) :
    (g.addEdge e).Grouped := by
  unfold CallGraph.addEdge
  split
  · exact hg
  · intro s es hs e' he'
    rw [OrderedMap.get?_insert] at hs
    split at hs
    · rename_i hse
      simp only [Option.some.injEq] at hs
      subst hs
      rcases OrderedSet.mem_insert.1 he' with he' | rfl
      · simp only [edgesFrom, OrderedMap.getD] at he'
        cases hs' : g.bySite.get? e.site with
        | none => simp [hs'] at he'
        | some es' => rw [hse]; exact hg _ es' hs' e' (by simpa [hs'] using he')
      · exact hse.symm
    · exact hg s es hs e' he'

omit [DecidableEq μ] in
/-- Edges that are kept under their own call sites are listed once each. -/
theorem Grouped.nodup_edges {g : CallGraph μ σ} (hg : g.Grouped) : g.edges.Nodup := by
  refine List.nodup_flatMap.2 ⟨fun es _ => es.nodup, List.pairwise_map.2 ?_⟩
  refine (List.pairwise_map.1 g.bySite.nodup).imp_of_mem fun {a b} ha hb hne e hea heb => ?_
  -- an edge under two keys would have two call sites
  have hsa := hg a.1 a.2 (OrderedMap.mem_entries_iff.1 ha) e hea
  have hsb := hg b.1 b.2 (OrderedMap.mem_entries_iff.1 hb) e heb
  exact hne (hsa.symm.trans hsb)

omit [DecidableEq σ] in
@[simp] theorem edges_noteEntry (g : CallGraph μ σ) (m : μ) : (g.noteEntry m).edges = g.edges := rfl

omit [DecidableEq σ] in
@[simp] theorem mem_addReachable {g : CallGraph μ σ} {m m' : μ} :
    m' ∈ (g.addReachable m).reachable ↔ m' ∈ g.reachable ∨ m' = m := OrderedSet.mem_insert

omit [DecidableEq σ] in
@[simp] theorem reachable_noteEntry (g : CallGraph μ σ) (m : μ) :
    (g.noteEntry m).reachable = g.reachable := rfl

@[simp] theorem entries_addEdge (g : CallGraph μ σ) (e : CallEdge μ σ) :
    (g.addEdge e).entries = g.entries := by
  unfold addEdge
  split <;> rfl

@[simp] theorem reachable_addEdge (g : CallGraph μ σ) (e : CallEdge μ σ) :
    (g.addEdge e).reachable = g.reachable := by
  unfold addEdge
  split <;> rfl

end CallGraph

end ObjectFlow
