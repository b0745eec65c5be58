import Mathlib.Algebra.GroupWithZero.Nat
import Mathlib.Algebra.Order.BigOperators.Group.List
import Mathlib.Algebra.Order.Group.Nat
import ObjectFlow.Constants.Propagation
import ObjectFlow.Proofs.Containers
/-!
# The order of values and facts

Nothing known lies below each constant, and each constant below no single value.
Facts are compared key by key. The operations on facts respect the order, and a
fact about finitely many variables can rise only finitely often.
-/

namespace ObjectFlow

/-! ## Values -/

namespace Value

/-- The second value covers the first. -/
instance : LE Value := ⟨fun v w => v = undef ∨ v = w ∨ w = nac⟩

instance : PartialOrder Value where
  le_refl v := .inr (.inl rfl)
  le_trans a b c := by
    rintro (rfl | rfl | rfl) hbc
    · exact .inl rfl
    · exact hbc
    · rcases hbc with h | rfl | rfl
      · cases h
      · exact .inr (.inr rfl)
      · exact .inr (.inr rfl)
  le_antisymm a b := by
    rintro (rfl | rfl | rfl) (h | h | h) <;> first | rfl | exact h | exact h.symm | cases h

theorem undef_le (v : Value) : undef ≤ v := .inl rfl

theorem le_nac (v : Value) : v ≤ nac := .inr (.inr rfl)

theorem undef_meet (v : Value) : undef.meet v = v := by cases v <;> rfl

theorem meet_undef (v : Value) : v.meet undef = v := by cases v <;> rfl

theorem meet_self (v : Value) : v.meet v = v := by
  cases v with
  | const n => exact if_pos rfl
  | _ => rfl

theorem le_meet_left (v w : Value) : v ≤ v.meet w := by
  unfold meet
  split
  · exact le_refl _
  · exact le_nac v
  · exact undef_le _
  · exact le_refl v
  · split
    · exact le_refl _
    · exact le_nac _

theorem le_meet_right (v w : Value) : w ≤ v.meet w := by
  unfold meet
  split
  · exact le_nac w
  · exact le_refl _
  · exact le_refl w
  · exact undef_le _
  · split
    · rename_i h
      rw [h]
    · exact le_nac _

theorem meet_le {v w x : Value} (hv : v ≤ x) (hw : w ≤ x) : v.meet w ≤ x := by
  rcases hv with rfl | rfl | rfl
  · rwa [undef_meet]
  · rcases hw with rfl | rfl | rfl
    · rw [meet_undef]
    · rw [meet_self]
    · exact le_nac _
  · exact le_nac _

theorem meet_comm (v w : Value) : v.meet w = w.meet v :=
  le_antisymm (meet_le (le_meet_right w v) (le_meet_left w v))
    (meet_le (le_meet_right v w) (le_meet_left v w))

/-- A meet rises with both values. -/
theorem meet_mono {v v' w w' : Value} (hv : v ≤ v') (hw : w ≤ w') : v.meet w ≤ v'.meet w' :=
  meet_le (hv.trans (le_meet_left v' w')) (hw.trans (le_meet_right v' w'))

/-- How often a value can still rise. -/
def room : Value → Nat
  | undef => 2
  | const _ => 1
  | nac => 0

theorem room_le {v w : Value} (h : v ≤ w) : w.room ≤ v.room := by
  rcases h with rfl | rfl | rfl
  · cases w <;> simp [room]
  · exact Nat.le_refl _
  · exact Nat.zero_le _

theorem room_lt {v w : Value} (h : v ≤ w) (hne : v ≠ w) : w.room < v.room := by
  rcases h with rfl | rfl | rfl
  · cases w with
    | undef => exact absurd rfl hne
    | const n => simp [room]
    | nac => simp [room]
  · exact absurd rfl hne
  · cases v with
    | nac => exact absurd rfl hne
    | const n => simp [room]
    | undef => simp [room]

end Value

/-! ## Facts -/

namespace Fact

variable {κ α : Type} [DecidableEq κ] [DecidableEq α] [Bottom α]

omit [DecidableEq α] in
theorem get_of_get? {f : Fact κ α} {k : κ} {v : α} (h : f.bindings.get? k = some v) :
    f.get k = v := OrderedMap.getD_of_get? h

omit [DecidableEq α] in
theorem get_of_get?_none {f : Fact κ α} {k : κ} (h : f.bindings.get? k = none) :
    f.get k = Bottom.bottom := by
  rw [get, OrderedMap.getD, h]
  rfl

theorem get_remove (f : Fact κ α) (k j : κ) :
    (f.remove k).2.get j = if j = k then Bottom.bottom else f.get j := OrderedMap.getD_erase _ _ _ _

theorem get_update (f : Fact κ α) (k j : κ) (v : α) :
    (f.update k v).2.get j = if j = k then v else f.get j := by
  unfold update
  split
  · rename_i hv
    rw [get_remove, hv]
  · split
    · rename_i hv
      by_cases hj : j = k
      · subst hj
        rw [if_pos rfl]
        exact get_of_get? hv
      · rw [if_neg hj]
    · exact OrderedMap.getD_insert _ _ _ _ _

omit [Bottom α] in
theorem sameAs_refl (f : Fact κ α) : f.sameAs f := f.bindings.sameAs_refl

theorem get_eq_of_sameAs {f g : Fact κ α} (h : f.sameAs g) (k : κ) : f.get k = g.get k := by
  unfold get OrderedMap.getD
  rw [OrderedMap.get?_eq_of_sameAs h]

end Fact

namespace ConstFact

variable {f g : ConstFact} {V : List Var}

/-- Every variable has a value that covers the one it has in the first fact. -/
instance : LE ConstFact := ⟨fun f g => ∀ v, f.get v ≤ g.get v⟩

instance : Preorder ConstFact where
  le_refl f v := le_refl (f.get v)
  le_trans f g h hfg hgh v := le_trans (hfg v) (hgh v)

theorem empty_le (f : ConstFact) : ∅ ≤ f := fun _ => Value.undef_le _

theorem update_mono {v w : Value} (hfg : f ≤ g) (hvw : v ≤ w) (k : Var) :
    (f.update k v).2 ≤ (g.update k w).2 := by
  intro j
  rw [Fact.get_update, Fact.get_update]
  split
  · exact hvw
  · exact hfg j

theorem le_update_nac (f : ConstFact) (k : Var) : f ≤ (f.update k .nac).2 := by
  intro j
  rw [Fact.get_update]
  split
  · exact Value.le_nac _
  · exact le_refl _

theorem remove_le (f : ConstFact) (k : Var) : (f.remove k).2 ≤ f := by
  intro j
  rw [Fact.get_remove]
  split
  · exact Value.undef_le _
  · exact le_refl _

theorem remove_mono (hfg : f ≤ g) (k : Var) : (f.remove k).2 ≤ (g.remove k).2 := by
  intro j
  rw [Fact.get_remove, Fact.get_remove]
  split
  · exact le_refl _
  · exact hfg j

/-- Values that are computed for the same keys. -/
theorem updateAll_mono {β : Type} {key : β → Var} {x y : β → Value} (l : List β)
    (hfg : f ≤ g) (hxy : ∀ b ∈ l, x b ≤ y b) :
    f.updateAll (l.map fun b => (key b, x b)) ≤ g.updateAll (l.map fun b => (key b, y b)) := by
  induction l generalizing f g with
  | nil => exact hfg
  | cons b l ih =>
    exact ih (update_mono hfg (hxy b List.mem_cons_self) (key b))
      fun b' hb' => hxy b' (List.mem_cons_of_mem _ hb')

/-- Values for keys that may have any value. -/
theorem updateAll_le (hfg : f ≤ g) {l : List (Var × Value)} (hl : ∀ e ∈ l, g.get e.1 = .nac) :
    f.updateAll l ≤ g := by
  induction l generalizing f with
  | nil => exact hfg
  | cons e l ih =>
    refine ih (fun j => ?_) fun e' he' => hl e' (List.mem_cons_of_mem _ he')
    rw [Fact.get_update]
    split
    · rename_i hj
      rw [hj, hl e List.mem_cons_self]
      exact Value.le_nac _
    · exact hfg j

/-! ### Meets -/

theorem get_meetFact (f t : ConstFact) (v : Var) :
    (Constants.meetFact f t).get v = (f.get v).meet (t.get v) := by
  have hsame : ∀ (t : ConstFact) (x : Value),
      (t.update v (x.meet (t.get v))).2.get v = x.meet (t.get v) := fun t x => by
    rw [Fact.get_update, if_pos rfl]
  have hother : ∀ (t : ConstFact) (e : Var × Value), e.1 ≠ v →
      (t.update e.1 (e.2.meet (t.get e.1))).2.get v = t.get v := fun t e he => by
    rw [Fact.get_update, if_neg (Ne.symm he)]
  refine (OrderedMap.read_foldl_entries (fun t => t.get v) Value.meet hsame hother
    f.bindings t).trans ?_
  cases hv : f.bindings.get? v with
  | some x =>
    rw [Fact.get_of_get? hv]
    rfl
  | none =>
    rw [Fact.get_of_get?_none hv]
    exact (Value.undef_meet _).symm

theorem get_foldl_meetFact (fs : List ConstFact) (t : ConstFact) (v : Var) :
    (fs.foldl (fun t f => Constants.meetFact f t) t).get v =
      (fs.map fun f => f.get v).foldl Value.meet (t.get v) := by
  induction fs generalizing t with
  | nil => rfl
  | cons f fs ih =>
    rw [List.foldl_cons, ih, get_meetFact, Value.meet_comm, List.map_cons, List.foldl_cons]

theorem meetFact_mono {f f' t t' : ConstFact} (hf : f ≤ f') (ht : t ≤ t') :
    Constants.meetFact f t ≤ Constants.meetFact f' t' := by
  intro v
  rw [get_meetFact, get_meetFact]
  exact Value.meet_mono (hf v) (ht v)

theorem le_meetFact (f t : ConstFact) : t ≤ Constants.meetFact f t := by
  intro v
  rw [get_meetFact]
  exact Value.le_meet_right _ _

theorem meetFact_ge (f t : ConstFact) : f ≤ Constants.meetFact f t := by
  intro v
  rw [get_meetFact]
  exact Value.le_meet_left _ _

theorem meetFact_le {t : ConstFact} (hf : f ≤ g) (ht : t ≤ g) : Constants.meetFact f t ≤ g := by
  intro v
  rw [get_meetFact]
  exact Value.meet_le (hf v) (ht v)

theorem foldl_meetFact_le {fs : List ConstFact} {t : ConstFact} (ht : t ≤ g)
    (hfs : ∀ f ∈ fs, f ≤ g) : fs.foldl (fun t f => Constants.meetFact f t) t ≤ g := by
  induction fs generalizing t with
  | nil => exact ht
  | cons f fs ih =>
    apply ih (meetFact_le (hfs f List.mem_cons_self) ht)
    exact fun f' hf' => hfs f' (List.mem_cons_of_mem _ hf')

theorem foldl_meetFact_mono {fs fs' : List ConstFact} {t t' : ConstFact}
    (h : List.Forall₂ (· ≤ ·) fs fs') (ht : t ≤ t') :
    fs.foldl (fun t f => Constants.meetFact f t) t ≤
      fs'.foldl (fun t f => Constants.meetFact f t) t' := by
  induction h generalizing t t' with
  | nil => exact ht
  | cons hf _ ih => exact ih (meetFact_mono hf ht)

theorem le_foldl_meetFact (fs : List ConstFact) (t : ConstFact) :
    t ≤ fs.foldl (fun t f => Constants.meetFact f t) t := by
  induction fs generalizing t with
  | nil => exact le_refl t
  | cons f fs ih => exact (le_meetFact f t).trans (ih _)

theorem mem_le_foldl_meetFact {fs : List ConstFact} (t : ConstFact) (h : f ∈ fs) :
    f ≤ fs.foldl (fun t f => Constants.meetFact f t) t := by
  induction fs generalizing t with
  | nil => cases h
  | cons f' fs ih =>
    rcases List.mem_cons.1 h with rfl | h
    · exact (meetFact_ge f t).trans (le_foldl_meetFact fs _)
    · exact ih _ h

/-! ### Facts about finitely many variables -/

/-- A fact that speaks of the variables of a list alone and writes no bottom value down. -/
def Tidy (V : List Var) (f : ConstFact) : Prop :=
  ∀ k x, f.bindings.get? k = some x → x ≠ .undef ∧ k ∈ V

theorem Tidy.empty : Tidy V ∅ := fun k x h => by cases h

theorem Tidy.remove (h : Tidy V f) (k : Var) : Tidy V (f.remove k).2 := by
  intro j x hj
  rw [Fact.remove, OrderedMap.get?_erase] at hj
  split at hj
  · cases hj
  · exact h j x hj

theorem Tidy.update (h : Tidy V f) {k : Var} (hk : k ∈ V) (x : Value) :
    Tidy V (f.update k x).2 := by
  unfold Fact.update
  split
  · exact h.remove k
  · rename_i hx
    split
    · exact h
    · intro j y hj
      rw [OrderedMap.get?_insert] at hj
      split at hj
      · rename_i hjk
        obtain rfl := Option.some.inj hj
        exact ⟨hx, hjk ▸ hk⟩
      · exact h j y hj

theorem Tidy.updateAll (h : Tidy V f) {l : List (Var × Value)} (hl : ∀ e ∈ l, e.1 ∈ V) :
    Tidy V (f.updateAll l) := by
  induction l generalizing f with
  | nil => exact h
  | cons e l ih =>
    exact ih (h.update (hl e List.mem_cons_self) e.2)
      fun e' he' => hl e' (List.mem_cons_of_mem _ he')

theorem Tidy.meetFact {t : ConstFact} (h : Tidy V f) (ht : Tidy V t) :
    Tidy V (Constants.meetFact f t) := by
  have hkeys : ∀ e ∈ f.entries, e.1 ∈ V := fun e he =>
    (h e.1 e.2 (OrderedMap.mem_entries_iff.1 he)).2
  unfold Constants.meetFact
  generalize f.entries = es at hkeys
  induction es generalizing t with
  | nil => exact ht
  | cons e es ih =>
    exact ih (ht.update (hkeys e List.mem_cons_self) _)
      fun e' he' => hkeys e' (List.mem_cons_of_mem _ he')

theorem Tidy.foldl_meetFact {t : ConstFact} (fs : List ConstFact) (h : ∀ f ∈ fs, Tidy V f)
    (ht : Tidy V t) : Tidy V (fs.foldl (fun t f => Constants.meetFact f t) t) := by
  induction fs generalizing t with
  | nil => exact ht
  | cons f fs ih =>
    exact ih (fun f' hf' => h f' (List.mem_cons_of_mem _ hf'))
      ((h f List.mem_cons_self).meetFact ht)

/-- What a tidy fact binds is bound by every fact that gives the same values. -/
theorem get?_of_get_eq {k : Var} {x : Value} (hf : Tidy V f) (h : ∀ v, f.get v = g.get v)
    (hk : f.bindings.get? k = some x) : g.bindings.get? k = some x := by
  have hx := (hf k x hk).1
  have hget := (h k).symm.trans (Fact.get_of_get? hk)
  cases hg : g.bindings.get? k with
  | none =>
    rw [Fact.get_of_get?_none hg] at hget
    exact absurd hget.symm hx
  | some y => rw [← Fact.get_of_get? hg, hget]

/-- Tidy facts that give every variable the same value have the same bindings. -/
theorem sameAs_of_get_eq (hf : Tidy V f) (hg : Tidy V g) (h : ∀ v, f.get v = g.get v) :
    f.sameAs g :=
  OrderedMap.sameAs_of_get?_eq fun _ => Option.ext fun _ =>
    ⟨get?_of_get_eq hf h, get?_of_get_eq hg fun v => (h v).symm⟩

/-- How often the values of the variables of a list can still rise. -/
def room (V : List Var) (f : ConstFact) : Nat := (V.map fun v => (f.get v).room).sum

theorem room_le (h : f ≤ g) : room V g ≤ room V f :=
  List.sum_le_sum fun v _ => Value.room_le (h v)

/-- A tidy fact that rises to another one has less room left. -/
theorem room_lt (hf : Tidy V f) (hg : Tidy V g) (h : f ≤ g) (hne : ¬ f.sameAs g) :
    room V g < room V f := by
  obtain ⟨v, hv⟩ : ∃ v, f.get v ≠ g.get v := by
    by_contra hall
    exact hne (sameAs_of_get_eq hf hg fun v => not_not.1 (not_exists.1 hall v))
  have hin : v ∈ V := by
    cases hb : g.bindings.get? v with
    | some x => exact (hg v x hb).2
    | none =>
      have hgv : g.get v = .undef := Fact.get_of_get?_none hb
      rcases h v with hf' | heq | hnac
      · exact absurd (hf'.trans hgv.symm) hv
      · exact absurd heq hv
      · rw [hgv] at hnac
        cases hnac
  exact List.sum_lt_sum _ _ (fun v _ => Value.room_le (h v)) ⟨v, hin, Value.room_lt (h v) hv⟩

end ConstFact

end ObjectFlow
