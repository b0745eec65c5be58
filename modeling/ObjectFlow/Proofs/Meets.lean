import Mathlib.Order.Bounds.Basic
import ObjectFlow.Proofs.Arithmetic
import ObjectFlow.Proofs.Facts
/-!
# Meeting values and facts

Values form a semilattice between nothing known and no single value, and a meet is the
least value that covers both. Facts are met variable by variable, the one in place and
the other only read. So what some facts meet to depends neither on their order nor on
how often each of them comes.
-/

namespace ObjectFlow

/-! ## Values -/

namespace Value

instance : SemilatticeSup Value where
  sup := meet
  le_sup_left := le_meet_left
  le_sup_right := le_meet_right
  sup_le _ _ _ := meet_le

theorem isLUB_meet (v w : Value) : IsLUB {v, w} (v.meet w) := isLUB_pair

theorem nac_meet (v : Value) : nac.meet v = nac := by cases v <;> rfl

end Value

/-- An operation with a neutral and an absorbing element, for which neither order nor repetition
counts. -/
structure Joining {α : Type} (op : α → α → α) (neutral absorbing : α) : Prop where
  assoc : ∀ a b c, op (op a b) c = op a (op b c)
  comm : ∀ a b, op a b = op b a
  idem : ∀ a, op a a = a
  neutral : ∀ a, op neutral a = a
  absorbing : ∀ a, op absorbing a = absorbing

namespace Value

theorem joining_meet : Joining meet undef nac :=
  ⟨sup_assoc, meet_comm, meet_self, undef_meet, nac_meet⟩

/-- Two integers meet to the word that both wrap to, or else to no single value. -/
theorem meet_ofInt (a b : Int) :
    (ofInt a).meet (ofInt b) = if wrap a = wrap b then ofInt a else nac := by
  have hword : Int32.ofInt a = Int32.ofInt b ↔ wrap a = wrap b := by
    rw [← Int32.toInt_inj, toInt_ofInt, toInt_ofInt]
  unfold ofInt meet
  simp only [hword]

end Value

/-! ## Facts without a bottom value -/

/-- No key has the bottom value written down. -/
def Fact.Sparse {κ α : Type} [DecidableEq κ] [Bottom α] (f : Fact κ α) : Prop :=
  ∀ k, f.bindings.get? k ≠ some Bottom.bottom

namespace Fact

variable {κ α : Type} [DecidableEq κ] [DecidableEq α] [Bottom α] {f : Fact κ α}

omit [DecidableEq α] in
theorem Sparse.empty : (∅ : Fact κ α).Sparse := by
  intro k hk
  cases hk

theorem Sparse.update (h : f.Sparse) (k : κ) (v : α) : (f.update k v).2.Sparse := by
  intro j hj
  unfold Fact.update at hj
  split at hj
  · rw [remove, OrderedMap.get?_erase] at hj
    split at hj
    · cases hj
    · exact h j hj
  · rename_i hv
    split at hj
    · exact h j hj
    · rw [OrderedMap.get?_insert] at hj
      split at hj
      · exact hv (Option.some.inj hj)
      · exact h j hj

theorem sparse_ofList (l : List (κ × α)) : (ofList l).Sparse := by
  have hall : ∀ f : Fact κ α, f.Sparse → (f.updateAll l).Sparse := by
    induction l with
    | nil => exact fun _ hf => hf
    | cons e l ih => exact fun f hf => ih _ (hf.update e.1 e.2)
  exact hall ∅ .empty

/-- Giving a key the value that it has changes nothing at all. -/
theorem Sparse.update_get (h : f.Sparse) (k : κ) : (f.update k (f.get k)).2 = f := by
  unfold Fact.update
  cases hk : f.bindings.get? k with
  | none =>
    have hfree : f.bindings.entries.filter (fun e => decide (e.1 ≠ k)) = f.bindings.entries := by
      apply List.filter_eq_self.2
      intro e he
      have hkeys := OrderedMap.get?_eq_none_iff.1 hk
      exact decide_eq_true fun hek => hkeys (hek ▸ List.mem_map_of_mem he)
    rw [get_of_get?_none hk, if_pos rfl, remove]
    exact congrArg mk (OrderedMap.ext hfree)
  | some v =>
    have hv : v ≠ Bottom.bottom := fun hv => h k (hv ▸ hk)
    rw [get_of_get? hk, if_neg hv, if_pos rfl]

end Fact

namespace ConstFact

variable {f g t : ConstFact} {fs gs : List ConstFact}

theorem sparse_meetFact (ht : t.Sparse) (f : ConstFact) : (Constants.meetFact f t).Sparse := by
  unfold Constants.meetFact
  generalize f.entries = es
  induction es generalizing t with
  | nil => exact ht
  | cons e es ih => exact ih (ht.update e.1 _)

theorem sparse_foldl_meetFact (ht : t.Sparse) (fs : List ConstFact) :
    (fs.foldl (fun t f => Constants.meetFact f t) t).Sparse := by
  induction fs generalizing t with
  | nil => exact ht
  | cons f fs ih => exact ih (sparse_meetFact ht f)

theorem tidy_of_sparse {V : List Var} (h : f.Sparse) (hV : f.keys ⊆ V) : Tidy V f := by
  intro k x hk
  refine ⟨?_, hV (OrderedMap.mem_keys_iff.2 ⟨x, hk⟩)⟩
  rintro rfl
  exact h k hk

/-- Facts that cover each other have the same bindings. -/
theorem sameAs_of_le_of_le (hf : f.Sparse) (hg : g.Sparse) (hfg : f ≤ g) (hgf : g ≤ f) :
    f.sameAs g := by
  have hf' : Tidy (f.keys ++ g.keys) f := tidy_of_sparse hf (List.subset_append_left _ _)
  have hg' : Tidy (f.keys ++ g.keys) g := tidy_of_sparse hg (List.subset_append_right _ _)
  exact sameAs_of_get_eq hf' hg' fun v => le_antisymm (hfg v) (hgf v)

/-- The meet of two facts is the least fact that covers both. -/
theorem isLUB_meetFact (f t : ConstFact) : IsLUB {f, t} (Constants.meetFact f t) := by
  constructor
  · rintro g (rfl | rfl)
    · exact meetFact_ge g t
    · exact le_meetFact f g
  · intro g hg
    exact meetFact_le (hg (.inl rfl)) (hg (.inr rfl))

/-- The meet of a list of facts is the least fact that covers all of them. -/
theorem isLUB_meetAll (fs : List ConstFact) : IsLUB {f | f ∈ fs} (Constants.meetAll fs) := by
  constructor
  · intro f hf
    exact mem_le_foldl_meetFact ∅ hf
  · intro g hg
    exact foldl_meetFact_le (empty_le g) hg

/-- Only which facts are met counts, not in what order they come or how often. -/
theorem meetAll_sameAs (h : ∀ f, f ∈ fs ↔ f ∈ gs) :
    (Constants.meetAll fs).sameAs (Constants.meetAll gs) := by
  have hset : {f | f ∈ fs} = {f | f ∈ gs} := Set.ext h
  have hfs := isLUB_meetAll fs
  rw [hset] at hfs
  have hgs := isLUB_meetAll gs
  exact sameAs_of_le_of_le (sparse_foldl_meetFact .empty fs) (sparse_foldl_meetFact .empty gs)
    (hfs.2 hgs.1) (hgs.2 hfs.1)

end ConstFact

/-! ## Meeting in place -/

namespace Constants

section
variable {ι : Type} [DecidableEq ι] {s : ι → ConstFact} {i j k : ι}

/-- Meets the fact in one place into the fact in another, binding by binding. -/
def meetInto (s : ι → ConstFact) (i j : ι) : ι → ConstFact :=
  (s i).entries.foldl
    (fun s e => Function.update s j ((s j).update e.1 (e.2.meet ((s j).get e.1))).2) s

theorem foldl_update_place (es : List (Var × Value)) (s : ι → ConstFact) (j : ι) :
    es.foldl (fun s e => Function.update s j ((s j).update e.1 (e.2.meet ((s j).get e.1))).2) s =
      Function.update s j
        (es.foldl (fun t e => (t.update e.1 (e.2.meet (t.get e.1))).2) (s j)) := by
  induction es generalizing s with
  | nil => exact (Function.update_eq_self j s).symm
  | cons e es ih =>
    rw [List.foldl_cons, ih, Function.update_self, Function.update_idem]
    rfl

/-- Only the second fact is written. -/
theorem meetInto_eq (s : ι → ConstFact) (i j : ι) :
    meetInto s i j = Function.update s j (meetFact (s i) (s j)) := foldl_update_place _ s j

/-- A fact that is met into itself stays as it is, to the order of its bindings. -/
theorem meetFact_self {f : ConstFact} (hf : f.Sparse) : meetFact f f = f := by
  have hkeep : ∀ es : List (Var × Value), (∀ e ∈ es, f.get e.1 = e.2) →
      es.foldl (fun t e => (t.update e.1 (e.2.meet (t.get e.1))).2) f = f := by
    intro es
    induction es with
    | nil => exact fun _ => rfl
    | cons e es ih =>
      intro hes
      have he : e.2.meet (f.get e.1) = f.get e.1 := by
        rw [hes e List.mem_cons_self, Value.meet_self]
      rw [List.foldl_cons, he, hf.update_get]
      exact ih fun e' he' => hes e' (List.mem_cons_of_mem _ he')
  apply hkeep
  intro e he
  exact Fact.get_of_get? (OrderedMap.mem_entries_iff.1 he)

/-- What has come about when one fact was met into another, which may be the same one. -/
structure MetInto (s s' : ι → ConstFact) (i j : ι) : Prop where
  target : s' j = meetFact (s i) (s j)
  value : ∀ v, (s' j).get v = ((s i).get v).meet ((s j).get v)
  least : IsLUB {s i, s j} (s' j)
  sparse : (s' j).Sparse
  source : s' i = s i
  others : ∀ k, k ≠ j → s' k = s k

theorem metInto_meetInto (hi : (s i).Sparse) (hj : (s j).Sparse) :
    MetInto s (meetInto s i j) i j := by
  have htarget : meetInto s i j j = meetFact (s i) (s j) := by
    rw [meetInto_eq, Function.update_self]
  have hothers : ∀ k, k ≠ j → meetInto s i j k = s k := by
    intro k hk
    rw [meetInto_eq, Function.update_of_ne hk]
  refine ⟨htarget, ?_, ?_, ?_, ?_, hothers⟩
  · intro v
    rw [htarget, ConstFact.get_meetFact]
  · rw [htarget]
    exact ConstFact.isLUB_meetFact _ _
  · rw [htarget]
    exact ConstFact.sparse_meetFact hj _
  · by_cases hij : i = j
    · subst hij
      rw [htarget, meetFact_self hi]
    · exact hothers i hij

end

/-- A meet of values is their least upper bound, with nothing known as neutral and no single value
as absorbing element, and integers count as the words that they wrap to. Meeting a fact into
another gives each variable the meet of its two values, writes no bottom value down, and changes no
other fact. What a list of facts meets to depends only on which facts are in it. -/
theorem meets_join :
    (Joining Value.meet .undef .nac ∧ (∀ v w : Value, IsLUB {v, w} (v.meet w)) ∧
      ∀ a b : Int, (Value.ofInt a).meet (.ofInt b) = if wrap a = wrap b then .ofInt a else .nac) ∧
    (∀ {ι : Type} [DecidableEq ι] (s : ι → ConstFact) (i j : ι), (s i).Sparse → (s j).Sparse →
      MetInto s (meetInto s i j) i j) ∧
    ∀ fs gs : List ConstFact, (∀ f, f ∈ fs ↔ f ∈ gs) → (meetAll fs).sameAs (meetAll gs) := by
  refine ⟨⟨Value.joining_meet, Value.isLUB_meet, Value.meet_ofInt⟩, ?_, ?_⟩
  · intro ι _ s i j hi hj
    exact metInto_meetInto hi hj
  · intro fs gs h
    exact ConstFact.meetAll_sameAs h

/-! ### The end of a branch -/

namespace Branches

def main : Method := ⟨0, ⟨0, "A"⟩, ⟨"main", [], .void⟩, true, false, false⟩

def x : Var := ⟨0, "x", .primitive .int, main⟩

def y : Var := ⟨1, "y", .primitive .int, main⟩

def left : ConstFact := .ofList [(x, .const 1), (y, .const 5)]

def right : ConstFact := .ofList [(x, .const 2)]

/-- The facts at the ends of two branches, the left one in the first place. -/
def ends (isLeft : Bool) : ConstFact := if isLeft then left else right

/-- Behind the branches one variable has the value that it got on the left, and the other has no
single value, in whatever order the branches are looked at. -/
theorem meets_join_branches :
    (left.Sparse ∧ right.Sparse ∧ ∀ f, f ∈ [left, right] ↔ f ∈ [right, left, right]) ∧
    MetInto ends (meetInto ends true false) true false ∧
    (meetInto ends true false false).get x = .nac ∧
    (meetInto ends true false false).get y = .const 5 ∧
    (meetAll [left, right]).sameAs (meetAll [right, left, right]) := by
  have hleft : left.Sparse := Fact.sparse_ofList _
  have hright : right.Sparse := Fact.sparse_ofList _
  have hsame : ∀ f, f ∈ [left, right] ↔ f ∈ [right, left, right] := by
    intro f
    simp only [List.mem_cons, List.not_mem_nil, or_false]
    tauto
  obtain ⟨-, hmet, hall⟩ := meets_join
  exact ⟨⟨hleft, hright, hsame⟩, hmet ends true false hleft hright, by decide, by decide,
    hall _ _ hsame⟩

end Branches

end Constants

end ObjectFlow
