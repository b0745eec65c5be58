import Mathlib.Logic.Function.Basic
import ObjectFlow.Proofs.Meets
/-!
# Facts as objects

Facts are made, copied and changed in place. Each has its bindings in a cell that no other fact
has, so what is done to one fact is not seen in another. Since no key has the bottom value
written down, facts with the same values have the same bindings, and an operation can tell
whether it changed anything.
-/

namespace ObjectFlow

/-! ## Values and bindings -/

namespace Fact

variable {κ α : Type} [DecidableEq κ] [DecidableEq α] [Bottom α] {f g : Fact κ α}

/-- What is written down for a key follows from its value. -/
theorem Sparse.get?_eq (h : f.Sparse) (k : κ) :
    f.bindings.get? k = if f.get k = Bottom.bottom then none else some (f.get k) := by
  cases hk : f.bindings.get? k with
  | none => rw [if_pos (get_of_get?_none hk)]
  | some v =>
    have hv : v ≠ Bottom.bottom := fun hv => h k (hv ▸ hk)
    rw [get_of_get? hk, if_neg hv]

/-- Facts are the same if every key has the same value. -/
theorem Sparse.sameAs_iff (hf : f.Sparse) (hg : g.Sparse) :
    f.sameAs g = true ↔ ∀ k, f.get k = g.get k := by
  refine ⟨get_eq_of_sameAs, fun h => OrderedMap.sameAs_of_get?_eq fun k => ?_⟩
  rw [hf.get?_eq, hg.get?_eq, h]

theorem remove_answer (f : Fact κ α) (k : κ) :
    (f.remove k).1 = true ↔ f.get k ≠ Bottom.bottom := decide_eq_true_iff

/-- An update tells whether the key had another value. -/
theorem Sparse.update_answer (h : f.Sparse) (k : κ) (v : α) :
    (f.update k v).1 = true ↔ f.get k ≠ v := by
  unfold Fact.update
  by_cases hv : v = Bottom.bottom
  · subst hv
    rw [if_pos rfl, remove_answer]
  · rw [if_neg hv]
    by_cases hk : f.bindings.get? k = some v
    · rw [if_pos hk, get_of_get? hk]
      simp
    · rw [if_neg hk]
      refine iff_of_true rfl fun hget => hk ?_
      rw [h.get?_eq, hget, if_neg hv]

theorem update_bottom (f : Fact κ α) (k : κ) : f.update k Bottom.bottom = f.remove k := if_pos rfl

theorem Sparse.remove (h : f.Sparse) (k : κ) : (f.remove k).2.Sparse :=
  update_bottom f k ▸ h.update k Bottom.bottom

theorem get_replaceBy (f g : Fact κ α) (k : κ) : (f.replaceBy g).2.get k = g.get k := by
  unfold replaceBy
  split
  · rename_i h
    exact get_eq_of_sameAs h k
  · rfl

/-- Taking other bindings tells whether some key had another value. -/
theorem Sparse.replaceBy_answer (hf : f.Sparse) (hg : g.Sparse) :
    (f.replaceBy g).1 = true ↔ ∃ k, g.get k ≠ f.get k := by
  have hsame : f.sameAs g = true ↔ ¬ ∃ k, g.get k ≠ f.get k := by
    rw [hf.sameAs_iff hg, not_exists]
    exact forall_congr' fun k => by rw [not_not, eq_comm]
  unfold replaceBy
  split
  · rename_i h
    exact iff_of_false Bool.false_ne_true (hsame.1 h)
  · rename_i h
    exact iff_of_true rfl (not_not.1 fun hall => h (hsame.2 hall))

/-- A fact takes over the values of a map. -/
theorem get_ofList_entries (m : OrderedMap κ α) (k : κ) :
    (ofList m.entries).get k = m.getD k Bottom.bottom := by
  have hsame : ∀ (f : Fact κ α) v, (f.update k v).2.get k = v := fun f v => by
    rw [get_update, if_pos rfl]
  have hother : ∀ (f : Fact κ α) (e : κ × α), e.1 ≠ k → (f.update e.1 e.2).2.get k = f.get k :=
    fun f e he => by rw [get_update, if_neg (Ne.symm he)]
  refine (OrderedMap.read_foldl_entries (fun f : Fact κ α => f.get k) (fun v _ => v) hsame hother m
    ∅).trans ?_
  unfold OrderedMap.getD
  cases m.get? k <;> rfl

end Fact

/-! ## Cells -/

/-- Facts as objects. The bindings of a fact are what its cell holds. -/
structure FactStore (ι κ α : Type) where
  cell? : ι → Option Nat
  cells : Nat → Fact κ α
  /-- No cell from this number on has been given out. -/
  next : Nat

/-- What can be done to facts. -/
inductive FactRequest (ι κ α : Type) where
  | make (i : ι) (m : OrderedMap κ α)
  | update (i : ι) (k : κ) (v : α)
  | remove (i : ι) (k : κ)
  /-- The first fact is made as a copy of the second. -/
  | copy (i j : ι)
  /-- The first fact takes the bindings of the second. -/
  | copyFrom (i j : ι)

/-- The fact that a request is for. -/
def FactRequest.target {ι κ α : Type} : FactRequest ι κ α → ι
  | make i _ | update i _ _ | remove i _ | copy i _ | copyFrom i _ => i

namespace FactStore

variable {ι κ α : Type}

def empty : FactStore ι κ α := ⟨fun _ => none, fun _ => ∅, 0⟩

def fact? (s : FactStore ι κ α) (i : ι) : Option (Fact κ α) := (s.cell? i).map s.cells

/-- Changes what a cell holds. -/
def write (s : FactStore ι κ α) (c : Nat) (f : Fact κ α) : FactStore ι κ α :=
  { s with cells := Function.update s.cells c f }

variable [DecidableEq ι]

/-- Gives a fact a new cell. -/
def put (s : FactStore ι κ α) (i : ι) (f : Fact κ α) : FactStore ι κ α where
  cell? := Function.update s.cell? i (some s.next)
  cells := Function.update s.cells s.next f
  next := s.next + 1

variable [DecidableEq κ] [DecidableEq α] [Bottom α]

/-- Changes a fact in its cell, if it was made. -/
def change (s : FactStore ι κ α) (i : ι) (op : Fact κ α → Bool × Fact κ α) :
    Option Bool × FactStore ι κ α :=
  match s.cell? i with
  | none => (none, s)
  | some c => (some (op (s.cells c)).1, s.write c (op (s.cells c)).2)

/-- What a request answers and leaves behind. A fact that is made or takes other bindings gets a new
cell. Nothing happens if a fact was not made. -/
def step (s : FactStore ι κ α) : FactRequest ι κ α → Option Bool × FactStore ι κ α
  | .make i m => (none, s.put i (.ofList m.entries))
  | .update i k v => s.change i (·.update k v)
  | .remove i k => s.change i (·.remove k)
  | .copy i j =>
    match s.cell? j with
    | none => (none, s)
    | some d => (none, s.put i (s.cells d))
  | .copyFrom i j =>
    match s.cell? i, s.cell? j with
    | some c, some d =>
      match (s.cells c).replaceBy (s.cells d) with
      | (false, _) => (some false, s)
      | (true, f) => (some true, s.put i f)
    | _, _ => (none, s)

def run (s : FactStore ι κ α) (rs : List (FactRequest ι κ α)) : FactStore ι κ α :=
  rs.foldl (fun s r => (s.step r).2) s

/-! ## Facts as values -/

/-- What a request answers and what it makes of its fact, where facts are values. -/
def result? (facts : ι → Option (Fact κ α)) : FactRequest ι κ α → Option (Option Bool × Fact κ α)
  | .make _ m => some (none, .ofList m.entries)
  | .update i k v => (facts i).map fun f => (some (f.update k v).1, (f.update k v).2)
  | .remove i k => (facts i).map fun f => (some (f.remove k).1, (f.remove k).2)
  | .copy _ j => (facts j).map fun g => (none, g)
  | .copyFrom i j =>
    (facts i).bind fun f => (facts j).map fun g => (some (f.replaceBy g).1, (f.replaceBy g).2)

/-- An answer and a store that are the result of a request for one fact, where no other fact
changes. -/
def Yields (s : FactStore ι κ α) (i : ι) (result : Option (Option Bool × Fact κ α))
    (out : Option Bool × FactStore ι κ α) : Prop :=
  match result with
  | none => out = (none, s)
  | some (b, f) => out.1 = b ∧ ∀ j, out.2.fact? j = if j = i then some f else s.fact? j

/-- Each fact has a cell of its own that was given out. -/
structure Apart (s : FactStore ι κ α) : Prop where
  own : ∀ i j c, s.cell? i = some c → s.cell? j = some c → i = j
  given : ∀ i c, s.cell? i = some c → c < s.next

variable {s : FactStore ι κ α} {i j : ι} {c : Nat} {f g : Fact κ α} {k : κ} {v : α}
  {r : FactRequest ι κ α}

omit [DecidableEq ι] [DecidableEq κ] [DecidableEq α] [Bottom α] in
theorem fact?_of_cell? (h : s.cell? i = some c) : s.fact? i = some (s.cells c) := by
  rw [fact?, h, Option.map_some]

omit [DecidableEq ι] [DecidableEq κ] [DecidableEq α] [Bottom α] in
theorem fact?_of_cell?_none (h : s.cell? i = none) : s.fact? i = none := by
  rw [fact?, h, Option.map_none]

omit [DecidableEq ι] [DecidableEq κ] [DecidableEq α] [Bottom α] in
theorem apart_empty : (empty : FactStore ι κ α).Apart := ⟨nofun, nofun⟩

omit [DecidableEq κ] [DecidableEq α] [Bottom α] in
theorem cell?_put (s : FactStore ι κ α) (i j : ι) (f : Fact κ α) :
    (s.put i f).cell? j = if j = i then some s.next else s.cell? j := Function.update_apply ..

omit [DecidableEq κ] [DecidableEq α] [Bottom α] in
theorem Apart.put (h : s.Apart) (i : ι) (f : Fact κ α) : (s.put i f).Apart := by
  -- the new cell is no old one
  have hnew : ∀ j, s.cell? j ≠ some s.next := fun j hj => Nat.lt_irrefl _ (h.given j _ hj)
  constructor
  · intro a b c ha hb
    rw [cell?_put] at ha hb
    split at ha <;> split at hb
    · simp [*]
    · exact absurd (hb.trans ha.symm) (hnew b)
    · exact absurd (ha.trans hb.symm) (hnew a)
    · exact h.own a b c ha hb
  · intro a c ha
    rw [cell?_put] at ha
    split at ha
    · obtain rfl := Option.some.inj ha
      exact Nat.lt_succ_self _
    · exact Nat.lt_succ_of_lt (h.given a c ha)

omit [DecidableEq κ] [DecidableEq α] [Bottom α] in
theorem Apart.fact?_put (h : s.Apart) (i j : ι) (f : Fact κ α) :
    (s.put i f).fact? j = if j = i then some f else s.fact? j := by
  unfold fact?
  rw [cell?_put]
  by_cases hj : j = i
  · rw [if_pos hj, if_pos hj, Option.map_some]
    exact congrArg some (Function.update_self ..)
  · rw [if_neg hj, if_neg hj]
    refine Option.map_congr fun c hc => Function.update_of_ne ?_ ..
    exact Nat.ne_of_lt (h.given j c hc)

omit [DecidableEq ι] [DecidableEq κ] [DecidableEq α] [Bottom α] in
theorem Apart.write (h : s.Apart) (c : Nat) (f : Fact κ α) : (s.write c f).Apart := ⟨h.own, h.given⟩

omit [DecidableEq κ] [DecidableEq α] [Bottom α] in
/-- Only the fact that has the cell sees that it holds something else. -/
theorem Apart.fact?_write (h : s.Apart) (hc : s.cell? i = some c) (j : ι) (f : Fact κ α) :
    (s.write c f).fact? j = if j = i then some f else s.fact? j := by
  by_cases hj : j = i
  · rw [if_pos hj, hj, fact?_of_cell? (c := c) (show (s.write c f).cell? i = some c from hc)]
    exact congrArg some (Function.update_self ..)
  · rw [if_neg hj]
    refine Option.map_congr fun d hd => Function.update_of_ne ?_ ..
    rintro rfl
    exact hj (h.own j i d hd hc)

omit [DecidableEq κ] [DecidableEq α] [Bottom α] in
theorem Apart.change (h : s.Apart) (i : ι) (op : Fact κ α → Bool × Fact κ α) :
    (s.change i op).2.Apart ∧
      s.Yields i ((s.fact? i).map fun f => (some (op f).1, (op f).2)) (s.change i op) := by
  cases hc : s.cell? i with
  | none =>
    simp only [FactStore.change, hc, fact?_of_cell?_none hc, Option.map_none, Yields]
    exact ⟨h, trivial⟩
  | some c =>
    simp only [FactStore.change, hc, fact?_of_cell? hc, Option.map_some, Yields]
    exact ⟨h.write c _, trivial, fun j => h.fact?_write hc j _⟩

/-- With cells of their own, facts behave as values: the result is the one that the values give, and
it is seen by one fact only. -/
theorem Apart.step (h : s.Apart) (r : FactRequest ι κ α) :
    (s.step r).2.Apart ∧ s.Yields r.target (result? s.fact? r) (s.step r) := by
  cases r with
  | make i m => exact ⟨h.put i _, rfl, fun j => h.fact?_put i j _⟩
  | update i k v => exact h.change i _
  | remove i k => exact h.change i _
  | copy i j =>
    cases hd : s.cell? j with
    | none =>
      simp only [FactStore.step, result?, hd, fact?_of_cell?_none hd, Option.map_none, Yields]
      exact ⟨h, trivial⟩
    | some d =>
      simp only [FactStore.step, result?, hd, fact?_of_cell? hd, Option.map_some, Yields]
      exact ⟨h.put i _, trivial, fun a => h.fact?_put i a _⟩
  | copyFrom i j =>
    cases hc : s.cell? i with
    | none =>
      simp only [FactStore.step, result?, hc, fact?_of_cell?_none hc, Option.bind_none, Yields]
      exact ⟨h, trivial⟩
    | some c =>
      cases hd : s.cell? j with
      | none =>
        simp only [FactStore.step, result?, hc, hd, fact?_of_cell? hc, fact?_of_cell?_none hd,
          Option.map_none, Option.bind_some, Yields]
        exact ⟨h, trivial⟩
      | some d =>
        simp only [FactStore.step, result?, hc, hd, fact?_of_cell? hc, fact?_of_cell? hd,
          Option.map_some, Option.bind_some, Yields]
        by_cases hsame : (s.cells c).sameAs (s.cells d)
        · -- the fact keeps the bindings that it has
          simp only [Fact.replaceBy, if_pos hsame]
          refine ⟨h, trivial, fun a => ?_⟩
          split
          · rename_i ha
            exact ha ▸ fact?_of_cell? hc
          · rfl
        · simp only [Fact.replaceBy, if_neg hsame]
          exact ⟨h.put i _, trivial, fun a => h.fact?_put i a _⟩

/-! ## Runs -/

/-- Facts that are apart and write no bottom value down. -/
structure Sound (s : FactStore ι κ α) : Prop where
  apart : s.Apart
  sparse : ∀ i f, s.fact? i = some f → f.Sparse

omit [DecidableEq ι] [DecidableEq α] in
theorem sound_empty : (empty : FactStore ι κ α).Sound := ⟨apart_empty, nofun⟩

omit [DecidableEq ι] in
theorem Sound.result?_sparse (h : s.Sound) {b : Option Bool}
    (hr : result? s.fact? r = some (b, f)) : f.Sparse := by
  cases r with
  | make i m =>
    obtain ⟨-, rfl⟩ := Prod.mk.inj (Option.some.inj hr)
    exact Fact.sparse_ofList m.entries
  | update i k v =>
    obtain ⟨f', hf', heq⟩ := Option.map_eq_some_iff.1 hr
    obtain ⟨-, rfl⟩ := Prod.mk.inj heq
    exact (h.sparse i f' hf').update k v
  | remove i k =>
    obtain ⟨f', hf', heq⟩ := Option.map_eq_some_iff.1 hr
    obtain ⟨-, rfl⟩ := Prod.mk.inj heq
    exact (h.sparse i f' hf').remove k
  | copy i j =>
    obtain ⟨g, hg, heq⟩ := Option.map_eq_some_iff.1 hr
    obtain ⟨-, rfl⟩ := Prod.mk.inj heq
    exact h.sparse j g hg
  | copyFrom i j =>
    obtain ⟨f', hf', hg⟩ := Option.bind_eq_some_iff.1 hr
    obtain ⟨g, hg, heq⟩ := Option.map_eq_some_iff.1 hg
    have hf : (f'.replaceBy g).2 = f := congrArg Prod.snd heq
    rw [← hf, Fact.replaceBy]
    split
    · exact h.sparse i f' hf'
    · exact h.sparse j g hg

theorem Sound.step (h : s.Sound) (r : FactRequest ι κ α) : (s.step r).2.Sound := by
  obtain ⟨hapart, hstep⟩ := h.apart.step r
  refine ⟨hapart, fun a f' hf' => ?_⟩
  unfold Yields at hstep
  split at hstep
  · rw [hstep] at hf'
    exact h.sparse a f' hf'
  · rename_i b f hr
    rw [hstep.2] at hf'
    split at hf'
    · obtain rfl := Option.some.inj hf'
      exact h.result?_sparse hr
    · exact h.sparse a f' hf'

theorem Sound.run (h : s.Sound) (rs : List (FactRequest ι κ α)) : (s.run rs).Sound := by
  induction rs generalizing s with
  | nil => exact h
  | cons r rs ih => exact ih (h.step r)

theorem Sound.fact?_step_of_ne (h : s.Sound) (hj : r.target ≠ j) :
    (s.step r).2.fact? j = s.fact? j := by
  obtain ⟨-, hstep⟩ := h.apart.step r
  unfold Yields at hstep
  split at hstep
  · rw [hstep]
  · rw [hstep.2, if_neg hj.symm]

/-- Nothing that is done to other facts changes a fact. -/
theorem Sound.fact?_run (h : s.Sound) {rs : List (FactRequest ι κ α)}
    (hrs : ∀ r ∈ rs, r.target ≠ j) : (s.run rs).fact? j = s.fact? j := by
  induction rs generalizing s with
  | nil => rfl
  | cons r rs ih =>
    obtain ⟨hr, hrest⟩ := List.forall_mem_cons.1 hrs
    exact (ih (h.step r) hrest).trans (h.fact?_step_of_ne hr)

/-- What a request does that can be done. -/
theorem Sound.step_of_result? (h : s.Sound) {b : Option Bool}
    (hr : result? s.fact? r = some (b, f)) :
    (s.step r).1 = b ∧ (s.step r).2.fact? r.target = some f := by
  obtain ⟨-, hstep⟩ := h.apart.step r
  rw [hr] at hstep
  exact ⟨hstep.1, (hstep.2 _).trans (if_pos rfl)⟩

/-- What holds of some facts, and of what each request would do to them next. -/
structure Exact (s : FactStore ι κ α) : Prop where
  /-- No fact has the bottom value written down. -/
  sparse : ∀ i f, s.fact? i = some f → f.Sparse
  /-- Facts are equal if they give all keys equal values. -/
  sameAs_iff : ∀ i j f g, s.fact? i = some f → s.fact? j = some g →
    (f.sameAs g = true ↔ ∀ k, f.get k = g.get k)
  make : ∀ i m, ∃ f, (s.step (.make i m)).2.fact? i = some f ∧
    ∀ k, f.get k = m.getD k Bottom.bottom
  /-- An update gives the one key its value and tells whether it had another. -/
  update : ∀ i f k v, s.fact? i = some f → ∃ b f',
    (s.step (.update i k v)).1 = some b ∧ (s.step (.update i k v)).2.fact? i = some f' ∧
    (∀ j, f'.get j = if j = k then v else f.get j) ∧ (b = true ↔ f'.get k ≠ f.get k)
  /-- To remove a key is to give it the bottom value. -/
  remove : ∀ i k, s.step (.remove i k) = s.step (.update i k Bottom.bottom)
  copy : ∀ i j f, s.fact? j = some f → (s.step (.copy i j)).2.fact? i = some f
  /-- A fact takes all values of another, which stays as it is, and tells whether it had others. -/
  copyFrom : ∀ i j f g, s.fact? i = some f → s.fact? j = some g → ∃ b f',
    (s.step (.copyFrom i j)).1 = some b ∧ (s.step (.copyFrom i j)).2.fact? i = some f' ∧
    (s.step (.copyFrom i j)).2.fact? j = some g ∧
    (∀ k, f'.get k = g.get k) ∧ (b = true ↔ ∃ k, f'.get k ≠ f.get k)
  /-- Whatever is done to other facts later does not change a fact. -/
  later : ∀ rs j, (∀ r ∈ rs, r.target ≠ j) → (s.run rs).fact? j = s.fact? j

theorem Sound.update (h : s.Sound) (hf : s.fact? i = some f) (k : κ) (v : α) : ∃ b f',
    (s.step (.update i k v)).1 = some b ∧ (s.step (.update i k v)).2.fact? i = some f' ∧
    (∀ j, f'.get j = if j = k then v else f.get j) ∧ (b = true ↔ f'.get k ≠ f.get k) := by
  have hr : result? s.fact? (.update i k v) = some (some (f.update k v).1, (f.update k v).2) := by
    rw [result?, hf, Option.map_some]
  obtain ⟨hanswer, hfact⟩ := h.step_of_result? hr
  refine ⟨_, _, hanswer, hfact, fun j => Fact.get_update f k j v, ?_⟩
  rw [(h.sparse i f hf).update_answer, Fact.get_update, if_pos rfl, ne_comm]

theorem Sound.copyFrom (h : s.Sound) (hf : s.fact? i = some f) (hg : s.fact? j = some g) :
    ∃ b f', (s.step (.copyFrom i j)).1 = some b ∧
      (s.step (.copyFrom i j)).2.fact? i = some f' ∧
      (s.step (.copyFrom i j)).2.fact? j = some g ∧
      (∀ k, f'.get k = g.get k) ∧ (b = true ↔ ∃ k, f'.get k ≠ f.get k) := by
  have hr : result? s.fact? (.copyFrom i j) = some (some (f.replaceBy g).1, (f.replaceBy g).2) := by
    rw [result?, hf, hg, Option.bind_some, Option.map_some]
  obtain ⟨hanswer, hfact⟩ := h.step_of_result? hr
  refine ⟨_, _, hanswer, hfact, ?_, f.get_replaceBy g, ?_⟩
  · by_cases hij : i = j
    · -- a fact that takes its own bindings keeps them
      subst hij
      obtain rfl := Option.some.inj (hf.symm.trans hg)
      rw [Fact.replaceBy, if_pos f.sameAs_refl] at hfact
      exact hfact
    · exact (h.fact?_step_of_ne (r := .copyFrom i j) hij).trans hg
  · rw [(h.sparse i f hf).replaceBy_answer (h.sparse j g hg)]
    simp only [Fact.get_replaceBy]

/-- Whatever has been done to some facts, they are exact. -/
theorem run_exact (rs : List (FactRequest ι κ α)) : (empty.run rs).Exact := by
  have h : (empty.run rs).Sound := sound_empty.run rs
  exact {
    sparse := h.sparse
    sameAs_iff i j f g hf hg := (h.sparse i f hf).sameAs_iff (h.sparse j g hg)
    make i m := ⟨_, (h.step_of_result? rfl).2, Fact.get_ofList_entries m⟩
    update i f k v hf := h.update hf k v
    remove i k := by simp only [step, Fact.update_bottom]
    copy i j f hf := (h.step_of_result? (by rw [result?, hf, Option.map_some])).2
    copyFrom i j f g hf hg := h.copyFrom hf hg
    later rs j hrs := h.fact?_run hrs }

/-! ### A copy that is changed -/

namespace Copied

def original : Fact Nat Value := .ofList [(7, .nac)]

def requests : List (FactRequest Nat Nat Value) :=
  [.make 0 (.ofList [(7, .nac)]), .copy 1 0, .update 1 7 (.ofInt 1)]

/-- The original is as it was made, until it takes the values of the copy. -/
theorem run_exact_copied : (empty.run requests).fact? 0 = some original ∧
    ∃ f, (empty.run requests).fact? 1 = some f ∧ f.get 7 = .ofInt 1 ∧
      ((empty.run requests).step (.copyFrom 0 1)).1 = some true := by
  have h := run_exact requests
  have hf : (empty.run requests).fact? 0 = some original := rfl
  have hg : (empty.run requests).fact? 1 = some (original.update 7 (.ofInt 1)).2 := rfl
  have hget : (original.update 7 (.ofInt 1)).2.get 7 = .ofInt 1 := rfl
  obtain ⟨b, f', hanswer, -, -, hview, hchange⟩ := h.copyFrom 0 1 _ _ hf hg
  have hne : f'.get 7 ≠ original.get 7 := by
    rw [hview, hget]
    decide
  rw [hchange.2 ⟨7, hne⟩] at hanswer
  exact ⟨hf, _, hg, hget, hanswer⟩

end Copied

end FactStore

end ObjectFlow
