import Mathlib.Data.List.Perm.Subperm
import Mathlib.Logic.Relation
import ObjectFlow.Collections.Search
/-!
# What a search finds

A breadth-first search whose bound is the number of nodes finds every node that
steps lead to, and no other.
-/

namespace ObjectFlow

section
variable {α : Type} [DecidableEq α] {next : α → List α}

/-- Adding members that are all new only appends them. -/
theorem OrderedSet.toList_insertAll {s : OrderedSet α} {l : List α} (hl : l.Nodup)
    (hnew : ∀ a ∈ l, a ∉ s) : (s.insertAll l).toList = s.toList ++ l := by
  induction l generalizing s with
  | nil => exact (List.append_nil _).symm
  | cons a l ih =>
    obtain ⟨ha, hl⟩ := List.nodup_cons.1 hl
    have hs : (s.insert a).toList = s.toList ++ [a] := by
      rw [OrderedSet.toList_insert, if_neg (hnew a List.mem_cons_self)]
    have hrest : ∀ b ∈ l, b ∉ s.insert a := by
      intro b hb hin
      rcases OrderedSet.mem_insert.1 hin with hin | rfl
      · exact hnew b (List.mem_cons_of_mem _ hb) hin
      · exact ha hb
    have hstep := ih hl hrest
    rw [hs, List.append_assoc] at hstep
    exact hstep

theorem OrderedSet.size_union_missing (s t : OrderedSet α) :
    (s.union (s.missing t)).size = s.size + (s.missing t).size := by
  have h := OrderedSet.toList_insertAll (s.missing t).nodup
    fun a ha => (OrderedSet.mem_missing.1 ha).2
  rw [OrderedSet.size, OrderedSet.union, h, List.length_append]
  rfl

/-- One step to a node that comes next. -/
def Next (next : α → List α) (a b : α) : Prop := b ∈ next a

theorem search_sound {P : α → Prop} (hnext : ∀ a, P a → ∀ b ∈ next a, P b) (n : Nat)
    {queue : List α} {seen : OrderedSet α} (hq : ∀ a ∈ queue, P a) (hs : ∀ a ∈ seen, P a) :
    ∀ a ∈ search next n queue seen, P a := by
  induction n generalizing queue seen with
  | zero => exact hs
  | succ n ih =>
    cases queue with
    | nil => exact hs
    | cons a queue =>
      have hfresh : ∀ b ∈ seen.missing (.ofList (next a)), P b := by
        intro b hb
        apply hnext a (hq a List.mem_cons_self)
        exact OrderedSet.mem_ofList.1 (OrderedSet.mem_missing.1 hb).1
      apply ih
      · intro b hb
        rcases List.mem_append.1 hb with hb | hb
        · exact hq b (List.mem_cons_of_mem _ hb)
        · exact hfresh b hb
      · intro b hb
        rcases OrderedSet.mem_union.1 hb with hb | hb
        · exact hs b hb
        · exact hfresh b hb

/-- A search under way in the nodes of `U`: all that was seen and is not in the queue has been
expanded, and the bound covers the queue and the nodes that are still to be seen. -/
structure Searching (next : α → List α) (U : List α) (n : Nat) (queue : List α)
    (seen : OrderedSet α) : Prop where
  queued : ∀ a ∈ queue, a ∈ seen
  inside : ∀ a ∈ seen, a ∈ U
  expanded : ∀ a ∈ seen, a ∈ queue ∨ ∀ b ∈ next a, b ∈ seen
  bound : queue.length + U.length ≤ n + seen.size

theorem Searching.step {U : List α} {n : Nat} {a : α} {queue : List α} {seen : OrderedSet α}
    (hU : ∀ a ∈ U, ∀ b ∈ next a, b ∈ U) (h : Searching next U (n + 1) (a :: queue) seen) :
    Searching next U n (queue ++ (seen.missing (.ofList (next a))).toList)
      (seen.union (seen.missing (.ofList (next a)))) where
  queued b hb := by
    rw [OrderedSet.mem_union]
    rcases List.mem_append.1 hb with hb | hb
    · exact .inl (h.queued b (List.mem_cons_of_mem _ hb))
    · exact .inr hb
  inside b hb := by
    rcases OrderedSet.mem_union.1 hb with hb | hb
    · exact h.inside b hb
    · have ha := h.inside a (h.queued a List.mem_cons_self)
      exact hU a ha b (OrderedSet.mem_ofList.1 (OrderedSet.mem_missing.1 hb).1)
  expanded b hb := by
    rcases OrderedSet.mem_union.1 hb with hb | hb
    · rcases h.expanded b hb with hq | hnext
      · rcases List.mem_cons.1 hq with rfl | hq
        · -- the node that was just expanded
          right
          intro c hc
          by_cases hold : c ∈ seen
          · exact OrderedSet.mem_union.2 (.inl hold)
          · exact OrderedSet.mem_union.2
              (.inr (OrderedSet.mem_missing.2 ⟨OrderedSet.mem_ofList.2 hc, hold⟩))
        · exact .inl (List.mem_append_left _ hq)
      · exact .inr fun c hc => OrderedSet.mem_union.2 (.inl (hnext c hc))
    · exact .inl (List.mem_append_right _ hb)
  bound := by
    have hb := h.bound
    rw [OrderedSet.size_union_missing, List.length_append]
    simp only [List.length_cons] at hb
    simp only [OrderedSet.size] at hb ⊢
    omega

omit [DecidableEq α] in
/-- When the bound is used up, nothing is left to expand. -/
theorem Searching.queue_eq_nil {U queue : List α} {seen : OrderedSet α}
    (h : Searching next U 0 queue seen) : queue = [] := by
  have hle : seen.size ≤ U.length :=
    (List.subperm_of_subset seen.nodup fun a ha => h.inside a ha).length_le
  have hb := h.bound
  exact List.length_eq_zero_iff.1 (by omega)

/-- What was seen is kept, and in the end all that was seen has been expanded. -/
theorem Searching.closed {U : List α} {n : Nat} {queue : List α} {seen : OrderedSet α}
    (hU : ∀ a ∈ U, ∀ b ∈ next a, b ∈ U) (h : Searching next U n queue seen) :
    (∀ a ∈ seen, a ∈ search next n queue seen) ∧
      ∀ a ∈ search next n queue seen, ∀ b ∈ next a, b ∈ search next n queue seen := by
  induction n generalizing queue seen with
  | zero =>
    obtain rfl := h.queue_eq_nil
    exact ⟨fun _ ha => ha, fun a ha => (h.expanded a ha).resolve_left List.not_mem_nil⟩
  | succ n ih =>
    cases queue with
    | nil =>
      exact ⟨fun _ ha => ha, fun a ha => (h.expanded a ha).resolve_left List.not_mem_nil⟩
    | cons a queue =>
      obtain ⟨hkeep, hclosed⟩ := ih (h.step hU)
      exact ⟨fun b hb => hkeep b (OrderedSet.mem_union.2 (.inl hb)), hclosed⟩

omit [DecidableEq α] in
/-- A search starts with the node that it is about. -/
theorem searching_start {U : List α} {bound : Nat} {a : α} (ha : a ∈ U) (hb : U.length ≤ bound) :
    Searching next U bound [a] (.singleton a) := by
  refine ⟨fun c hc => ?_, fun c hc => ?_, fun c hc => ?_, ?_⟩
  · exact OrderedSet.mem_singleton.2 (List.mem_singleton.1 hc)
  · rwa [OrderedSet.mem_singleton.1 hc]
  · exact .inl (List.mem_singleton.2 (OrderedSet.mem_singleton.1 hc))
  · simp only [List.length_singleton, OrderedSet.size, OrderedSet.singleton]
    omega

/-- With the number of nodes as bound, a search finds exactly what steps lead to. -/
theorem mem_reachableFrom {U : List α} {bound : Nat} {a b : α}
    (hU : ∀ a ∈ U, ∀ b ∈ next a, b ∈ U) (ha : a ∈ U) (hb : U.length ≤ bound) :
    b ∈ reachableFrom next bound a ↔ Relation.ReflTransGen (Next next) a b := by
  obtain ⟨hkeep, hclosed⟩ := (searching_start ha hb).closed hU
  constructor
  · intro hin
    refine search_sound (P := Relation.ReflTransGen (Next next) a)
      (fun c hc d hd => hc.tail hd) bound (fun c hc => ?_) (fun c hc => ?_) b hin
    · rw [List.mem_singleton.1 hc]
    · rw [OrderedSet.mem_singleton.1 hc]
  · intro hsteps
    induction hsteps with
    | refl => exact hkeep a (OrderedSet.mem_singleton.2 rfl)
    | tail _ hd ih => exact hclosed _ ih _ hd

end

end ObjectFlow
