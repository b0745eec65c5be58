import Mathlib.Data.List.Forall2
import Mathlib.Data.List.Induction
/-!
# Histories

A structure is asked one thing after another, and its history says what was asked and
answered. What holds at first and is kept by each request holds after every history. A
history is first in, first out if what went out is what came in first, in this order, and
the rest still waits.
-/

namespace ObjectFlow

/-! ## Requests in turn -/

section
variable {σ ρ β : Type} {ask : σ → ρ → β × σ} {s : σ}

/-- What was asked and answered, and what became of the structure. -/
def askAll (ask : σ → ρ → β × σ) (s : σ) (rs : List ρ) : List (ρ × β) × σ :=
  rs.foldl (fun out r => (out.1 ++ [(r, (ask out.2 r).1)], (ask out.2 r).2)) ([], s)

theorem askAll_concat (s : σ) (rs : List ρ) (r : ρ) : askAll ask s (rs ++ [r]) =
    ((askAll ask s rs).1 ++ [(r, (ask (askAll ask s rs).2 r).1)], (ask (askAll ask s rs).2 r).2) :=
  List.foldl_concat ..

/-- What holds at first and is kept by each request holds after all of them. -/
theorem askAll_induction {P : List (ρ × β) → σ → Prop} (rs : List ρ) (start : P [] s)
    (step : ∀ h t, ∀ r ∈ rs, P h t → P (h ++ [(r, (ask t r).1)]) (ask t r).2) :
    P (askAll ask s rs).1 (askAll ask s rs).2 := by
  induction rs using List.reverseRecOn with
  | nil => exact start
  | append_singleton rs r ih =>
    rw [askAll_concat]
    refine step _ _ r (List.mem_append_right _ (List.mem_singleton.2 rfl)) (ih fun h t r' hr' => ?_)
    exact step h t r' (List.mem_append_left _ hr')

/-- Structures that are related and answer alike have the same history and stay related. -/
theorem askAll_simulation {τ : Type} {ask' : τ → ρ → β × τ} {R : σ → τ → Prop} {t : τ}
    (start : R s t) (step : ∀ s t r, R s t → (ask s r).1 = (ask' t r).1 ∧ R (ask s r).2 (ask' t r).2)
    (rs : List ρ) : (askAll ask s rs).1 = (askAll ask' t rs).1 ∧
      R (askAll ask s rs).2 (askAll ask' t rs).2 := by
  induction rs using List.reverseRecOn with
  | nil => exact ⟨rfl, start⟩
  | append_singleton rs r ih =>
    obtain ⟨hhistory, hrel⟩ := ih
    obtain ⟨hanswer, hnext⟩ := step _ _ r hrel
    rw [askAll_concat, askAll_concat, hhistory, hanswer]
    exact ⟨rfl, hnext⟩

/-- Requests can be asked in two goes. -/
theorem askAll_append (s : σ) (rs rs' : List ρ) :
    (askAll ask s (rs ++ rs')).2 = (askAll ask (askAll ask s rs).2 rs').2 := by
  induction rs' using List.reverseRecOn with
  | nil => rw [List.append_nil]; rfl
  | append_singleton rs' r ih => rw [← List.append_assoc, askAll_concat, askAll_concat, ih]

end

/-! ## First in, first out -/

section
variable {β α : Type} {came went : List β → β → Option α} {h : List β} {e : β} {a : α}
  {waiting : List α}

/-- The items of a history, each with its time. Whether an event has an item may depend on the
events before it. -/
def timed (item? : List β → β → Option α) (h : List β) : List (Nat × α) :=
  (List.range h.length).filterMap fun t => (h[t]?).bind fun e => (item? (h.take t) e).map (t, ·)

theorem timed_concat (item? : List β → β → Option α) (h : List β) (e : β) :
    timed item? (h ++ [e]) = timed item? h ++ ((item? h e).map (h.length, ·)).toList := by
  unfold timed
  rw [List.length_append, List.length_singleton, List.range_succ, List.filterMap_append]
  congr 1
  · refine List.filterMap_congr fun t ht => ?_
    have hlt := List.mem_range.1 ht
    rw [List.getElem?_append_left hlt, List.take_append_of_le_length (Nat.le_of_lt hlt)]
  · cases hitem : item? h e <;> simp [hitem]

theorem lt_of_mem_timed {item? : List β → β → Option α} {x : Nat × α} (hx : x ∈ timed item? h) :
    x.1 < h.length := by
  obtain ⟨t, ht, hsome⟩ := List.mem_filterMap.1 hx
  obtain ⟨e, -, hitem⟩ := Option.bind_eq_some_iff.1 hsome
  obtain ⟨a, -, rfl⟩ := Option.map_eq_some_iff.1 hitem
  exact List.mem_range.1 ht

/-- Each item that went out is the one that came in at its turn, before it went. The others, which
came in later, wait in the order in which they came. -/
def FirstInFirstOut (came went : List β → β → Option α) (h : List β) (waiting : List α) : Prop :=
  ∃ gone left, timed came h = gone ++ left ∧
    List.Forall₂ (fun i o => i.2 = o.2 ∧ i.1 < o.1) gone (timed went h) ∧
    left.map Prod.snd = waiting

namespace FirstInFirstOut

theorem nil : FirstInFirstOut came went [] [] := ⟨[], [], rfl, .nil, rfl⟩

theorem skip (hf : FirstInFirstOut came went h waiting) (hc : came h e = none)
    (hw : went h e = none) : FirstInFirstOut came went (h ++ [e]) waiting := by
  obtain ⟨gone, left, hsplit, hgone, hleft⟩ := hf
  refine ⟨gone, left, ?_, ?_, hleft⟩
  · rw [timed_concat, hc, hsplit]
    exact List.append_nil _
  · rw [timed_concat, hw]
    exact (List.append_nil (timed went h)).symm ▸ hgone

theorem enter (hf : FirstInFirstOut came went h waiting) (hc : came h e = some a)
    (hw : went h e = none) : FirstInFirstOut came went (h ++ [e]) (waiting ++ [a]) := by
  obtain ⟨gone, left, hsplit, hgone, rfl⟩ := hf
  refine ⟨gone, left ++ [(h.length, a)], ?_, ?_, List.map_append⟩
  · rw [timed_concat, hc, hsplit]
    exact List.append_assoc ..
  · rw [timed_concat, hw]
    exact (List.append_nil (timed went h)).symm ▸ hgone

theorem leave (hf : FirstInFirstOut came went h (a :: waiting)) (hc : came h e = none)
    (hw : went h e = some a) : FirstInFirstOut came went (h ++ [e]) waiting := by
  obtain ⟨gone, left, hsplit, hgone, hleft⟩ := hf
  obtain ⟨i, rest, rfl, rfl, rfl⟩ := List.map_eq_cons_iff.1 hleft
  have hi : i ∈ timed came h := hsplit ▸ List.mem_append_right _ List.mem_cons_self
  refine ⟨gone ++ [i], rest, ?_, ?_, rfl⟩
  · rw [timed_concat, hc, hsplit]
    simp
  · rw [timed_concat, hw]
    exact List.rel_append hgone (.cons ⟨rfl, lt_of_mem_timed hi⟩ .nil)

end FirstInFirstOut

end

end ObjectFlow
