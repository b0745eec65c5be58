import ObjectFlow.Proofs.Solutions
/-!
# Any order of work

The queue hands out the node that has waited longest, but any other waiting node
would do. If the equations are monotone, every order comes to an end, and the
facts it ends with lie below all facts that the equations do not lead above.
-/

namespace ObjectFlow.Dataflow

section
variable {ν φ ε : Type} [DecidableEq ν] {eqs : Equations ν φ ε} {st st' : State ν φ} {n : ν}
  {nodes : List ν}

/-- Some waiting node is taken. -/
def Works (eqs : Equations ν φ ε) (st st' : State ν φ) : Prop := ∃ n, Takes eqs n st st'

/-- The states after waiting nodes were taken in some order. -/
abbrev Scheduled (eqs : Equations ν φ ε) : State ν φ → State ν φ → Prop :=
  Relation.ReflTransGen (Works eqs)

theorem Reaches.scheduled (h : Reaches eqs st st') : Scheduled eqs st st' := by
  induction h with
  | refl => exact .refl
  | tail _ hp ih => exact ih.tail hp.takes

/-- The facts of the nodes can be computed whatever is known. -/
def Total (eqs : Equations ν φ ε) (nodes : List ν) : Prop :=
  ∀ l, ∀ n ∈ nodes, ∃ b, eqs.entering l n = .ok b

/-- A waiting node can be taken. -/
theorem takes_of_waits {b : φ} (hn : n ∈ st.queue.toList)
    (hb : eqs.entering (st.after eqs) n = .ok b) : ∃ st', Takes eqs n st st' := by
  let queue : WorkQueue ν := ⟨⟨st.queue.toList.erase n, st.queue.waiting.nodup.erase n⟩⟩
  cases hv : visit eqs { st with queue := queue } n with
  | ok st' => exact ⟨st', queue, List.perm_cons_erase hn, hv⟩
  | error e =>
    have he := visit_eq_error hv
    have hok : eqs.entering (State.after eqs { st with queue := queue }) n = .ok b := hb
    rw [hok] at he
    cases he

variable [Preorder φ] {good : φ → Prop} {room : φ → Nat}

/-- A state whose facts only rise, and are final where no node waits. -/
structure OnCourse (eqs : Equations ν φ ε) (nodes : List ν) (good : φ → Prop) (st : State ν φ) :
    Prop where
  inside : Inside eqs nodes good st
  rising : Rising eqs nodes st
  upToDate : UpToDate eqs nodes st

namespace OnCourse

theorem takes (hb : Bounded eqs nodes good room) (hm : Monotone eqs nodes) (hl : Local eqs)
    (h : OnCourse eqs nodes good st) (ht : Takes eqs n st st') :
    OnCourse eqs nodes good st' ∧ ∀ k, st.after eqs k ≤ st'.after eqs k := by
  obtain ⟨hrises, hle⟩ := h.rising.takes hm (h.inside.queue n ht.waits) ht
  exact ⟨⟨h.inside.takes hb ht, hrises, h.upToDate.takes hl ht⟩, hle⟩

theorem scheduled (hb : Bounded eqs nodes good room) (hm : Monotone eqs nodes) (hl : Local eqs)
    (h : OnCourse eqs nodes good st) (hs : Scheduled eqs st st') :
    OnCourse eqs nodes good st' := by
  induction hs with
  | refl => exact h
  | tail _ hw ih =>
    obtain ⟨n, ht⟩ := hw
    exact (ih.takes hb hm hl ht).1

/-- No order of work goes on for ever. -/
theorem acc {st : State ν φ} (hb : Bounded eqs nodes good room) (hm : Monotone eqs nodes)
    (hl : Local eqs) (h : OnCourse eqs nodes good st) : Acc (fun s' s => Works eqs s s') st := by
  constructor
  rintro st' ⟨n, ht⟩
  obtain ⟨h', hle⟩ := h.takes hb hm hl ht
  have hlt := ht.measure_lt hb h.inside hle
  exact acc hb hm hl h'
termination_by measure eqs nodes room st
decreasing_by exact hlt

/-- Where work ends the equations hold. -/
theorem holds (h : OnCourse eqs nodes good st) (hq : st.queue.toList = []) (hn : n ∈ nodes) :
    Holds eqs (st.solution eqs) n := by
  rcases h.upToDate n hn with hin | hholds
  · rw [hq] at hin
    cases hin
  · exact hholds

/-- The solver returns, with the facts of a state in which no node waits. -/
theorem solve_eq_ok (hb : Bounded eqs nodes good room) (hm : Monotone eqs nodes) (hl : Local eqs)
    (htotal : Total eqs nodes) (h : OnCourse eqs nodes good st) (outOfFuel : ε) :
    ∃ last, Scheduled eqs st last ∧ last.queue.toList = [] ∧
      ∃ bound, ∀ fuel, bound ≤ fuel → solve eqs outOfFuel fuel st = .ok (last.solution eqs) := by
  have hascends : ∀ mid, Reaches eqs st mid → Ascends eqs mid := by
    intro mid hr next hp
    obtain ⟨n, ht⟩ := hp.takes
    exact ((h.scheduled hb hm hl hr.scheduled).takes hb hm hl ht).2
  obtain ⟨r, hout⟩ := finishes_of_ascends hb h.inside hascends
  obtain ⟨bound, hrun⟩ := hout.run_eq outOfFuel
  obtain ⟨last, hr, ⟨hq, rfl⟩ | ⟨n, queue, e, hq, he, -⟩⟩ := hout
  · refine ⟨last, hr.scheduled, WorkQueue.toList_eq_nil_of_pop? hq, bound, fun fuel hf => ?_⟩
    rw [solve, hrun fuel hf]
    rfl
  · have hn : n ∈ nodes := (h.inside.reaches hb hr).queue n (by
      rw [WorkQueue.toList_eq_of_pop? hq]
      exact List.mem_cons_self)
    have he' := visit_eq_error he
    obtain ⟨b, hok⟩ := htotal _ n hn
    rw [hok] at he'
    cases he'

end OnCourse

/-! ## Bounds -/

/-- Facts that the equations do not lead above. -/
structure Bounds (eqs : Equations ν φ ε) (nodes : List ν) (before after : ν → φ) : Prop where
  entering : ∀ n ∈ nodes, ∃ b, eqs.entering after n = .ok b ∧ b ≤ before n
  leaving : ∀ n ∈ nodes, eqs.leaving n (before n) ≤ after n

namespace Bounds

variable {before after : ν → φ}

theorem takes (hm : Monotone eqs nodes) (hB : Bounds eqs nodes before after) (hn : n ∈ nodes)
    (hle : ∀ k, st.after eqs k ≤ after k) (ht : Takes eqs n st st') :
    ∀ k, st'.after eqs k ≤ after k := by
  obtain ⟨queue, -, hv⟩ := ht
  obtain ⟨b, he, ⟨-, hl, -⟩ | ⟨-, hl, -⟩⟩ := visit_eq_ok hv
  · intro k
    rw [State.after, hl]
    exact hle k
  · intro k
    rw [State.after, hl, OrderedMap.getD_insert]
    split
    · rename_i hkn
      subst hkn
      -- the node is recomputed from facts below the bounds, and so stays below its own
      obtain ⟨b', he', hb'⟩ := hB.entering k hn
      obtain ⟨b₁, he₁, hb₁⟩ := hm.entering k hn _ _ b' hle he'
      obtain rfl := Except.ok.inj (he₁.symm.trans he)
      exact (hm.leaving k hn _ _ (hb₁.trans hb')).trans (hB.leaving k hn)
    · exact hle k

/-- No order of work leads above the bounds. -/
theorem scheduled (hb : Bounded eqs nodes good room) (hm : Monotone eqs nodes) (hl : Local eqs)
    (hB : Bounds eqs nodes before after) (h : OnCourse eqs nodes good st)
    (hle : ∀ k, st.after eqs k ≤ after k) (hs : Scheduled eqs st st') :
    ∀ k, st'.after eqs k ≤ after k := by
  induction hs with
  | refl => exact hle
  | tail hr hw ih =>
    obtain ⟨n, ht⟩ := hw
    exact hB.takes hm ((h.scheduled hb hm hl hr).inside.queue n ht.waits) ih ht

theorem factBefore_le {sol : Solution ν φ} (hm : Monotone eqs nodes)
    (hB : Bounds eqs nodes before after) (hle : ∀ k, sol.factAfter k ≤ after k) (hn : n ∈ nodes)
    (hh : Holds eqs sol n) : sol.factBefore n ≤ before n := by
  obtain ⟨b, he, hb⟩ := hB.entering n hn
  obtain ⟨b', he', hb'⟩ := hm.entering n hn _ _ b hle he
  obtain rfl := Except.ok.inj (he'.symm.trans hh.entering)
  exact hb'.trans hb

end Bounds

end

end ObjectFlow.Dataflow
