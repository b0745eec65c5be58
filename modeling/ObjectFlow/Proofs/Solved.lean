import ObjectFlow.Proofs.ProgramConstants
/-!
# What a solution satisfies

The solver recomputes the facts of a node only when the node is taken from the
queue. Still, when no node waits, the equations hold at every node that ever
waited: whenever a leaving fact changes, all nodes that depend on it are queued
again.
-/

namespace ObjectFlow.Dataflow

section
variable {ν φ ε : Type} [DecidableEq ν] {eqs : Equations ν φ ε} {st st' : State ν φ}

/-- The equations hold at a node. -/
structure Holds (eqs : Equations ν φ ε) (sol : Solution ν φ) (n : ν) : Prop where
  entering : eqs.entering sol.factAfter n = .ok (sol.factBefore n)
  leaving : eqs.same (sol.factAfter n) (eqs.leaving n (sol.factBefore n))

/-- A node's entering fact is computed from those nodes alone that it depends on. -/
structure Local (eqs : Equations ν φ ε) : Prop where
  entering : ∀ n l l', (∀ k, n ∈ eqs.dependents k → l k = l' k) →
    eqs.entering l n = eqs.entering l' n
  same_refl : ∀ f, eqs.same f f

/-- The facts of a state. -/
def State.solution (eqs : Equations ν φ ε) (st : State ν φ) : Solution ν φ :=
  ⟨eqs.initial, st.entering, st.leaving, st.rounds⟩

/-- Where no node of a list waits, the equations hold. -/
def UpToDate (eqs : Equations ν φ ε) (nodes : List ν) (st : State ν φ) : Prop :=
  ∀ n ∈ nodes, n ∈ st.queue.toList ∨ Holds eqs (st.solution eqs) n

/-- What taking a node does to the facts and to the queue. -/
structure Visited (eqs : Equations ν φ ε) (n : ν) (before : φ) (st st' : State ν φ) : Prop where
  computed : eqs.entering (st.after eqs) n = .ok before
  entering : st'.entering = st.entering.insert n before
  leaving : eqs.same (st'.after eqs n) (eqs.leaving n before)
  others : ∀ k, k ≠ n → st'.after eqs k = st.after eqs k
  waits : ∀ k ∈ st.queue.toList, k ∈ st'.queue.toList
  unread : ∀ k, k ∉ st'.queue.toList →
    eqs.entering (st'.after eqs) k = eqs.entering (st.after eqs) k

theorem entering_of_visit {n : ν} {before : φ} (h : visit eqs st n = .ok st')
    (he : eqs.entering (st.after eqs) n = .ok before) :
    st'.entering = st.entering.insert n before := by
  have he' : eqs.entering (fun m => st.leaving.getD m eqs.initial) n = .ok before := he
  unfold visit at h
  rw [he'] at h
  dsimp only [bind, Except.bind] at h
  split at h <;> rw [← Except.ok.inj h]

theorem visited_of_visit {n : ν} (hl : Local eqs) (h : visit eqs st n = .ok st') :
    ∃ before, Visited eqs n before st st' := by
  obtain ⟨before, he, hcase⟩ := visit_eq_ok h
  refine ⟨before, ?_⟩
  have hentering := entering_of_visit h he
  rcases hcase with ⟨hs, hleave, hq⟩ | ⟨-, hleave, hq⟩
  · have hafter : st'.after eqs = st.after eqs := by
      funext k
      rw [State.after, hleave]
      rfl
    constructor
    · exact he
    · exact hentering
    · rw [hafter]
      exact hs
    · intro k _
      rw [hafter]
    · intro k hk
      rwa [hq]
    · intro k _
      rw [hafter]
  · have hafter : ∀ k, st'.after eqs k = if k = n then eqs.leaving n before else st.after eqs k := by
      intro k
      rw [State.after, hleave, OrderedMap.getD_insert]
      rfl
    have hothers : ∀ k, k ≠ n → st'.after eqs k = st.after eqs k := by
      intro k hk
      rw [hafter, if_neg hk]
    constructor
    · exact he
    · exact hentering
    · rw [hafter, if_pos rfl]
      exact hl.same_refl _
    · exact hothers
    · intro k hk
      rw [hq]
      exact OrderedSet.mem_insertAll.2 (.inl hk)
    · -- what reads the fact that changed waits now
      intro k hk
      rw [hq] at hk
      apply hl.entering
      intro j hj
      apply hothers
      intro hjn
      subst hjn
      exact hk (OrderedSet.mem_insertAll.2 (.inr hj))

/-- Taking a node settles it, unless it depends on itself and is queued again. -/
theorem UpToDate.takes {nodes : List ν} {n : ν} (hl : Local eqs) (h : UpToDate eqs nodes st)
    (ht : Takes eqs n st st') : UpToDate eqs nodes st' := by
  obtain ⟨queue, hq, hv⟩ := ht
  obtain ⟨before, hvisit⟩ := visited_of_visit hl hv
  have hbefore : ∀ k, (st'.solution eqs).factBefore k =
      if k = n then before else (st.solution eqs).factBefore k := by
    intro k
    show st'.entering.getD k eqs.initial = _
    rw [hvisit.entering, OrderedMap.getD_insert]
    rfl
  intro k hk
  by_cases hwaits : k ∈ st'.queue.toList
  · exact .inl hwaits
  right
  by_cases hkn : k = n
  · subst hkn
    constructor
    · rw [hbefore, if_pos rfl]
      exact (hvisit.unread k hwaits).trans hvisit.computed
    · rw [hbefore, if_pos rfl]
      exact hvisit.leaving
  · have hholds : Holds eqs (st.solution eqs) k := by
      rcases h k hk with hin | hholds
      · have hin' := (List.mem_cons.1 (hq.mem_iff.1 hin)).resolve_left hkn
        exact absurd (hvisit.waits k hin') hwaits
      · exact hholds
    constructor
    · rw [hbefore, if_neg hkn]
      exact (hvisit.unread k hwaits).trans hholds.entering
    · rw [hbefore, if_neg hkn]
      have hsame : (st'.solution eqs).factAfter k = (st.solution eqs).factAfter k :=
        hvisit.others k hkn
      rw [hsame]
      exact hholds.leaving

theorem UpToDate.pops {nodes : List ν} (hl : Local eqs) (h : UpToDate eqs nodes st)
    (hp : Pops eqs st st') : UpToDate eqs nodes st' := by
  obtain ⟨n, ht⟩ := hp.takes
  exact h.takes hl ht

theorem UpToDate.reaches {nodes : List ν} (hl : Local eqs) (h : UpToDate eqs nodes st)
    (hr : Reaches eqs st st') : UpToDate eqs nodes st' := by
  induction hr with
  | refl => exact h
  | tail _ hp ih => exact ih.pops hl hp

/-- A solver that returns has come to a state in which no node waits. -/
theorem solve_eq_ok {outOfFuel : ε} {fuel : Nat} {sol : Solution ν φ}
    (h : solve eqs outOfFuel fuel st = .ok sol) :
    ∃ last, Reaches eqs st last ∧ last.queue.pop? = none ∧ sol = last.solution eqs := by
  unfold solve at h
  cases hr : run eqs outOfFuel fuel st with
  | error e =>
    rw [hr] at h
    cases h
  | ok last =>
    rw [hr] at h
    obtain rfl := Except.ok.inj h
    have hne : (.ok last : Except ε (State ν φ)) ≠ .error outOfFuel := by
      intro heq
      cases heq
    obtain ⟨last', hreach, ⟨hempty, hlast⟩ | ⟨_, _, _, -, -, hlast⟩⟩ := outcome_of_run hr hne
    · obtain rfl := Except.ok.inj hlast
      exact ⟨last, hreach, hempty, rfl⟩
    · cases hlast

/-- A solution satisfies the equations at every node that waited at the start. -/
theorem holds_of_solve {outOfFuel : ε} {fuel : Nat} {sol : Solution ν φ} (hl : Local eqs)
    (h : solve eqs outOfFuel fuel st = .ok sol) {n : ν} (hn : n ∈ st.queue.toList) :
    Holds eqs sol n := by
  obtain ⟨last, hreach, hempty, rfl⟩ := solve_eq_ok h
  have hstart : UpToDate eqs st.queue.toList st := fun k hk => .inl hk
  rcases hstart.reaches hl hreach n hn with hin | hholds
  · rw [WorkQueue.toList_eq_nil_of_pop? hempty] at hin
    cases hin
  · exact hholds

end

end ObjectFlow.Dataflow

namespace ObjectFlow.Constants

open Dataflow

variable {p : Program} {g : Icfg} {fuel : Nat} {sol : Solution Node ConstFact}

/-! ## The constants of a program -/

theorem programEquations_local : Local (programEquations p g) where
  entering n l l' hl := by
    have hflow : ∀ e ∈ g.inEdges n, alongEdge p e (l e.source) = alongEdge p e (l' e.source) := by
      intro e he
      obtain ⟨hin, htarget⟩ := List.mem_filter.1 he
      have hout : e ∈ g.outEdges e.source := List.mem_filter.2 ⟨hin, decide_eq_true rfl⟩
      rw [hl e.source (List.mem_map.2 ⟨e, hout, of_decide_eq_true htarget⟩)]
    simp only [programEquations, mapM_congr hflow]
  same_refl f := f.sameAs_refl

theorem holds_of_ofIcfg (h : ofIcfg fuel p g = .ok sol) {n : Node} (hn : n ∈ g.nodes.keys) :
    Holds (programEquations p g) sol n :=
  holds_of_solve programEquations_local h (OrderedSet.mem_insertAll.2 (.inr hn))

/-- What a node makes of the fact that enters it flows along each of its edges, and what enters
the target covers it. -/
theorem flow_le (h : ofIcfg fuel p g = .ok sol) {e : Icfg.Edge} (he : e ∈ g.edges)
    (hs : e.source ∈ g.nodes.keys) (ht : e.target ∈ g.nodes.keys) :
    ∃ f, alongEdge p e (afterInterNode e.source (sol.factBefore e.source)) = .ok f ∧
      f ≤ sol.factBefore e.target := by
  have hafter : afterInterNode e.source (sol.factBefore e.source) ≤ sol.factAfter e.source := by
    intro v
    apply le_of_eq
    exact (Fact.get_eq_of_sameAs (holds_of_ofIcfg h hs).leaving v).symm
  obtain ⟨flows, hflows, hbefore⟩ := entering_eq_ok (holds_of_ofIcfg h ht).entering
  have hin : e ∈ g.inEdges e.target := List.mem_filter.2 ⟨he, decide_eq_true rfl⟩
  obtain ⟨f', hf', hflow'⟩ := exists_mem_of_mapM hflows hin
  obtain ⟨f, hflow, hle⟩ := alongEdge_mono hafter hflow'
  refine ⟨f, hflow, hle.trans ?_⟩
  rw [hbefore]
  exact ConstFact.mem_le_foldl_meetFact _ hf'

theorem boundary_le (h : ofIcfg fuel p g = .ok sol) {m : Method} (hm : m ∈ g.callGraph.entries)
    (hn : .entry m ∈ g.nodes.keys) : boundary p m ≤ sol.factBefore (.entry m) := by
  obtain ⟨flows, -, hbefore⟩ := entering_eq_ok (holds_of_ofIcfg h hn).entering
  have hget := OrderedMap.getD_of_get? (d := ∅) (boundaries_get? (p := p) hm)
  rw [hbefore, ← hget]
  exact ConstFact.le_foldl_meetFact _ _

end ObjectFlow.Constants
