import Mathlib.Logic.Relation
import ObjectFlow.Proofs.Effects
/-!
# Runs and rounds

How a run is put together: an agenda is done task by task, a round hands the
waiting objects of one pointer over and does the agenda of the new ones. A round
may take any waiting pointer; the analysis takes the one that has waited longest.
-/

namespace ObjectFlow.PointsTo

section
variable {p : Program} {s : Selector} {setup : Setup} {st st' : State}

/-! ## Agendas -/

/-- What a task that succeeds keeps, an agenda keeps. A failing task changes nothing, so `P` also
holds of the state in which an agenda ended early. -/
theorem settle_keeps {P : List Task → State → Prop}
    (hstep : ∀ {k A st st' new}, P (k :: A) st → exec p s k st = .ok (st', new) →
      P (new ++ A) st')
    (fuel : Nat) {A : List Task} (h : P A st) :
    ∃ rest, P rest (settle p s fuel A st).2 ∧
      ((settle p s fuel A st).1 = .ok () → rest = []) := by
  induction fuel generalizing A st with
  | zero =>
    cases A with
    | nil => exact ⟨[], h, fun _ => rfl⟩
    | cons k A => exact ⟨k :: A, h, fun hr => by cases hr⟩
  | succ fuel ih =>
    cases A with
    | nil => exact ⟨[], h, fun _ => rfl⟩
    | cons k A =>
      simp only [settle]
      cases hx : exec p s k st with
      | error e => exact ⟨k :: A, h, fun hr => by cases hr⟩
      | ok r => exact ih (hstep h hx)

/-! ## Handing objects over -/

/-- The state in which the objects of a pointer no longer wait, and count as taken. -/
def State.taken (st : State) (rest : Pending Pointer CtxObject) : State :=
  { st with rounds := st.rounds + 1, pending := rest }

theorem foldl_await_spec (new : PointsToSet CtxObject) (targets : List Pointer) (st : State) :
    (targets.foldl (fun st t => st.await t new) st).calls = st.calls ∧
    (targets.foldl (fun st t => st.await t new) st).flow = st.flow ∧
    (targets.foldl (fun st t => st.await t new) st).objectsOf = st.objectsOf ∧
    ∀ q o, o ∈ (targets.foldl (fun st t => st.await t new) st).pending.waiting q ↔
      o ∈ st.pending.waiting q ∨ (q ∈ targets ∧ o ∈ new) := by
  induction targets generalizing st with
  | nil => simp
  | cons t targets ih =>
    obtain ⟨hc, hf, ho, hw⟩ := ih (st.await t new)
    refine ⟨hc, hf, ho, fun q o => ?_⟩
    rw [List.foldl_cons, hw, State.mem_waiting_await, List.mem_cons]
    constructor
    · rintro ((h | ⟨rfl, h⟩) | ⟨ht, h⟩)
      · exact .inl h
      · exact .inr ⟨.inl rfl, h⟩
      · exact .inr ⟨.inr ht, h⟩
    · rintro (h | ⟨rfl | ht, h⟩)
      · exact .inl (.inl h)
      · exact .inl (.inr ⟨rfl, h⟩)
      · exact .inr ⟨ht, h⟩

/-- Handing over adds the objects to the pointer and lets the new ones wait behind it. -/
theorem propagate_spec (st : State) (q : Pointer) (objs : PointsToSet CtxObject) :
    (st.propagate q objs).1.calls = st.calls ∧ (st.propagate q objs).1.flow = st.flow ∧
    (∀ q' o, o ∈ (st.propagate q objs).1.objectsOf q' ↔
      o ∈ st.objectsOf q' ∨ (q' = q ∧ o ∈ objs)) ∧
    (∀ o, o ∈ (st.propagate q objs).2 ↔ o ∈ objs ∧ o ∉ st.objectsOf q) ∧
    (∀ q' o, o ∈ (st.propagate q objs).1.pending.waiting q' ↔
      o ∈ st.pending.waiting q' ∨ (st.flow.hasEdge q q' ∧ o ∈ objs ∧ o ∉ st.objectsOf q)) := by
  unfold State.propagate
  dsimp only
  split
  · rename_i hn
    have hold : ∀ o, o ∈ objs → o ∈ st.objectsOf q := fun o ho => by
      have hm := OrderedSet.isEmpty_iff.1 hn o
      rw [OrderedSet.mem_missing, not_and_not_right] at hm
      exact hm ho
    refine ⟨rfl, rfl, fun q' o => ⟨.inl, ?_⟩, fun o => ?_, fun q' o => ⟨.inl, ?_⟩⟩
    · rintro (h | ⟨rfl, h⟩)
      · exact h
      · exact hold o h
    · exact ⟨fun h => (List.not_mem_nil h).elim, fun h => (h.2 (hold o h.1)).elim⟩
    · rintro (h | ⟨-, h, hno⟩)
      · exact h
      · exact absurd (hold o h) hno
  · obtain ⟨hc, hf, ho, hw⟩ := foldl_await_spec ((st.objectsOf q).missing objs) (st.flow.succs q)
      { st with pointsTo :=
          st.pointsTo.insert q ((st.objectsOf q).union ((st.objectsOf q).missing objs)) }
    refine ⟨hc, hf, fun q' o => ?_, fun o => OrderedSet.mem_missing, fun q' o => ?_⟩
    · rw [ho, State.objectsOf, OrderedMap.getD_insert]
      by_cases hq : q' = q
      · subst hq
        rw [if_pos rfl, OrderedSet.mem_union, OrderedSet.mem_missing]
        by_cases h : o ∈ st.objectsOf q' <;> simp [h]
      · simp [hq, State.objectsOf]
    · rw [hw, FlowGraph.mem_succs, OrderedSet.mem_missing]

/-- Handing over the objects of a waiting pointer loses nothing. -/
theorem propagate_grows {q : Pointer} {objs : PointsToSet CtxObject}
    {rest : Pending Pointer CtxObject} (ht : st.pending.take? q = some (objs, rest)) :
    st.Grows ((st.taken rest).propagate q objs).1 := by
  obtain ⟨hc, hf, ho, -, hw⟩ := propagate_spec (st.taken rest) q objs
  refine ⟨fun h => by rwa [hc], fun h => by rwa [hc], fun h => by rwa [hf],
    fun h => (ho _ _).2 (.inl h), fun {q' o} h => ?_⟩
  rcases h with h | h
  · exact .inl ((ho _ _).2 (.inl h))
  · obtain ⟨hobjs, hrest⟩ := Pending.waiting_of_take? ht q'
    by_cases hq : q' = q
    · subst hq
      rw [hobjs] at h
      exact .inl ((ho _ _).2 (.inr ⟨rfl, h⟩))
    · rw [if_neg hq] at hrest
      refine .inr ((hw _ _).2 (.inl ?_))
      simpa only [State.taken, hrest] using h

theorem due_of_take? {q : Pointer} {objs : PointsToSet CtxObject}
    {rest : Pending Pointer CtxObject} (ht : st.pending.take? q = some (objs, rest)) {o : CtxObject}
    (ho : o ∈ objs) : st.Due q o :=
  .inr (by rwa [(Pending.waiting_of_take? ht q).1])

/-- What is due after objects were handed over was due before, or follows a flow edge from their
pointer. -/
theorem due_propagate {q q' : Pointer} {objs : PointsToSet CtxObject}
    {rest : Pending Pointer CtxObject} {o : CtxObject}
    (ht : st.pending.take? q = some (objs, rest))
    (hd : ((st.taken rest).propagate q objs).1.Due q' o) :
    st.Due q' o ∨ (st.flow.hasEdge q q' ∧ o ∈ objs) := by
  obtain ⟨-, -, ho, -, hw⟩ := propagate_spec (st.taken rest) q objs
  rcases hd with hd | hd
  · rcases (ho _ _).1 hd with hd | ⟨rfl, hin⟩
    · exact .inl (.inl hd)
    · exact .inl (due_of_take? ht hin)
  · rcases (hw _ _).1 hd with hd | ⟨he, hin, -⟩
    · have hrest := (Pending.waiting_of_take? ht q').2
      simp only [State.taken] at hd
      rw [hrest] at hd
      split at hd
      · exact absurd hd (OrderedSet.not_mem_empty _)
      · exact .inl (.inr hd)
    · exact .inr ⟨he, hin⟩

theorem propagate_flowing {q : Pointer} {objs : PointsToSet CtxObject}
    {rest : Pending Pointer CtxObject} (ht : st.pending.take? q = some (objs, rest))
    (h : st.Flowing) : ((st.taken rest).propagate q objs).1.Flowing := by
  have hg := propagate_grows ht
  obtain ⟨-, hf, ho, -, hw⟩ := propagate_spec (st.taken rest) q objs
  intro a b o hab hoa
  rw [hf] at hab
  -- an object that was there is due behind the pointer, a new one was just handed on
  by_cases hold : o ∈ st.objectsOf a
  · exact hg.due (h a b o hab hold)
  · rcases (ho _ _).1 hoa with hin | ⟨rfl, hin⟩
    · exact absurd hin hold
    · exact .inr ((hw _ _).2 (.inr ⟨hab, hin, hold⟩))

/-! ## Rounds -/

/-- A round that succeeds hands the objects over and does all that comes of it. -/
theorem round_eq_ok {fuel : Nat} {q : Pointer} {objs : PointsToSet CtxObject}
    {rest : Pending Pointer CtxObject} {b : Bool}
    (h : round fuel p setup q objs rest st = (.ok b, st')) :
    b = true ∧ settle p setup.selector fuel (arrivals q ((st.taken rest).propagate q objs).2)
      ((st.taken rest).propagate q objs).1 = (.ok (), st') := by
  unfold round at h
  dsimp only at h
  split at h
  · cases h
  · generalize hr : settle p setup.selector fuel _ _ = r at h
    obtain ⟨r, st₁⟩ := r
    cases r with
    | error e => cases h
    | ok u =>
      obtain ⟨hb, rfl⟩ := Prod.mk.inj h
      exact ⟨(Except.ok.inj hb).symm, hr⟩

/-- One round at some waiting pointer, with fuel enough. -/
def NextRound (p : Program) (setup : Setup) (st st' : State) : Prop :=
  ∃ fuel q objs rest, st.pending.take? q = some (objs, rest) ∧
    round fuel p setup q objs rest st = (.ok true, st')

/-- The states after some rounds, each at any pointer that waited. -/
abbrev Reaches (p : Program) (setup : Setup) : State → State → Prop :=
  Relation.ReflTransGen (NextRound p setup)

/-- A step that succeeds is a round, or nothing waits. -/
theorem step_eq_ok {fuel : Nat} {b : Bool} (h : step fuel p setup st = (.ok b, st')) :
    (b = false ∧ st' = st ∧ st.pending.poll? = none) ∨ (b = true ∧ NextRound p setup st st') := by
  unfold step at h
  split at h
  · rename_i hp
    obtain ⟨hb, rfl⟩ := Prod.mk.inj h
    exact .inl ⟨(Except.ok.inj hb).symm, rfl, hp⟩
  · rename_i q objs rest hp
    obtain ⟨rfl, -⟩ := round_eq_ok h
    exact .inr ⟨rfl, fuel, q, objs, rest, Pending.take?_of_poll? hp, h⟩

/-- The rounds of the analysis are rounds at waiting pointers, until nothing waits. -/
theorem rounds_reaches {fuel n : Nat} (h : rounds fuel p setup n st = (.ok (), st')) :
    Reaches p setup st st' ∧ st'.pending.poll? = none := by
  induction n generalizing st with
  | zero => cases h
  | succ n ih =>
    simp only [rounds] at h
    split at h
    · cases h
    · rename_i st₁ hs
      obtain rfl := (Prod.mk.inj h).2
      rcases step_eq_ok hs with ⟨-, rfl, hp⟩ | ⟨hb, -⟩
      · exact ⟨.refl, hp⟩
      · cases hb
    · rename_i st₁ hs
      obtain ⟨hr, hp⟩ := ih h
      rcases step_eq_ok hs with ⟨hb, -, -⟩ | ⟨-, hn⟩
      · cases hb
      · exact ⟨hr.head hn, hp⟩

end

end ObjectFlow.PointsTo
