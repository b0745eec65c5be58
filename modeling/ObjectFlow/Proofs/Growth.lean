import ObjectFlow.Proofs.Rules
/-!
# How a state grows

The operations on a state only add to it. Each one is described by what it adds
to the reachable methods, the call edges, the flow edges and the waiting objects;
only taking a waiting pointer changes what pointers hold.
-/

namespace ObjectFlow.PointsTo

namespace State

/-- The object has reached the pointer or waits for it. -/
def Due (st : State) (q : Pointer) (o : CtxObject) : Prop :=
  o ∈ st.objectsOf q ∨ o ∈ st.pending.waiting q

/-- Nothing is lost from one state to another. -/
structure Grows (st st' : State) : Prop where
  reachable : ∀ {m}, m ∈ st.calls.reachable → m ∈ st'.calls.reachable
  calls : ∀ {e}, e ∈ st.calls.edges → e ∈ st'.calls.edges
  flow : ∀ {s t}, st.flow.hasEdge s t → st'.flow.hasEdge s t
  holds : ∀ {q o}, o ∈ st.objectsOf q → o ∈ st'.objectsOf q
  due : ∀ {q o}, st.Due q o → st'.Due q o

/-- What a pointer holds is due at the pointers behind it. -/
def Flowing (st : State) : Prop :=
  ∀ s t o, st.flow.hasEdge s t → o ∈ st.objectsOf s → st.Due t o

theorem Grows.refl (st : State) : Grows st st := ⟨id, id, id, id, id⟩

theorem Grows.trans {st st' st'' : State} (h : Grows st st') (h' : Grows st' st'') :
    Grows st st'' :=
  ⟨fun x => h'.reachable (h.reachable x), fun x => h'.calls (h.calls x),
    fun x => h'.flow (h.flow x), fun x => h'.holds (h.holds x), fun x => h'.due (h.due x)⟩

theorem Flowing.congr {st st' : State} (hf : st'.flow = st.flow)
    (ho : st'.objectsOf = st.objectsOf) (hp : st'.pending = st.pending) (h : st.Flowing) :
    st'.Flowing := by
  intro s t o hst hs
  rw [hf] at hst
  rw [ho] at hs
  have hd := h s t o hst hs
  rwa [Due, ← ho, ← hp] at hd

variable {st : State} {s t q : Pointer} {o : CtxObject} {objs : PointsToSet CtxObject}
  {kind : FlowKind}

/-! ## Waiting and flowing -/

@[simp] theorem internPointer_pending : (st.internPointer q).pending = st.pending := rfl

@[simp] theorem await_calls : (st.await q objs).calls = st.calls := rfl

@[simp] theorem await_flow : (st.await q objs).flow = st.flow := rfl

@[simp] theorem await_objectsOf : (st.await q objs).objectsOf = st.objectsOf := rfl

theorem mem_waiting_await {q' : Pointer} :
    o ∈ (st.await q objs).pending.waiting q' ↔
      o ∈ st.pending.waiting q' ∨ (q' = q ∧ o ∈ objs) := Pending.mem_waiting_add

theorem due_await {q' : Pointer} :
    (st.await q objs).Due q' o ↔ st.Due q' o ∨ (q' = q ∧ o ∈ objs) := by
  simp only [Due, await_objectsOf, mem_waiting_await, or_assoc]

theorem Grows.await : Grows st (st.await q objs) :=
  ⟨id, id, id, id, fun h => due_await.2 (.inl h)⟩

theorem Flowing.await (h : st.Flowing) : (st.await q objs).Flowing :=
  fun s t o hst ho => due_await.2 (.inl (h s t o hst ho))

theorem connect_cases (st : State) (s t : Pointer) (kind : FlowKind) :
    (st.flow.hasEdge s t ∧ st.connect s t kind = (st.internPointer s).internPointer t) ∨
    (¬ st.flow.hasEdge s t ∧ ∃ st' : State, st'.calls = st.calls ∧
      st'.flow = st.flow.addEdge s t kind ∧ st'.objectsOf = st.objectsOf ∧
      st'.pending = st.pending ∧
      ((st.objectsOf s).isEmpty ∧ st.connect s t kind = st' ∨
        st.connect s t kind = st'.await t (st.objectsOf s))) := by
  unfold connect
  dsimp only
  split
  · rename_i h
    exact .inl ⟨h, rfl⟩
  · rename_i h
    refine .inr ⟨h, { (st.internPointer s).internPointer t with flow := st.flow.addEdge s t kind },
      rfl, rfl, rfl, rfl, ?_⟩
    split
    · rename_i he
      exact .inl ⟨he, rfl⟩
    · exact .inr rfl

@[simp] theorem connect_calls : (st.connect s t kind).calls = st.calls := by
  rcases connect_cases st s t kind with ⟨-, h⟩ | ⟨-, st', hc, -, -, -, ⟨-, h⟩ | h⟩
  · rw [h]; rfl
  · rw [h, hc]
  · rw [h]; exact hc

@[simp] theorem connect_objectsOf : (st.connect s t kind).objectsOf = st.objectsOf := by
  rcases connect_cases st s t kind with ⟨-, h⟩ | ⟨-, st', -, -, ho, -, ⟨-, h⟩ | h⟩
  · rw [h]; rfl
  · rw [h, ho]
  · rw [h]; exact ho

theorem hasEdge_connect {a b : Pointer} :
    (st.connect s t kind).flow.hasEdge a b ↔ st.flow.hasEdge a b ∨ (a = s ∧ b = t) := by
  rcases connect_cases st s t kind with ⟨he, h⟩ | ⟨-, st', -, hf, -, -, ⟨-, h⟩ | h⟩
  · rw [h]
    refine ⟨.inl, ?_⟩
    rintro (hab | ⟨rfl, rfl⟩)
    · exact hab
    · exact he
  · rw [h, hf, FlowGraph.hasEdge_addEdge]
  · rw [h, await_flow, hf, FlowGraph.hasEdge_addEdge]

theorem mem_waiting_connect :
    o ∈ (st.connect s t kind).pending.waiting q ↔
      o ∈ st.pending.waiting q ∨ (¬ st.flow.hasEdge s t ∧ q = t ∧ o ∈ st.objectsOf s) := by
  rcases connect_cases st s t kind with ⟨he, h⟩ | ⟨he, st', -, -, -, hp, ⟨hn, h⟩ | h⟩
  · simp [h, he]
  · have hno := OrderedSet.isEmpty_iff.1 hn o
    simp [h, hp, hno]
  · rw [h, mem_waiting_await, hp]
    simp [he]

theorem Grows.connect : Grows st (st.connect s t kind) where
  reachable h := by rwa [connect_calls]
  calls h := by rwa [connect_calls]
  flow h := hasEdge_connect.2 (.inl h)
  holds h := by rwa [connect_objectsOf]
  due h := by
    rcases h with h | h
    · exact .inl (by rwa [connect_objectsOf])
    · exact .inr (mem_waiting_connect.2 (.inl h))

theorem Flowing.connect (h : st.Flowing) : (st.connect s t kind).Flowing := by
  intro a b o hab ho
  rw [connect_objectsOf] at ho
  by_cases hold : st.flow.hasEdge a b
  · exact Grows.connect.due (h a b o hold ho)
  · rcases hasEdge_connect.1 hab with hab | ⟨rfl, rfl⟩
    · exact absurd hab hold
    · exact .inr (mem_waiting_connect.2 (.inr ⟨hold, rfl, ho⟩))

/-- Flow edges and waiting objects come; the call graph and what pointers hold stay. -/
structure Extends (st st' : State) : Prop where
  calls : st'.calls = st.calls
  objects : st'.objectsOf = st.objectsOf
  grows : Grows st st'
  flowing : st.Flowing → st'.Flowing

theorem Extends.refl (st : State) : Extends st st := ⟨rfl, rfl, .refl st, id⟩

theorem Extends.trans {st st' st'' : State} (h : Extends st st') (h' : Extends st' st'') :
    Extends st st'' :=
  ⟨h'.calls.trans h.calls, h'.objects.trans h.objects, h.grows.trans h'.grows,
    fun hf => h'.flowing (h.flowing hf)⟩

/-- Only the numbering of elements may differ. -/
theorem Extends.of_eq {st st' : State} (hc : st'.calls = st.calls) (hf : st'.flow = st.flow)
    (ho : st'.objectsOf = st.objectsOf) (hp : st'.pending = st.pending) : Extends st st' where
  calls := hc
  objects := ho
  grows := ⟨fun h => by rwa [hc], fun h => by rwa [hc], fun h => by rwa [hf],
    fun h => by rwa [ho], fun h => by rwa [Due, ho, hp]⟩
  flowing := .congr hf ho hp

theorem Extends.await : Extends st (st.await q objs) := ⟨rfl, rfl, .await, .await⟩

theorem Extends.connect : Extends st (st.connect s t kind) :=
  ⟨connect_calls, connect_objectsOf, .connect, .connect⟩

/-! ## Reaching and calling -/

theorem reach_grows {p : Program} {m : CtxMethod} : Grows st (st.reach p m).1 := by
  unfold reach
  split
  · exact .refl st
  · exact ⟨fun h => CallGraph.mem_addReachable.2 (.inl h), id, id, id, id⟩

theorem reach_flowing {p : Program} {m : CtxMethod} (h : st.Flowing) :
    (st.reach p m).1.Flowing := by
  unfold reach
  split
  · exact h
  · exact h.congr rfl rfl rfl

@[simp] theorem reach_objectsOf {p : Program} {m : CtxMethod} :
    (st.reach p m).1.objectsOf = st.objectsOf := by
  unfold reach
  split <;> rfl

@[simp] theorem reach_edges {p : Program} {m : CtxMethod} :
    (st.reach p m).1.calls.edges = st.calls.edges := by
  unfold reach
  split <;> rfl

/-- A method is reachable once it was reached, and its body is to be treated if it was not
reachable before. -/
theorem mem_reach {p : Program} {m m' : CtxMethod} :
    m' ∈ (st.reach p m).1.calls.reachable ↔ m' ∈ st.calls.reachable ∨ m' = m := by
  unfold reach
  split
  · rename_i h
    simp only [CallGraph.isReachable, decide_eq_true_eq] at h
    exact ⟨.inl, fun hor => hor.elim id fun heq => heq ▸ h⟩
  · exact CallGraph.mem_addReachable

theorem mem_reach_tasks {p : Program} {m : CtxMethod} {k : Task} :
    k ∈ (st.reach p m).2 ↔ m ∉ st.calls.reachable ∧
      ∃ b, p.body? m.method = some b ∧ ∃ stmt ∈ b.stmts, k = .visit m stmt := by
  unfold reach
  split
  · rename_i h
    simp only [CallGraph.isReachable, decide_eq_true_eq] at h
    simp [h]
  · rename_i h
    simp only [CallGraph.isReachable, decide_eq_true_eq] at h
    cases hb : p.body? m.method with
    | none => simp
    | some b => simp [h, eq_comm]

theorem addCall_of_hasEdge {p : Program} {e : CtxEdge} (h : st.calls.hasEdge e) :
    st.addCall p e = (st, []) := by
  simp [addCall, h]

theorem addCall_of_not_hasEdge {p : Program} {e : CtxEdge} (h : ¬ st.calls.hasEdge e) :
    st.addCall p e =
      (({ st with calls := st.calls.addEdge e }.reach p e.callee).1,
        ({ st with calls := st.calls.addEdge e }.reach p e.callee).2 ++ [.wire e]) := by
  simp [addCall, h]

theorem addEdge_grows {e : CtxEdge} : Grows st { st with calls := st.calls.addEdge e } :=
  ⟨fun h => by rwa [CallGraph.reachable_addEdge],
    fun h => CallGraph.mem_edges_addEdge.2 (.inl h), id, id, id⟩

theorem addCall_grows {p : Program} {e : CtxEdge} : Grows st (st.addCall p e).1 := by
  by_cases h : st.calls.hasEdge e
  · rw [addCall_of_hasEdge h]
    exact .refl st
  · rw [addCall_of_not_hasEdge h]
    exact addEdge_grows.trans reach_grows

theorem addCall_flowing {p : Program} {e : CtxEdge} (h : st.Flowing) :
    (st.addCall p e).1.Flowing := by
  by_cases he : st.calls.hasEdge e
  · rw [addCall_of_hasEdge he]
    exact h
  · rw [addCall_of_not_hasEdge he]
    have h' : { st with calls := st.calls.addEdge e }.Flowing := h.congr rfl rfl rfl
    exact reach_flowing h'

@[simp] theorem addCall_objectsOf {p : Program} {e : CtxEdge} :
    (st.addCall p e).1.objectsOf = st.objectsOf := by
  by_cases h : st.calls.hasEdge e
  · rw [addCall_of_hasEdge h]
  · rw [addCall_of_not_hasEdge h, reach_objectsOf]
    rfl

theorem mem_addCall_edges {p : Program} {e e' : CtxEdge} :
    e' ∈ (st.addCall p e).1.calls.edges ↔ e' ∈ st.calls.edges ∨ e' = e := by
  by_cases h : st.calls.hasEdge e
  · rw [addCall_of_hasEdge h]
    exact ⟨.inl, fun hor => hor.elim id fun heq => heq ▸ CallGraph.mem_edges_of_hasEdge h⟩
  · rw [addCall_of_not_hasEdge h, reach_edges]
    exact CallGraph.mem_edges_addEdge

/-- A new call edge makes its callee reachable. -/
theorem mem_addCall_reachable {p : Program} {e : CtxEdge} (h : ¬ st.calls.hasEdge e)
    {m : CtxMethod} :
    m ∈ (st.addCall p e).1.calls.reachable ↔ m ∈ st.calls.reachable ∨ m = e.callee := by
  rw [addCall_of_not_hasEdge h, mem_reach, CallGraph.reachable_addEdge]

end State

/-! ## Doing something for each item of a list -/

section Fold
variable {α : Type} {f : State → α → State} {l : List α} {st : State}

open State

theorem foldl_extends (hf : ∀ st a, Extends st (f st a)) : Extends st (l.foldl f st) := by
  induction l generalizing st with
  | nil => exact .refl st
  | cons a l ih => exact (hf st a).trans ih

/-- A property that each step keeps holds at the end. -/
theorem foldl_keeps {P : State → Prop} (hf : ∀ st, ∀ a ∈ l, P st → P (f st a)) (h : P st) :
    P (l.foldl f st) := by
  induction l generalizing st with
  | nil => exact h
  | cons a l ih =>
    exact ih (fun st b hb => hf st b (List.mem_cons_of_mem _ hb)) (hf st a List.mem_cons_self h)

/-- What each step brings about for its item, and growth keeps, holds of every item at the end. -/
theorem foldl_brings {Q : α → State → Prop} (hf : ∀ st a, Extends st (f st a))
    (hq : ∀ st a, Q a (f st a)) (hkeep : ∀ {a st st'}, Grows st st' → Q a st → Q a st') :
    ∀ a ∈ l, Q a (l.foldl f st) := by
  induction l generalizing st with
  | nil => intro a ha; cases ha
  | cons b l ih =>
    intro a ha
    rcases List.mem_cons.1 ha with rfl | ha
    · exact hkeep (foldl_extends hf (l := l)).grows (hq st a)
    · exact ih a ha

end Fold

end ObjectFlow.PointsTo
