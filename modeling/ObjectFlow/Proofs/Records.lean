import ObjectFlow.PointsTo.Findings
import ObjectFlow.Proofs.Least
/-!
# What the findings report

A run numbers each pointer before anything flows to it, and each allocation site
before one of its objects does. Merging the contexts therefore loses nothing: a
site is reported for a variable exactly if one of its objects is held by the
variable in some context, and likewise for fields, elements and the call graph.
-/

namespace ObjectFlow

namespace PointsTo

/-! ## Numbers -/

namespace Manager

variable {m : Manager} {q q' : Pointer}

/-- The pointer has been numbered. -/
def Numbers (m : Manager) : Pointer → Prop
  | .var c v => (c, v) ∈ m.vars.keys
  | .staticField f => f ∈ m.staticFields.keys
  | .instanceField b f => (b, f) ∈ m.instanceFields.keys
  | .arrayIndex a => a ∈ m.arrayIndexes.keys

theorem numbers_internPointer : (m.internPointer q).Numbers q' ↔ m.Numbers q' ∨ q' = q := by
  cases q <;> cases q' <;> simp [internPointer, Numbers, Interner.intern]

theorem mem_varPointers {c : Ctx} {v : Option Var} :
    .var c v ∈ m.varPointers ↔ m.Numbers (.var c v) := by
  simp [varPointers, Numbers, Interner.toList, OrderedSet.mem_iff]

theorem mem_instanceFieldPointers {b : CtxObject} {f : Field} :
    .instanceField b f ∈ m.instanceFieldPointers ↔ m.Numbers (.instanceField b f) := by
  simp [instanceFieldPointers, Numbers, Interner.toList, OrderedSet.mem_iff]

theorem mem_arrayPointers {a : CtxObject} :
    .arrayIndex a ∈ m.arrayPointers ↔ m.Numbers (.arrayIndex a) := by
  simp [arrayPointers, Numbers, Interner.toList, OrderedSet.mem_iff]

end Manager

/-! ## Nothing flows without a number -/

/-- Pointers behind flow edges and pointers with objects are numbered, and so are the sites of the
objects. -/
structure Recorded (st : State) : Prop where
  flow : ∀ {s t}, st.flow.hasEdge s t → st.elements.Numbers t
  pointer : ∀ {q o}, st.Due q o → st.elements.Numbers q
  site : ∀ {q o}, st.Due q o → o.site ∈ st.heap.keys

/-- The object that a task is about. -/
def Task.object? : Task → Option CtxObject
  | .receive _ _ o => some o
  | .call _ o => some o
  | _ => none

/-- A recorded state after a task. Its new tasks are about the object of the task alone. -/
structure Records (k : Task) (st st' : State) (new : List Task) : Prop where
  recorded : Recorded st'
  heap : ∀ x ∈ st.heap.keys, x ∈ st'.heap.keys
  objects : ∀ k' ∈ new, ∀ o, k'.object? = some o → k.object? = some o

section
variable {p : Program} {s : Selector} {setup : Setup} {st st' : State} {k : Task}
  {new : List Task}

/-- Numbers may come. -/
theorem Recorded.congr (h : Recorded st)
    (hn : ∀ q, st.elements.Numbers q → st'.elements.Numbers q)
    (hh : ∀ x ∈ st.heap.keys, x ∈ st'.heap.keys) (hf : st'.flow = st.flow)
    (ho : st'.objectsOf = st.objectsOf) (hp : st'.pending = st.pending) : Recorded st' where
  flow he := by
    rw [hf] at he
    exact hn _ (h.flow he)
  pointer hd := by
    rw [State.Due, ho, hp] at hd
    exact hn _ (h.pointer hd)
  site hd := by
    rw [State.Due, ho, hp] at hd
    exact hh _ (h.site hd)

theorem Recorded.await {q : Pointer} {objs : PointsToSet CtxObject} (h : Recorded st)
    (ho : ∀ o ∈ objs, o.site ∈ st.heap.keys) : Recorded (st.await q objs) where
  flow he := Manager.numbers_internPointer.2 (.inl (h.flow he))
  pointer hd := by
    rcases State.due_await.1 hd with hd | ⟨rfl, -⟩
    · exact Manager.numbers_internPointer.2 (.inl (h.pointer hd))
    · exact Manager.numbers_internPointer.2 (.inr rfl)
  site hd := by
    rcases State.due_await.1 hd with hd | ⟨-, hin⟩
    · exact h.site hd
    · exact ho _ hin

theorem connect_elements (st : State) (a b : Pointer) (kind : FlowKind) (q : Pointer) :
    (st.connect a b kind).elements.Numbers q ↔ st.elements.Numbers q ∨ q = a ∨ q = b := by
  unfold State.connect
  dsimp only
  split
  · simp [State.internPointer, Manager.numbers_internPointer, or_assoc]
  · split
    · simp [State.internPointer, Manager.numbers_internPointer, or_assoc]
    · simp [State.await, State.internPointer, Manager.numbers_internPointer, or_assoc]

@[simp] theorem connect_heap {a b : Pointer} {kind : FlowKind} :
    (st.connect a b kind).heap = st.heap := by
  unfold State.connect
  dsimp only
  split
  · rfl
  · split <;> rfl

theorem Recorded.connect {a b : Pointer} {kind : FlowKind} (h : Recorded st) :
    Recorded (st.connect a b kind) where
  flow he := by
    rw [connect_elements]
    rcases State.hasEdge_connect.1 he with he | ⟨-, rfl⟩
    · exact .inl (h.flow he)
    · exact .inr (.inr rfl)
  pointer hd := by
    rw [connect_elements]
    rcases hd with ho | hw
    · rw [State.connect_objectsOf] at ho
      exact .inl (h.pointer (.inl ho))
    · rcases State.mem_waiting_connect.1 hw with hw | ⟨-, rfl, -⟩
      · exact .inl (h.pointer (.inr hw))
      · exact .inr (.inr rfl)
  site hd := by
    rw [connect_heap]
    rcases hd with ho | hw
    · rw [State.connect_objectsOf] at ho
      exact h.site (.inl ho)
    · -- what waits behind a new edge was held in front of it
      rcases State.mem_waiting_connect.1 hw with hw | ⟨-, -, ho⟩
      · exact h.site (.inr hw)
      · exact h.site (.inl ho)

/-- Reaching a method and adding a call edge leave all but the call graph as it is. -/
theorem reach_same (st : State) (p : Program) (m : CtxMethod) :
    ∃ g, (st.reach p m).1 = { st with calls := g } := by
  unfold State.reach
  split <;> exact ⟨_, rfl⟩

theorem addCall_same (st : State) (p : Program) (e : CtxEdge) :
    ∃ g, (st.addCall p e).1 = { st with calls := g } := by
  by_cases he : st.calls.hasEdge e
  · rw [State.addCall_of_hasEdge he]
    exact ⟨_, rfl⟩
  · rw [State.addCall_of_not_hasEdge he]
    exact reach_same { st with calls := st.calls.addEdge e } p e.callee

theorem reach_objects {m : CtxMethod} : ∀ k ∈ (st.reach p m).2, k.object? = none := by
  intro k hk
  obtain ⟨-, b, -, stmt, -, rfl⟩ := State.mem_reach_tasks.1 hk
  rfl

theorem addCall_objects {e : CtxEdge} : ∀ k ∈ (st.addCall p e).2, k.object? = none := by
  intro k hk
  by_cases he : st.calls.hasEdge e
  · rw [State.addCall_of_hasEdge he] at hk
    exact absurd hk List.not_mem_nil
  · rw [State.addCall_of_not_hasEdge he] at hk
    rcases List.mem_append.1 hk with hk | hk
    · exact reach_objects k hk
    · obtain rfl := List.mem_singleton.1 hk
      rfl

theorem Records.of_eq (h : Recorded st') (hh : st'.heap = st.heap)
    (ho : ∀ k' ∈ new, k'.object? = none) : Records k st st' new where
  recorded := h
  heap x hx := by rwa [hh]
  objects k' hk' o hko := by
    rw [ho k' hk'] at hko
    cases hko

theorem addCall_records {e : CtxEdge} (h : Recorded st) (hh : st.heap = st'.heap) :
    Records k st' (st.addCall p e).1 (st.addCall p e).2 := by
  obtain ⟨g, hg⟩ := addCall_same st p e
  refine .of_eq ?_ ?_ addCall_objects
  · rw [hg]
    exact h.congr (fun _ hq => hq) (fun _ hx => hx) rfl rfl rfl
  · rw [hg]
    exact hh

theorem visitAlloc_records {m : CtxMethod} {v : Var} {a : AllocSite} (h : Recorded st) :
    Records k st (visitAlloc s m v a st) [] := by
  have hheap : ∀ x ∈ st.heap.keys, x ∈ (st.heap.intern a).keys := fun x hx =>
    OrderedSet.mem_insert.2 (.inl hx)
  constructor
  · apply Recorded.await
    · exact h.congr (fun _ hq => hq) hheap rfl rfl rfl
    · intro o ho
      obtain rfl := OrderedSet.mem_singleton.1 ho
      exact OrderedSet.mem_insert.2 (.inr rfl)
  · exact hheap
  · intro k' hk'
    exact absurd hk' List.not_mem_nil

theorem visit_records {m : CtxMethod} {stmt : Stmt} (h : Recorded st)
    (hx : visit p s m stmt st = .ok (st', new)) : Records k st st' new := by
  have none : ∀ k' ∈ ([] : List Task), k'.object? = none := fun k' hk' =>
    absurd hk' List.not_mem_nil
  unfold visit at hx
  dsimp only at hx
  split at hx
  · obtain ⟨rfl, rfl⟩ := Prod.mk.inj (Except.ok.inj hx)
    exact visitAlloc_records h
  · obtain ⟨rfl, rfl⟩ := Prod.mk.inj (Except.ok.inj hx)
    exact .of_eq h.connect connect_heap none
  · obtain ⟨rfl, rfl⟩ := Prod.mk.inj (Except.ok.inj hx)
    exact .of_eq h.connect connect_heap none
  · obtain ⟨rfl, rfl⟩ := Prod.mk.inj (Except.ok.inj hx)
    exact .of_eq h.connect connect_heap none
  · split at hx
    · obtain ⟨callee, mid, -, rfl, rfl, rfl⟩ := visitStaticCall_eq_ok hx
      exact addCall_records (h.congr (fun _ hq => hq) (fun _ hx => hx) rfl rfl rfl) rfl
    · obtain ⟨rfl, rfl⟩ := Prod.mk.inj (Except.ok.inj hx)
      exact .of_eq h rfl none
  · cases hx
  · obtain ⟨rfl, rfl⟩ := Prod.mk.inj (Except.ok.inj hx)
    exact .of_eq h rfl none

/-- Flow edges may come. -/
theorem connectAccess_recorded {c : Ctx} {o : CtxObject} {stmt : Stmt} (h : Recorded st) :
    Recorded (connectAccess c o st stmt) ∧ (connectAccess c o st stmt).heap = st.heap := by
  unfold connectAccess
  cases stmt.command with
  | storeField a v => exact ⟨h.connect, connect_heap⟩
  | loadField v a => exact ⟨h.connect, connect_heap⟩
  | storeElement b i v => exact ⟨h.connect, connect_heap⟩
  | loadElement v b i => exact ⟨h.connect, connect_heap⟩
  | _ => exact ⟨h, rfl⟩

theorem receive_records {c : Ctx} {v : Var} {o : CtxObject} (h : Recorded st) :
    Records (.receive c (some v) o) st (receive p c v o st).1 (receive p c v o st).2 := by
  have hfold : Recorded (receive p c v o st).1 ∧ (receive p c v o st).1.heap = st.heap :=
    foldl_keeps (P := fun st' => Recorded st' ∧ st'.heap = st.heap)
      (fun st' stmt _ h' => ⟨(connectAccess_recorded h'.1).1,
        (connectAccess_recorded h'.1).2.trans h'.2⟩) ⟨h, rfl⟩
  refine ⟨hfold.1, fun x hx => by rwa [hfold.2], fun k' hk' o' ho' => ?_⟩
  obtain ⟨site, -, rfl⟩ := List.mem_map.1 hk'
  exact ho'

theorem call_records {site : CtxCallSite} {o : CtxObject} (h : Recorded st)
    (ho : o.site ∈ st.heap.keys) (hx : call p s site o st = .ok (st', new)) :
    Records (.call site o) st st' new := by
  obtain ⟨callee, mid, served, -, rfl, hserved, rfl, rfl⟩ := call_eq_ok hx
  have hmid : Recorded { st with
      elements := (st.elements.internCallSite site).internMethod
        (calleeAt s site (some o) callee) } :=
    h.congr (fun _ hq => hq) (fun _ hx => hx) rfl rfl rfl
  rcases hserved with ⟨-, rfl⟩ | ⟨b, -, rfl⟩
  · exact addCall_records hmid rfl
  · refine addCall_records (hmid.await fun o' ho' => ?_) rfl
    obtain rfl := OrderedSet.mem_singleton.1 ho'
    exact ho

theorem wire_records {e : CtxEdge} (h : Recorded st) (hx : wire p e st = .ok st') :
    Records (.wire e) st st' [] := by
  have keeps : ∀ {α : Type} (f : State → α → State) (l : List α) (st₁ : State),
      (∀ st₂ a, Recorded st₂ → Recorded (f st₂ a) ∧ (f st₂ a).heap = st₂.heap) →
      Recorded st₁ → Recorded (l.foldl f st₁) ∧ (l.foldl f st₁).heap = st₁.heap := by
    intro α f l st₁ hf h₁
    exact foldl_keeps (P := fun st₂ => Recorded st₂ ∧ st₂.heap = st₁.heap)
      (fun st₂ a _ h₂ => ⟨(hf st₂ a h₂.1).1, (hf st₂ a h₂.1).2.trans h₂.2⟩) ⟨h₁, rfl⟩
  unfold wire at hx
  cases hb : p.body? e.callee.method with
  | none =>
    simp only [hb] at hx
    obtain rfl := Except.ok.inj hx
    exact .of_eq h rfl fun k' hk' => absurd hk' List.not_mem_nil
  | some b =>
    simp only [hb] at hx
    split at hx
    · cases hx
    · obtain rfl := Except.ok.inj hx
      have hargs := keeps (fun st (a : Var × Var) => st.connect (varIn e.site.context a.1)
        (varIn e.callee.context a.2) .parameterPassing) (e.site.site.call.args.zip b.params) st
        (fun st₂ a h₂ => ⟨h₂.connect, connect_heap⟩) h
      have hres := keeps (wireResult e.site.context e.callee.context b.returnVars)
        e.site.site.result.toList _ (fun st₂ w h₂ => by
          have hn : Recorded (st₂.internPointer (varIn e.site.context w)) :=
            h₂.congr (fun q hq => Manager.numbers_internPointer.2 (.inl hq)) (fun _ hx => hx)
              rfl rfl rfl
          exact keeps (fun st v => st.connect (varIn e.callee.context v)
            (varIn e.site.context w) .ret) b.returnVars _
            (fun st₃ v h₃ => ⟨h₃.connect, connect_heap⟩) hn) hargs.1
      exact .of_eq hres.1 (hres.2.trans hargs.2) fun k' hk' => absurd hk' List.not_mem_nil

theorem enter_records {m : CtxMethod} (h : Recorded st) :
    Records (.enter m) st (enter p m st).1 (enter p m st).2 := by
  obtain ⟨g, hg⟩ := reach_same { st with
    elements := st.elements.internMethod m
    calls := st.calls.noteEntry m } p m
  have hst : (enter p m st).1 = { st with
      elements := st.elements.internMethod m
      calls := g } := hg
  rw [hst]
  exact .of_eq (h.congr (fun _ hq => hq) (fun _ hx => hx) rfl rfl rfl) rfl reach_objects

/-- Any task. -/
theorem exec_records (h : Recorded st) (ho : ∀ o, k.object? = some o → o.site ∈ st.heap.keys)
    (hx : exec p s k st = .ok (st', new)) : Records k st st' new := by
  cases k with
  | enter m =>
    obtain ⟨rfl, rfl⟩ := Prod.mk.inj (Except.ok.inj hx)
    exact enter_records h
  | visit m stmt => exact visit_records h hx
  | receive c v o =>
    cases v with
    | none => cases hx
    | some v =>
      obtain ⟨rfl, rfl⟩ := Prod.mk.inj (Except.ok.inj hx)
      exact receive_records h
  | call site o => exact call_records h (ho o rfl) hx
  | wire e =>
    simp only [exec] at hx
    cases hw : wire p e st with
    | error err =>
      rw [hw] at hx
      cases hx
    | ok st₁ =>
      rw [hw] at hx
      obtain ⟨rfl, rfl⟩ := Prod.mk.inj (Except.ok.inj hx)
      exact wire_records h hw

/-! ### A whole run -/

theorem propagate_numbers (st : State) (q : Pointer) (objs : PointsToSet CtxObject) :
    (∀ q', st.elements.Numbers q' → (st.propagate q objs).1.elements.Numbers q') ∧
      (st.propagate q objs).1.heap = st.heap := by
  unfold State.propagate
  dsimp only
  split
  · exact ⟨fun _ hq => hq, rfl⟩
  · exact foldl_keeps (P := fun st' : State =>
      (∀ q', st.elements.Numbers q' → st'.elements.Numbers q') ∧ st'.heap = st.heap)
      (fun st' t _ h => ⟨fun q' hq =>
        Manager.numbers_internPointer.2 (.inl (h.1 q' hq)), h.2⟩) ⟨fun _ hq => hq, rfl⟩

/-- A recorded state with an agenda about recorded objects. -/
def OnRecord (A : List Task) (st : State) : Prop :=
  Recorded st ∧ ∀ k ∈ A, ∀ o, k.object? = some o → o.site ∈ st.heap.keys

theorem OnRecord.after {A : List Task} (h : OnRecord (k :: A) st)
    (hx : exec p s k st = .ok (st', new)) : OnRecord (new ++ A) st' := by
  have hr := exec_records h.1 (h.2 k List.mem_cons_self) hx
  refine ⟨hr.recorded, fun k' hk' o ho => hr.heap _ ?_⟩
  rcases List.mem_append.1 hk' with hk' | hk'
  · exact h.2 k List.mem_cons_self o (hr.objects k' hk' o ho)
  · exact h.2 k' (List.mem_cons_of_mem _ hk') o ho

theorem OnRecord.settle {A : List Task} (fuel : Nat) (h : OnRecord A st) :
    Recorded (settle p s fuel A st).2 := by
  obtain ⟨rest, hrest, -⟩ := settle_keeps (P := OnRecord) (fun h hx => h.after hx) fuel h
  exact hrest.1

/-- The objects of a waiting pointer are on record, and so are the arrivals they make. -/
theorem propagate_onRecord {q : Pointer} {objs : PointsToSet CtxObject}
    {rest : Pending Pointer CtxObject} (ht : st.pending.take? q = some (objs, rest))
    (h : Recorded st) : OnRecord (arrivals q ((st.taken rest).propagate q objs).2)
      ((st.taken rest).propagate q objs).1 := by
  obtain ⟨-, hf, -, hnew, -⟩ := propagate_spec (st.taken rest) q objs
  obtain ⟨hn, hh⟩ := propagate_numbers (st.taken rest) q objs
  refine ⟨⟨fun he => ?_, fun hd => ?_, fun hd => ?_⟩, fun k hk o hko => ?_⟩
  · rw [hf] at he
    exact hn _ (h.flow he)
  · rcases due_propagate ht hd with hd | ⟨he, -⟩
    · exact hn _ (h.pointer hd)
    · exact hn _ (h.flow he)
  · rw [hh]
    rcases due_propagate ht hd with hd | ⟨-, hin⟩
    · exact h.site hd
    · exact h.site (due_of_take? ht hin)
  · rw [hh]
    unfold arrivals at hk
    split at hk
    · obtain ⟨o', hin, rfl⟩ := List.mem_map.1 hk
      obtain rfl := Option.some.inj hko
      exact h.site (due_of_take? ht ((hnew _).1 hin).1)
    · exact absurd hk List.not_mem_nil

theorem Recorded.reaches (h : Recorded st) (hr : Reaches p setup st st') : Recorded st' := by
  induction hr with
  | refl => exact h
  | tail _ hn ih =>
    obtain ⟨fuel, q, objs, rest, ht, hr⟩ := hn
    have hs := (propagate_onRecord ht ih).settle (p := p) (s := setup.selector) fuel
    rwa [(round_eq_ok hr).2] at hs

theorem OnRecord.initial : OnRecord (setup.entries.map fun m => .enter ⟨[], m⟩)
    { State.empty with started := true } := by
  refine ⟨⟨fun he => absurd he (FlowGraph.not_hasEdge_empty _ _), fun hd => ?_, fun hd => ?_⟩,
    fun k hk o ho => ?_⟩
  · rcases hd with hd | hd <;> exact absurd hd (OrderedSet.not_mem_empty _)
  · rcases hd with hd | hd <;> exact absurd hd (OrderedSet.not_mem_empty _)
  · obtain ⟨m, -, rfl⟩ := List.mem_map.1 hk
    cases ho

/-- What an analysis leaves is on record. -/
theorem analyze_recorded {fuel : Nat} (h : analyze fuel p setup .empty = (.ok (), st)) :
    Recorded st := by
  obtain ⟨st₀, hs, hr, -⟩ := analyze_eq_ok h
  have h₀ := (OnRecord.initial : OnRecord (setup.entries.map _) _).settle (p := p)
    (s := setup.selector) fuel
  rw [start_eq_ok hs] at h₀
  exact h₀.reaches hr

/-! ## The entries -/

theorem reach_entries {m : CtxMethod} :
    (st.reach p m).1.calls.entries = st.calls.entries := by
  unfold State.reach
  split <;> rfl

theorem addCall_entries {e : CtxEdge} :
    (st.addCall p e).1.calls.entries = st.calls.entries := by
  by_cases he : st.calls.hasEdge e
  · rw [State.addCall_of_hasEdge he]
  · rw [State.addCall_of_not_hasEdge he, reach_entries]
    exact CallGraph.entries_addEdge _ _

theorem reach_tasks {m : CtxMethod} : ∀ k ∈ (st.reach p m).2, ∀ m', k ≠ .enter m' := by
  intro k hk m' he
  obtain ⟨-, b, -, stmt, -, rfl⟩ := State.mem_reach_tasks.1 hk
  cases he

theorem addCall_tasks {e : CtxEdge} : ∀ k ∈ (st.addCall p e).2, ∀ m', k ≠ .enter m' := by
  intro k hk m' hm'
  by_cases he : st.calls.hasEdge e
  · rw [State.addCall_of_hasEdge he] at hk
    exact absurd hk List.not_mem_nil
  · rw [State.addCall_of_not_hasEdge he] at hk
    rcases List.mem_append.1 hk with hk | hk
    · exact reach_tasks k hk m' hm'
    · obtain rfl := List.mem_singleton.1 hk
      cases hm'

theorem wire_calls {e : CtxEdge} (hx : wire p e st = .ok st') : st'.calls = st.calls := by
  unfold wire at hx
  cases hb : p.body? e.callee.method with
  | none =>
    simp only [hb] at hx
    obtain rfl := Except.ok.inj hx
    rfl
  | some b =>
    simp only [hb] at hx
    split at hx
    · cases hx
    · obtain rfl := Except.ok.inj hx
      have hargs := (wireArguments_spec e.site.context e.callee.context
        (e.site.site.call.args.zip b.params) st).1
      refine State.Extends.calls (hargs.trans (foldl_extends fun st w => ?_))
      exact (wireResult_spec e.site.context e.callee.context b.returnVars st w).1

/-- The entries after a task that notes none. -/
theorem entries_of_eq {g g' : CtxCallGraph} (hk : ∀ m, k ≠ .enter m)
    (hg : g'.entries = g.entries) (m : CtxMethod) :
    m ∈ g'.entries ↔ m ∈ g.entries ∨ k = .enter m := by
  rw [hg]
  exact ⟨.inl, fun h => h.resolve_right (hk m)⟩

theorem visit_entries {m : CtxMethod} {stmt : Stmt} (hx : visit p s m stmt st = .ok (st', new)) :
    st'.calls.entries = st.calls.entries ∧ ∀ k' ∈ new, ∀ m', k' ≠ .enter m' := by
  have none : ∀ k' ∈ ([] : List Task), ∀ m', k' ≠ .enter m' := fun k' hk' =>
    absurd hk' List.not_mem_nil
  unfold visit at hx
  dsimp only at hx
  split at hx
  · obtain ⟨rfl, rfl⟩ := Prod.mk.inj (Except.ok.inj hx)
    exact ⟨rfl, none⟩
  · obtain ⟨rfl, rfl⟩ := Prod.mk.inj (Except.ok.inj hx)
    exact ⟨by rw [State.connect_calls], none⟩
  · obtain ⟨rfl, rfl⟩ := Prod.mk.inj (Except.ok.inj hx)
    exact ⟨by rw [State.connect_calls], none⟩
  · obtain ⟨rfl, rfl⟩ := Prod.mk.inj (Except.ok.inj hx)
    exact ⟨by rw [State.connect_calls], none⟩
  · split at hx
    · obtain ⟨callee, mid, -, rfl, rfl, rfl⟩ := visitStaticCall_eq_ok hx
      exact ⟨addCall_entries, addCall_tasks⟩
    · obtain ⟨rfl, rfl⟩ := Prod.mk.inj (Except.ok.inj hx)
      exact ⟨rfl, none⟩
  · cases hx
  · obtain ⟨rfl, rfl⟩ := Prod.mk.inj (Except.ok.inj hx)
    exact ⟨rfl, none⟩

theorem enter_entries {m m' : CtxMethod} : m' ∈ (enter p m st).1.calls.entries ↔
    m' ∈ st.calls.entries ∨ Task.enter m = .enter m' := by
  have hg : (enter p m st).1.calls.entries = st.calls.entries.insert m := reach_entries
  rw [hg, OrderedSet.mem_insert, Task.enter.injEq, @eq_comm _ m]

/-- Only the task that enters a method notes an entry, and no task brings such a task. -/
theorem exec_entries (hx : exec p s k st = .ok (st', new)) :
    (∀ m, m ∈ st'.calls.entries ↔ m ∈ st.calls.entries ∨ k = .enter m) ∧
      ∀ k' ∈ new, ∀ m, k' ≠ .enter m := by
  cases k with
  | enter m =>
    obtain ⟨rfl, rfl⟩ := Prod.mk.inj (Except.ok.inj hx)
    exact ⟨fun m' => enter_entries, reach_tasks⟩
  | visit m stmt =>
    obtain ⟨hg, hnew⟩ := visit_entries hx
    exact ⟨entries_of_eq (by simp) hg, hnew⟩
  | receive c v o =>
    cases v with
    | none => cases hx
    | some v =>
      obtain ⟨rfl, rfl⟩ := Prod.mk.inj (Except.ok.inj hx)
      refine ⟨entries_of_eq (by simp) (congrArg CallGraph.entries receive_extends.calls),
        fun k' hk' m hm => ?_⟩
      obtain ⟨site, -, rfl⟩ := List.mem_map.1 hk'
      cases hm
  | call site o =>
    obtain ⟨callee, mid, served, -, rfl, hserved, rfl, rfl⟩ := call_eq_ok hx
    refine ⟨entries_of_eq (by simp) (addCall_entries.trans ?_), addCall_tasks⟩
    rcases hserved with ⟨-, rfl⟩ | ⟨b, -, rfl⟩ <;> rfl
  | wire e =>
    simp only [exec] at hx
    cases hw : wire p e st with
    | error err =>
      rw [hw] at hx
      cases hx
    | ok st₁ =>
      rw [hw] at hx
      obtain ⟨rfl, rfl⟩ := Prod.mk.inj (Except.ok.inj hx)
      exact ⟨entries_of_eq (by simp) (by rw [wire_calls hw]), fun k' hk' =>
        absurd hk' List.not_mem_nil⟩

/-- The entries of a state and those that are still on its agenda. -/
def EntriesAre (E : List Method) (A : List Task) (st : State) : Prop :=
  ∀ m, (m ∈ st.calls.entries ∨ .enter m ∈ A) ↔ ∃ e ∈ E, m = ⟨[], e⟩

theorem EntriesAre.after {E : List Method} {A : List Task} (h : EntriesAre E (k :: A) st)
    (hx : exec p s k st = .ok (st', new)) : EntriesAre E (new ++ A) st' := by
  obtain ⟨hg, hnew⟩ := exec_entries hx
  intro m
  rw [← h m, hg, List.mem_append, List.mem_cons]
  constructor
  · rintro ((hm | rfl) | hm | hm)
    · exact .inl hm
    · exact .inr (.inl rfl)
    · exact absurd rfl (hnew _ hm m)
    · exact .inr (.inr hm)
  · rintro (hm | rfl | hm)
    · exact .inl (.inl hm)
    · exact .inl (.inr rfl)
    · exact .inr (.inr hm)

theorem EntriesAre.settle {E : List Method} {A : List Task} {fuel : Nat}
    (h : EntriesAre E A st) (hr : settle p s fuel A st = (.ok (), st')) : EntriesAre E [] st' := by
  obtain ⟨rest, hrest, hnil⟩ := settle_keeps (P := EntriesAre E) (fun h hx => h.after hx) fuel h
  rw [hr] at hrest hnil
  rwa [hnil rfl] at hrest

theorem enter_not_mem_arrivals {q : Pointer} {new : List CtxObject} (m : CtxMethod) :
    .enter m ∉ arrivals q new := by
  intro hm
  unfold arrivals at hm
  split at hm
  · obtain ⟨o, -, he⟩ := List.mem_map.1 hm
    cases he
  · exact absurd hm List.not_mem_nil

theorem EntriesAre.reaches {E : List Method} (h : EntriesAre E [] st)
    (hr : Reaches p setup st st') : EntriesAre E [] st' := by
  induction hr with
  | refl => exact h
  | tail _ hn ih =>
    obtain ⟨fuel, q, objs, rest, ht, hr⟩ := hn
    refine EntriesAre.settle (fun m => ?_) (round_eq_ok hr).2
    rw [← ih m, (propagate_spec _ q objs).1]
    exact or_congr_right ⟨fun hm => absurd hm (enter_not_mem_arrivals m),
      fun hm => absurd hm List.not_mem_nil⟩

/-- The entries that an analysis leaves are those it was given, in the empty context. -/
theorem analyze_entries {fuel : Nat} (h : analyze fuel p setup .empty = (.ok (), st))
    (m : CtxMethod) : m ∈ st.calls.entries ↔ ∃ e ∈ setup.entries, m = ⟨[], e⟩ := by
  obtain ⟨st₀, hs, hr, -⟩ := analyze_eq_ok h
  have hinit : EntriesAre setup.entries (setup.entries.map fun m => .enter ⟨[], m⟩)
      { State.empty with started := true } := by
    intro m
    constructor
    · rintro (hm | hm)
      · exact absurd hm (OrderedSet.not_mem_empty _)
      · obtain ⟨e, he, hm⟩ := List.mem_map.1 hm
        exact ⟨e, he, (Task.enter.inj hm).symm⟩
    · rintro ⟨e, he, rfl⟩
      exact .inr (List.mem_map.2 ⟨e, he, rfl⟩)
  have hfin := (hinit.settle (start_eq_ok hs)).reaches hr m
  rw [← hfin]
  exact ⟨.inl, fun hm => hm.resolve_right List.not_mem_nil⟩

end

/-! ## Merged contexts -/

namespace Findings

section Graph
variable {r : Findings}

theorem mem_map_method {ms : List CtxMethod} {m : Method} :
    m ∈ ms.map CtxMethod.method ↔ ∃ c, ⟨c, m⟩ ∈ ms := by
  rw [List.mem_map]
  exact ⟨fun ⟨⟨c, _⟩, hm, he⟩ => ⟨c, he ▸ hm⟩, fun ⟨c, hm⟩ => ⟨_, hm, rfl⟩⟩

theorem foldl_addEntry (ms : List CtxMethod) (g : PlainCallGraph) :
    ms.foldl (fun g m => g.addEntry m.method) g =
      { g with
        entries := g.entries.insertAll (ms.map CtxMethod.method)
        reachable := g.reachable.insertAll (ms.map CtxMethod.method) } := by
  induction ms generalizing g with
  | nil => rfl
  | cons m ms ih =>
    rw [List.foldl_cons, ih]
    rfl

theorem foldl_addReachable (ms : List CtxMethod) (g : PlainCallGraph) :
    ms.foldl (fun g m => g.addReachable m.method) g =
      { g with reachable := g.reachable.insertAll (ms.map CtxMethod.method) } := by
  induction ms generalizing g with
  | nil => rfl
  | cons m ms ih =>
    rw [List.foldl_cons, ih]
    rfl

theorem foldl_addEdge {es : List CtxEdge} {g : PlainCallGraph} :
    (es.foldl (fun g e => g.addEdge (plainEdge e)) g).entries = g.entries ∧
    (es.foldl (fun g e => g.addEdge (plainEdge e)) g).reachable = g.reachable ∧
    (g.Grouped → (es.foldl (fun g e => g.addEdge (plainEdge e)) g).Grouped) ∧
    ∀ e, e ∈ (es.foldl (fun g e => g.addEdge (plainEdge e)) g).edges ↔
      e ∈ g.edges ∨ ∃ e' ∈ es, plainEdge e' = e := by
  induction es generalizing g with
  | nil => simp
  | cons e₀ es ih =>
    obtain ⟨hn, hr, hg, he⟩ := ih (g := g.addEdge (plainEdge e₀))
    refine ⟨hn.trans ?_, hr.trans (CallGraph.reachable_addEdge g _),
      fun h => hg (h.addEdge _), fun e => ?_⟩
    · simp only [CallGraph.addEdge]
      split <;> rfl
    · rw [List.foldl_cons, he, CallGraph.mem_edges_addEdge, or_assoc, @eq_comm _ e]
      simp only [List.mem_cons, exists_eq_or_imp]

/-- The merged edges are added to a graph of the merged methods, the entries first. -/
theorem callGraph_eq : r.callGraph = r.calls.edges.foldl (fun g e => g.addEdge (plainEdge e))
    { (CallGraph.empty : PlainCallGraph) with
      entries := .ofList (r.calls.entries.toList.map CtxMethod.method)
      reachable := .ofList
        ((r.calls.entries.toList ++ r.calls.reachable.toList).map CtxMethod.method) } := by
  rw [callGraph, foldl_addEntry, foldl_addReachable, List.map_append, OrderedSet.ofList_append]
  rfl

theorem mem_callGraph_entries {m : Method} :
    m ∈ r.callGraph.entries ↔ ∃ c, ⟨c, m⟩ ∈ r.calls.entries := by
  rw [callGraph_eq, foldl_addEdge.1, OrderedSet.mem_ofList, mem_map_method]
  exact Iff.rfl

theorem mem_callGraph_reachable {m : Method} : m ∈ r.callGraph.reachable ↔
    (∃ c, ⟨c, m⟩ ∈ r.calls.entries) ∨ ∃ c, ⟨c, m⟩ ∈ r.calls.reachable := by
  rw [callGraph_eq, foldl_addEdge.2.1, OrderedSet.mem_ofList, List.map_append, List.mem_append,
    mem_map_method, mem_map_method]
  exact Iff.rfl

theorem mem_callGraph_edges {e : CallEdge Method CallSite} :
    e ∈ r.callGraph.edges ↔ ∃ e' ∈ r.calls.edges, plainEdge e' = e := by
  rw [callGraph_eq, foldl_addEdge.2.2.2]
  exact or_iff_right List.not_mem_nil

theorem callGraph_grouped : r.callGraph.Grouped := by
  rw [callGraph_eq]
  exact foldl_addEdge.2.2.1 fun s es h => by cases h

end Graph

section Sites
variable {st : State} {x : AllocSite}

theorem mem_sitesOf {r : Findings} {qs : List Pointer} : x ∈ r.sitesOf qs ↔
    x ∈ r.heap.keys ∧ ∃ q ∈ qs, ∃ o ∈ r.objectsOf q, o.site = x := by
  simp only [sitesOf, List.mem_filter, decide_eq_true_eq, List.mem_map, List.mem_flatMap]
  refine and_congr_right fun _ => ⟨?_, ?_⟩
  · rintro ⟨o, ⟨q, hq, ho⟩, hx⟩
    exact ⟨q, hq, o, ho, hx⟩
  · rintro ⟨q, hq, o, ho, hx⟩
    exact ⟨o, ⟨q, hq, ho⟩, hx⟩

/-- On record, the sites of some pointers are those of the objects that they hold. -/
theorem mem_sitesOf_recorded (h : Recorded st) {qs : List Pointer} :
    x ∈ (ofState st).sitesOf qs ↔ ∃ q ∈ qs, ∃ o ∈ st.objectsOf q, o.site = x := by
  rw [mem_sitesOf]
  constructor
  · rintro ⟨-, hq⟩
    exact hq
  · rintro ⟨q, hq, o, ho, rfl⟩
    exact ⟨h.site (.inl ho), q, hq, o, ho, rfl⟩

/-- A site is reported for a variable if an object made there is held in some context. -/
theorem mem_variableSites (h : Recorded st) {v : Var} : x ∈ (ofState st).variableSites v ↔
    ∃ c, ∃ o ∈ st.objectsOf (varIn c v), o.site = x := by
  rw [variableSites, mem_sitesOf_recorded h]
  constructor
  · rintro ⟨q, hq, ho⟩
    obtain ⟨-, hv⟩ := List.mem_filter.1 hq
    cases q with
    | var c w =>
      obtain rfl : w = some v := of_decide_eq_true hv
      exact ⟨c, ho⟩
    | staticField f => exact absurd (of_decide_eq_true hv) (by simp [varOf?])
    | instanceField b f => exact absurd (of_decide_eq_true hv) (by simp [varOf?])
    | arrayIndex a => exact absurd (of_decide_eq_true hv) (by simp [varOf?])
  · rintro ⟨c, o, ho, hx⟩
    refine ⟨_, List.mem_filter.2 ⟨?_, by simp [varOf?]⟩, o, ho, hx⟩
    exact Manager.mem_varPointers.2 (h.pointer (.inl ho))

theorem mem_staticFieldSites (h : Recorded st) {f : Field} :
    x ∈ (ofState st).staticFieldSites f ↔
      ∃ o ∈ st.objectsOf (.staticField f), o.site = x := by
  simp [staticFieldSites, mem_sitesOf_recorded h]

theorem mem_fieldSites (h : Recorded st) {b : AllocSite} {f : Field} :
    x ∈ (ofState st).fieldSites b f ↔
      ∃ c, ∃ o ∈ st.objectsOf (.instanceField ⟨c, b⟩ f), o.site = x := by
  rw [fieldSites, mem_sitesOf_recorded h]
  constructor
  · rintro ⟨q, hq, ho⟩
    obtain ⟨-, hb⟩ := List.mem_filter.1 hq
    cases q with
    | instanceField a g =>
      obtain ⟨c, a⟩ := a
      simp only [isFieldOf, Bool.and_eq_true, decide_eq_true_eq] at hb
      obtain ⟨rfl, rfl⟩ := hb
      exact ⟨c, ho⟩
    | var c w => cases hb
    | staticField g => cases hb
    | arrayIndex a => cases hb
  · rintro ⟨c, o, ho, hx⟩
    refine ⟨_, List.mem_filter.2 ⟨?_, by simp [isFieldOf]⟩, o, ho, hx⟩
    exact Manager.mem_instanceFieldPointers.2 (h.pointer (.inl ho))

theorem mem_elementSites (h : Recorded st) {b : AllocSite} :
    x ∈ (ofState st).elementSites b ↔
      ∃ c, ∃ o ∈ st.objectsOf (.arrayIndex ⟨c, b⟩), o.site = x := by
  rw [elementSites, mem_sitesOf_recorded h]
  constructor
  · rintro ⟨q, hq, ho⟩
    obtain ⟨-, hb⟩ := List.mem_filter.1 hq
    cases q with
    | arrayIndex a =>
      obtain ⟨c, a⟩ := a
      simp only [isElementOf, decide_eq_true_eq] at hb
      subst hb
      exact ⟨c, ho⟩
    | var c w => cases hb
    | staticField g => cases hb
    | instanceField a g => cases hb
  · rintro ⟨c, o, ho, hx⟩
    refine ⟨_, List.mem_filter.2 ⟨?_, by simp [isElementOf]⟩, o, ho, hx⟩
    exact Manager.mem_arrayPointers.2 (h.pointer (.inl ho))

end Sites

/-! ### The call graph of a run -/

section Run
variable {p : Program} {setup : Setup} {st : State} {fuel : Nat}

/-- The entries of the merged call graph are those of the run. -/
theorem callGraph_entries (h : analyze fuel p setup .empty = (.ok (), st)) (m : Method) :
    m ∈ (ofState st).callGraph.entries ↔ m ∈ setup.entries := by
  rw [mem_callGraph_entries]
  constructor
  · rintro ⟨c, hm⟩
    obtain ⟨e, he, heq⟩ := (analyze_entries h _).1 hm
    obtain rfl := congrArg CtxMethod.method heq
    exact he
  · intro hm
    exact ⟨[], (analyze_entries h _).2 ⟨m, hm, rfl⟩⟩

/-- A method is reachable in the merged call graph if it is reachable in some context. -/
theorem callGraph_reachable (h : analyze fuel p setup .empty = (.ok (), st)) (m : Method) :
    m ∈ (ofState st).callGraph.reachable ↔ ∃ c, ⟨c, m⟩ ∈ st.calls.reachable := by
  rw [mem_callGraph_reachable]
  refine or_iff_right_of_imp fun hm => ?_
  -- the entries are reachable in the empty context
  obtain ⟨c, hm⟩ := hm
  obtain ⟨st₀, hs, hr, hp⟩ := analyze_eq_ok h
  obtain ⟨e, he, heq⟩ := (analyze_entries h _).1 hm
  obtain rfl := congrArg CtxMethod.method heq
  exact ⟨[], (least_of_reaches hs hr hp).1.entry _ he⟩

end Run

end Findings

end PointsTo

end ObjectFlow
