import ObjectFlow.Proofs.Complete
/-!
# What lasts between rounds

An analysis may stop after any round and go on later. In between no work is
lost: what the rules ask for is there, or its objects still wait. And a round
only adds to what is there, even a round that fails.
-/

namespace ObjectFlow

namespace PointsTo

/-! ## Operations -/

/-- One change that the analysis makes to its state. -/
inductive Operation : State → State → Prop
  | number (st : State) (elements : Manager) (heap : Interner AllocSite) :
    Operation st { st with elements := elements, heap := heap }
  | await (st : State) (q : Pointer) (objs : PointsToSet CtxObject) : Operation st (st.await q objs)
  | connect (st : State) (s t : Pointer) (kind : FlowKind) : Operation st (st.connect s t kind)
  | noteEntry (st : State) (m : CtxMethod) : Operation st { st with calls := st.calls.noteEntry m }
  | addReachable (st : State) (m : CtxMethod) :
    Operation st { st with calls := st.calls.addReachable m }
  | addEdge (st : State) (e : CtxEdge) : Operation st { st with calls := st.calls.addEdge e }
  | take (st : State) (rounds : Nat) (rest : Pending Pointer CtxObject) :
    Operation st { st with rounds := rounds, pending := rest }
  | hold (st : State) (q : Pointer) (new : PointsToSet CtxObject) :
    Operation st { st with pointsTo := st.pointsTo.insert q ((st.objectsOf q).union new) }

/-- Some operations, one after the other. -/
abbrev Operations : State → State → Prop := Relation.ReflTransGen Operation

section
variable {p : Program} {s : Selector} {setup : Setup} {st st' : State} {new : List Task}

theorem operations_foldl {α : Type} {f : State → α → State} (hf : ∀ st a, Operations st (f st a))
    (l : List α) (st : State) : Operations st (l.foldl f st) := by
  induction l generalizing st with
  | nil => exact .refl
  | cons a l ih => exact (hf st a).trans (ih _)

theorem reach_operations (st : State) (p : Program) (m : CtxMethod) :
    Operations st (st.reach p m).1 := by
  unfold State.reach
  split
  · exact .refl
  · exact .single (.addReachable st m)

theorem addCall_operations (st : State) (p : Program) (e : CtxEdge) :
    Operations st (st.addCall p e).1 := by
  by_cases he : st.calls.hasEdge e
  · rw [State.addCall_of_hasEdge he]
  · rw [State.addCall_of_not_hasEdge he]
    exact .head (.addEdge st e) (reach_operations _ p e.callee)

theorem visit_operations {m : CtxMethod} {stmt : Stmt}
    (hx : visit p s m stmt st = .ok (st', new)) : Operations st st' := by
  unfold visit at hx
  dsimp only at hx
  split at hx
  · obtain ⟨rfl, -⟩ := Prod.mk.inj (Except.ok.inj hx)
    exact .tail (.single (.number st _ _)) (.await _ _ _)
  · obtain ⟨rfl, -⟩ := Prod.mk.inj (Except.ok.inj hx)
    exact .single (.connect st _ _ _)
  · obtain ⟨rfl, -⟩ := Prod.mk.inj (Except.ok.inj hx)
    exact .single (.connect st _ _ _)
  · obtain ⟨rfl, -⟩ := Prod.mk.inj (Except.ok.inj hx)
    exact .single (.connect st _ _ _)
  · split at hx
    · obtain ⟨callee, mid, -, rfl, rfl, -⟩ := visitStaticCall_eq_ok hx
      exact .head (.number st _ st.heap) (addCall_operations _ p _)
    · obtain ⟨rfl, -⟩ := Prod.mk.inj (Except.ok.inj hx)
      exact .refl
  · cases hx
  · obtain ⟨rfl, -⟩ := Prod.mk.inj (Except.ok.inj hx)
    exact .refl

theorem receive_operations (c : Ctx) (v : Var) (o : CtxObject) (st : State) :
    Operations st (receive p c v o st).1 := by
  refine operations_foldl (fun st stmt => ?_) _ st
  unfold connectAccess
  dsimp only
  split
  · exact .single (.connect st _ _ _)
  · exact .single (.connect st _ _ _)
  · exact .single (.connect st _ _ _)
  · exact .single (.connect st _ _ _)
  · exact .refl

theorem call_operations {site : CtxCallSite} {o : CtxObject}
    (hx : call p s site o st = .ok (st', new)) : Operations st st' := by
  obtain ⟨callee, mid, served, -, rfl, hserved, rfl, -⟩ := call_eq_ok hx
  have hnumber := Operation.number st ((st.elements.internCallSite site).internMethod
    (calleeAt s site (some o) callee)) st.heap
  rcases hserved with ⟨-, rfl⟩ | ⟨b, -, rfl⟩
  · exact .head hnumber (addCall_operations _ p _)
  · exact .head hnumber (.head (.await _ _ _) (addCall_operations _ p _))

theorem wire_operations {e : CtxEdge} (hx : wire p e st = .ok st') : Operations st st' := by
  unfold wire at hx
  split at hx
  · obtain rfl := Except.ok.inj hx
    exact .refl
  · dsimp only at hx
    split at hx
    · cases hx
    · obtain rfl := Except.ok.inj hx
      have hargs : ∀ c d pairs, Operations st (wireArguments c d st pairs) := fun c d pairs =>
        operations_foldl (fun st a => .single (.connect st _ _ _)) pairs st
      have hres : ∀ c d returned st w, Operations st (wireResult c d returned st w) :=
        fun c d returned st w => .head (.number st _ st.heap)
          (operations_foldl (fun st v => .single (.connect st _ _ _)) returned _)
      exact (hargs _ _ _).trans (operations_foldl (hres _ _ _) _ _)

/-- A task is made of operations. -/
theorem exec_operations {k : Task} (hx : exec p s k st = .ok (st', new)) : Operations st st' := by
  cases k with
  | enter m =>
    obtain ⟨rfl, -⟩ := Prod.mk.inj (Except.ok.inj hx)
    exact .head (.number st _ st.heap) (.head (.noteEntry _ m) (reach_operations _ p m))
  | visit m stmt => exact visit_operations hx
  | receive c v o =>
    cases v with
    | none => cases hx
    | some v =>
      obtain ⟨rfl, -⟩ := Prod.mk.inj (Except.ok.inj hx)
      exact receive_operations c v o st
  | call site o => exact call_operations hx
  | wire e =>
    simp only [exec] at hx
    cases hw : wire p e st with
    | error err =>
      rw [hw] at hx
      cases hx
    | ok st₁ =>
      rw [hw] at hx
      obtain ⟨rfl, -⟩ := Prod.mk.inj (Except.ok.inj hx)
      exact wire_operations hw

theorem settle_operations (p : Program) (s : Selector) (fuel : Nat) (A : List Task) (st : State) :
    Operations st (settle p s fuel A st).2 := by
  obtain ⟨-, h, -⟩ := settle_keeps (p := p) (s := s) (P := fun _ st' => Operations st st')
    (fun h hx => h.trans (exec_operations hx)) fuel (A := A) .refl
  exact h

theorem propagate_operations (st : State) (q : Pointer) (objs : PointsToSet CtxObject) :
    Operations st (st.propagate q objs).1 := by
  unfold State.propagate
  dsimp only
  split
  · exact .refl
  · exact .head (.hold st q _) (operations_foldl (fun st t => .single (.await st t _)) _ _)

/-- So is a round, whether or not it succeeds. -/
theorem step_operations (fuel : Nat) (p : Program) (setup : Setup) (st : State) :
    Operations st (step fuel p setup st).2 := by
  unfold step
  split
  · exact .refl
  · rename_i q objs rest _
    unfold round
    dsimp only
    split
    · exact .single (.take st _ st.pending)
    · exact .head (.take st _ rest)
        ((propagate_operations _ q objs).trans (settle_operations p _ fuel _ _))

/-! ## Nothing shrinks -/

/-- All that a state has found is in another state too. -/
structure State.Enlarges (st st' : State) : Prop where
  objects : ∀ q, ∀ o ∈ st.objectsOf q, o ∈ st'.objectsOf q
  nodes : ∀ q ∈ st.flow.nodes, q ∈ st'.flow.nodes
  flow : ∀ s t kind, st.flow.kind? s t = some kind → st'.flow.kind? s t = some kind
  entries : ∀ m ∈ st.calls.entries, m ∈ st'.calls.entries
  reachable : ∀ m ∈ st.calls.reachable, m ∈ st'.calls.reachable
  calls : ∀ e ∈ st.calls.edges, e ∈ st'.calls.edges

namespace State.Enlarges

theorem refl (st : State) : st.Enlarges st where
  objects _ _ h := h
  nodes _ h := h
  flow _ _ _ h := h
  entries _ h := h
  reachable _ h := h
  calls _ h := h

theorem trans {st'' : State} (h : st.Enlarges st') (h' : st'.Enlarges st'') :
    st.Enlarges st'' where
  objects q o ho := h'.objects q o (h.objects q o ho)
  nodes q hq := h'.nodes q (h.nodes q hq)
  flow s t kind hk := h'.flow s t kind (h.flow s t kind hk)
  entries m hm := h'.entries m (h.entries m hm)
  reachable m hm := h'.reachable m (h.reachable m hm)
  calls e he := h'.calls e (h.calls e he)

/-- An edge that is there keeps its kind, whichever edge is added. -/
theorem addFlow (st : State) (s t : Pointer) (kind : FlowKind) :
    st.Enlarges { st with flow := st.flow.addEdge s t kind } := by
  unfold FlowGraph.addEdge
  split
  · exact .refl st
  · rename_i hno
    refine ⟨fun _ _ h => h, fun q hq => ?_, fun a b k hk => ?_, fun _ h => h, fun _ h => h,
      fun _ h => h⟩
    · exact OrderedSet.mem_insert.2 (.inl (OrderedSet.mem_insert.2 (.inl hq)))
    · -- the edge is only added where there is none, so it is not the one that has a kind
      have hne : (a, b) ≠ (s, t) := by
        rintro he
        obtain ⟨rfl, rfl⟩ := Prod.mk.inj he
        rw [FlowGraph.kind?] at hk
        simp [FlowGraph.hasEdge, OrderedMap.contains, hk] at hno
      rw [FlowGraph.kind?, OrderedMap.get?_insert, if_neg hne]
      exact hk

theorem connect (st : State) (s t : Pointer) (kind : FlowKind) :
    st.Enlarges (st.connect s t kind) := by
  unfold State.connect
  dsimp only
  split
  · exact ⟨fun _ _ h => h, fun _ h => h, fun _ _ _ h => h, fun _ h => h, fun _ h => h,
      fun _ h => h⟩
  · obtain ⟨-, hn, hf, -, -, -⟩ := addFlow st s t kind
    split
    · exact ⟨fun _ _ h => h, hn, hf, fun _ h => h, fun _ h => h, fun _ h => h⟩
    · exact ⟨fun _ _ h => h, hn, hf, fun _ h => h, fun _ h => h, fun _ h => h⟩

theorem of_operation (h : Operation st st') : st.Enlarges st' := by
  cases h with
  | number elements heap => exact { refl st with }
  | await q objs => exact { refl st with }
  | connect s t kind => exact connect st s t kind
  | noteEntry m =>
    exact { refl st with entries := fun m' hm' => OrderedSet.mem_insert.2 (.inl hm') }
  | addReachable m =>
    exact { refl st with reachable := fun m' hm' => CallGraph.mem_addReachable.2 (.inl hm') }
  | addEdge e =>
    refine { refl st with
      entries := fun m hm => ?_
      reachable := fun m hm => ?_
      calls := fun e' he' => CallGraph.mem_edges_addEdge.2 (.inl he') }
    · simpa only [CallGraph.entries_addEdge] using hm
    · simpa only [CallGraph.reachable_addEdge] using hm
  | take rounds rest => exact { refl st with }
  | hold q new =>
    refine { refl st with objects := fun q' o ho => ?_ }
    rw [State.objectsOf, OrderedMap.getD_insert]
    split
    · rename_i hq
      exact OrderedSet.mem_union.2 (.inl (hq ▸ ho))
    · exact ho

theorem of_operations (h : Operations st st') : st.Enlarges st' := by
  induction h with
  | refl => exact .refl st
  | tail _ ho ih => exact ih.trans (of_operation ho)

end State.Enlarges

/-! ## Nothing is lost -/

/-- A step that succeeds: a round, or the answer that nothing waits. -/
def Stepped (p : Program) (setup : Setup) (st st' : State) : Prop :=
  ∃ fuel b, step fuel p setup st = (.ok b, st')

theorem Stepped.reaches (h : Stepped p setup st st') : Reaches p setup st st' := by
  obtain ⟨fuel, b, h⟩ := h
  rcases step_eq_ok h with ⟨-, rfl, -⟩ | ⟨-, hn⟩
  · exact .refl
  · exact .single hn

/-- Whatever the rules ask of a state is there, or the objects that bring it still wait. -/
structure NothingLost (p : Program) (setup : Setup) (st : State) : Prop where
  entered : ∀ m ∈ setup.entries, ⟨[], m⟩ ∈ st.calls.reachable
  /-- The objects of a pointer have gone on along its flow edges, or wait at their ends. -/
  flowing : ∀ s t o, st.flow.hasEdge s t → o ∈ st.objectsOf s → st.Due t o
  visited : ∀ m stmt, Executes p st.conclusions m stmt → Visited p setup.selector st m stmt
  accessed : ∀ c v o, o ∈ st.objectsOf (varIn c v) → ∀ stmt ∈ accesses p v, Accessed st c o stmt
  called : ∀ c v o, o ∈ st.objectsOf (varIn c v) →
    ∀ site ∈ p.calls v, Called p setup.selector st ⟨c, site⟩ o
  joined : ∀ e ∈ st.calls.edges, e.callee ∈ st.calls.reachable ∧ Wired p st e

theorem Owed.nothingLost (h : Owed p setup [] st) : NothingLost p setup st where
  entered m hm := (h.entered m hm).resolve_left List.not_mem_nil
  flowing := h.flowing
  visited _ _ hs := h.settled_visit hs
  accessed _ _ _ ho := h.settled_receive ho
  called _ _ _ ho site hs := by
    obtain ⟨hs, hv⟩ := mem_calls.1 hs
    exact h.settled_call ho hs rfl hv
  joined _ he := ⟨(h.wired he).1, h.settled_wire he⟩

/-- After a start that succeeds and any number of steps that succeed nothing is lost, and whatever
becomes of the next step, it only adds to what is there. -/
theorem nothing_lost_between_rounds {fuel : Nat} {st₀ : State}
    (hs : start fuel p setup .empty = (.ok (), st₀))
    (hr : Relation.ReflTransGen (Stepped p setup) st₀ st) :
    NothingLost p setup st ∧ ∀ fuel, st.Enlarges (step fuel p setup st).2 := by
  refine ⟨Owed.nothingLost ?_, fun fuel => .of_operations (step_operations fuel p setup st)⟩
  induction hr with
  | refl => exact Owed.start hs
  | tail _ hn ih => exact ih.reaches hn.reaches

end

/-! ### A call between two rounds -/

namespace MidCall

def owner : ClassRef := ⟨0, "A"⟩

def main : Method := ⟨0, owner, ⟨"main", [], .void⟩, true, false, false⟩

def run : Method := ⟨1, owner, ⟨"run", [], .void⟩, false, false, false⟩

def hierarchy : Hierarchy :=
  let h := (Hierarchy.empty.addClass "A" none [] false false).2
  let h := (h.addMethod owner main.signature true false false).2
  (h.addMethod owner run.signature false false false).2

def x : Var := ⟨0, "x", .object owner, main⟩

def y : Var := ⟨1, "y", .object owner, main⟩

def this : Var := ⟨0, "this", .object owner, run⟩

def self : Var := ⟨1, "self", .object owner, run⟩

def body : Body where
  method := main
  receiver := none
  params := []
  vars := [x, y]
  stmts := [⟨⟨0, 1, main⟩, .copy y x⟩, ⟨⟨1, 2, main⟩, .alloc x (.object owner)⟩,
    ⟨⟨2, 3, main⟩, .invoke none ⟨.virtual x, run.ref, []⟩⟩, ⟨⟨3, 4, main⟩, .ret none⟩]

def runBody : Body where
  method := run
  receiver := some this
  params := []
  vars := [this, self]
  stmts := [⟨⟨0, 1, run⟩, .copy self this⟩, ⟨⟨1, 2, run⟩, .ret none⟩]

/-- The main method makes an object, copies it and runs a method on it. -/
def program : Program := ⟨hierarchy, OrderedMap.ofList [(main, body), (run, runBody)]⟩

def setup : Setup := ⟨[main], .limited .object 1 1, 0⟩

def object : CtxObject := ⟨[], ⟨⟨1, 2, main⟩, .object owner⟩⟩

def context : Ctx := [.object object.site]

def first : State := (start 10 program setup .empty).2

def second : State := (step 10 program setup first).2

/-- After one round the method is called, while its receiver and the copy wait for the object. -/
theorem nothing_lost_mid_call :
    start 10 program setup .empty = (.ok (), first) ∧ Stepped program setup first second ∧
    ⟨context, run⟩ ∈ second.calls.reachable ∧
    object ∈ second.pending.waiting (varIn [] y) ∧
    object ∈ second.pending.waiting (varIn context this) ∧
    NothingLost program setup second ∧ second.Enlarges (step 10 program setup second).2 := by
  have hfirst : start 10 program setup .empty = (.ok (), first) := rfl
  have hsecond : Stepped program setup first second := ⟨10, true, rfl⟩
  obtain ⟨hlost, hstep⟩ := nothing_lost_between_rounds hfirst (.single hsecond)
  exact ⟨hfirst, hsecond, by decide, by decide, by decide, hlost, hstep 10⟩

end MidCall

end PointsTo

end ObjectFlow
