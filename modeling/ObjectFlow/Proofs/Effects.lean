import ObjectFlow.Proofs.Growth
/-!
# What a task does

A task that is done leaves its own effect behind, and puts on the agenda
whatever the new methods, new edges and new objects ask for. `exec_did` says so
once for all tasks; the invariants of a run look at nothing else.
-/

namespace ObjectFlow.PointsTo

/-- The conclusion that the visit of a statement brings is there, or its objects are due. -/
def Visited (p : Program) (s : Selector) (st : State) (m : CtxMethod) (stmt : Stmt) : Prop :=
  match stmt.command with
  | .alloc v t => st.Due (varIn m.context v) ⟨s.heapContext m.context, ⟨stmt.place, t⟩⟩
  | .copy v w => st.flow.hasEdge (varIn m.context w) (varIn m.context v)
  | .loadField v (.static f) => st.flow.hasEdge (.staticField f) (varIn m.context v)
  | .storeField (.static f) v => st.flow.hasEdge (varIn m.context v) (.staticField f)
  | .invoke r c => c.isStatic → ∃ callee, staticCallee p.hierarchy c.ref = .ok callee ∧
      ⟨.static, ⟨m.context, ⟨stmt.place, r, c⟩⟩,
        calleeAt s ⟨m.context, ⟨stmt.place, r, c⟩⟩ none callee⟩ ∈ st.calls.edges
  | .foreign _ _ => False
  | _ => True

/-- An access has its flow edge for an object of its base. -/
def Accessed (st : State) (c : Ctx) (o : CtxObject) (stmt : Stmt) : Prop :=
  match stmt.command with
  | .storeField a v => st.flow.hasEdge (varIn c v) (.instanceField o a.field)
  | .loadField v a => st.flow.hasEdge (.instanceField o a.field) (varIn c v)
  | .storeElement _ _ v => st.flow.hasEdge (varIn c v) (.arrayIndex o)
  | .loadElement v _ _ => st.flow.hasEdge (.arrayIndex o) (varIn c v)
  | _ => True

/-- A call has its edge for an object, which is due at the receiver of the callee. -/
def Called (p : Program) (s : Selector) (st : State) (site : CtxCallSite) (o : CtxObject) : Prop :=
  ∃ callee, instanceCallee p.hierarchy site.site.call o = .ok callee ∧
    ⟨site.site.call.kind, site, calleeAt s site (some o) callee⟩ ∈ st.calls.edges ∧
    ∀ b, p.body? callee = some b →
      st.Due (.var (calleeAt s site (some o) callee).context b.receiver) o

/-- The arguments and returned variables of a call edge are joined to the callee. -/
def Wired (p : Program) (st : State) (e : CtxEdge) : Prop :=
  ∀ b, p.body? e.callee.method = some b →
    e.site.site.call.args.length = b.params.length ∧
    (∀ a ∈ e.site.site.call.args.zip b.params,
      st.flow.hasEdge (varIn e.site.context a.1) (varIn e.callee.context a.2)) ∧
    ∀ w, e.site.site.result = some w → ∀ v ∈ b.returnVars,
      st.flow.hasEdge (varIn e.callee.context v) (varIn e.site.context w)

/-- What a task is for has come about. -/
def Settled (p : Program) (s : Selector) (st : State) : Task → Prop
  | .enter m => m ∈ st.calls.reachable
  | .visit m stmt => Visited p s st m stmt
  | .receive _ none _ => False
  | .receive c (some v) o => ∀ stmt ∈ accesses p v, Accessed st c o stmt
  | .call site o => Called p s st site o
  | .wire e => Wired p st e

section
variable {p : Program} {s : Selector} {st st' : State}

theorem Accessed.mono (hg : st.Grows st') {c : Ctx} {o : CtxObject} {stmt : Stmt}
    (h : Accessed st c o stmt) : Accessed st' c o stmt := by
  unfold Accessed at h ⊢
  split <;> rename_i hc <;> simp only [hc] at h
  · exact hg.flow h
  · exact hg.flow h
  · exact hg.flow h
  · exact hg.flow h
  · trivial

/-- What has come about stays. -/
theorem Settled.mono (hg : st.Grows st') {k : Task} (h : Settled p s st k) :
    Settled p s st' k := by
  match k, h with
  | .enter m, h => exact hg.reachable h
  | .visit m stmt, h =>
    simp only [Settled, Visited] at h ⊢
    split <;> rename_i hc <;> simp only [hc] at h
    · exact hg.due h
    · exact hg.flow h
    · exact hg.flow h
    · exact hg.flow h
    · intro hst
      obtain ⟨callee, hcallee, he⟩ := h hst
      exact ⟨callee, hcallee, hg.calls he⟩
    · trivial
  | .receive c (some v) o, h => exact fun stmt hs => (h stmt hs).mono hg
  | .call site o, ⟨callee, hcallee, he, hd⟩ =>
    exact ⟨callee, hcallee, hg.calls he, fun b hb => hg.due (hd b hb)⟩
  | .wire e, h =>
    intro b hb
    obtain ⟨hl, ha, hr⟩ := h b hb
    exact ⟨hl, fun a ham => hg.flow (ha a ham), fun w hw v hv => hg.flow (hr w hw v hv)⟩

end

/-! ## One task -/

/-- All that a task did to a state, and the tasks that it put on the agenda for it. -/
structure Did (p : Program) (s : Selector) (k : Task) (st st' : State) (new : List Task) :
    Prop where
  grows : st.Grows st'
  flowing : st.Flowing → st'.Flowing
  objects : st'.objectsOf = st.objectsOf
  settled : Settled p s st' k
  visits : ∀ {m}, m ∈ st'.calls.reachable → m ∈ st.calls.reachable ∨
    ∀ b, p.body? m.method = some b → ∀ stmt ∈ b.stmts, .visit m stmt ∈ new
  wires : ∀ {e}, e ∈ st'.calls.edges →
    e ∈ st.calls.edges ∨ (e.callee ∈ st'.calls.reachable ∧ .wire e ∈ new)
  calls : ∀ {c v o}, k = .receive c (some v) o → ∀ site ∈ p.calls v, .call ⟨c, site⟩ o ∈ new

section
variable {p : Program} {s : Selector} {st st' : State} {new : List Task}

/-- A task that leaves the call graph alone and is no arrival of an object. -/
theorem Did.of_extends {k : Task} (hk : ∀ c v o, k ≠ .receive c (some v) o)
    (he : st.Extends st') (hs : Settled p s st' k) : Did p s k st st' new where
  grows := he.grows
  flowing := he.flowing
  objects := he.objects
  settled := hs
  visits h := .inl (by rwa [he.calls] at h)
  wires h := .inl (by rwa [he.calls] at h)
  calls h := absurd h (hk _ _ _)

theorem connect_did {k : Task} {a b : Pointer} {kind : FlowKind}
    (hk : ∀ c v o, k ≠ .receive c (some v) o)
    (hs : (st.connect a b kind).flow.hasEdge a b → Settled p s (st.connect a b kind) k) :
    Did p s k st (st.connect a b kind) new :=
  .of_extends hk .connect (hs (State.hasEdge_connect.2 (.inr ⟨rfl, rfl⟩)))

/-- Adding a call edge after the callee's receiver was served. -/
theorem addCall_did {k : Task} {e : CtxEdge} {mid : State}
    (hk : ∀ c v o, k ≠ .receive c (some v) o) (hm : st.Extends mid)
    (hs : mid.Grows (mid.addCall p e).1 → e ∈ (mid.addCall p e).1.calls.edges →
      Settled p s (mid.addCall p e).1 k) :
    Did p s k st (mid.addCall p e).1 (mid.addCall p e).2 where
  grows := hm.grows.trans State.addCall_grows
  flowing h := State.addCall_flowing (hm.flowing h)
  objects := State.addCall_objectsOf.trans hm.objects
  settled := hs State.addCall_grows (State.mem_addCall_edges.2 (.inr rfl))
  visits {m} hreach := by
    rw [← hm.calls]
    by_cases he : mid.calls.hasEdge e
    · rw [State.addCall_of_hasEdge he] at hreach
      exact .inl hreach
    · rw [State.addCall_of_not_hasEdge he] at hreach ⊢
      simp only [State.mem_reach, CallGraph.reachable_addEdge] at hreach
      -- only the callee can have become reachable, and then its body is on the agenda
      by_cases hold : m ∈ mid.calls.reachable
      · exact .inl hold
      · right
        intro b hb stmt hstmt
        have hme : m = e.callee := hreach.resolve_left hold
        subst hme
        refine List.mem_append_left _ (State.mem_reach_tasks.2 ⟨?_, b, hb, stmt, hstmt, rfl⟩)
        rwa [CallGraph.reachable_addEdge]
  wires {e'} he' := by
    rw [← hm.calls]
    rcases State.mem_addCall_edges.1 he' with h | rfl
    · exact .inl h
    · by_cases he : mid.calls.hasEdge e'
      · exact .inl (CallGraph.mem_edges_of_hasEdge he)
      · right
        rw [State.addCall_of_not_hasEdge he]
        exact ⟨State.mem_reach.2 (.inr rfl), List.mem_append_right _ (by simp)⟩
  calls h := absurd h (hk _ _ _)

theorem enter_did {m : CtxMethod} :
    Did p s (.enter m) st (enter p m st).1 (enter p m st).2 where
  grows := by
    -- what is noted as an entry is not reachable yet
    have hn : st.Grows { st with
        elements := st.elements.internMethod m
        calls := st.calls.noteEntry m } := ⟨id, id, id, id, id⟩
    exact hn.trans State.reach_grows
  flowing h := by
    have h' : { st with
        elements := st.elements.internMethod m
        calls := st.calls.noteEntry m }.Flowing := h.congr rfl rfl rfl
    exact State.reach_flowing h'
  objects := State.reach_objectsOf
  settled := State.mem_reach.2 (.inr rfl)
  visits {m'} hm' := by
    simp only [enter, State.mem_reach, CallGraph.reachable_noteEntry] at hm'
    by_cases hold : m' ∈ st.calls.reachable
    · exact .inl hold
    · right
      intro b hb stmt hstmt
      have hme : m' = m := hm'.resolve_left hold
      subst hme
      exact State.mem_reach_tasks.2 ⟨hold, b, hb, stmt, hstmt, rfl⟩
  wires he := by
    simp only [enter, State.reach_edges, CallGraph.edges_noteEntry] at he
    exact .inl he
  calls h := by cases h

theorem visitAlloc_did {m : CtxMethod} {stmt : Stmt} {v : Var} {t : Ty}
    (hc : stmt.command = .alloc v t) :
    Did p s (.visit m stmt) st (visitAlloc s m v ⟨stmt.place, t⟩ st) new := by
  have h : (visitAlloc s m v ⟨stmt.place, t⟩ st).Due (varIn m.context v)
      ⟨s.heapContext m.context, ⟨stmt.place, t⟩⟩ := State.due_await.2 (.inr ⟨rfl, by simp⟩)
  have hnumbered : st.Extends { st with
      heap := st.heap.intern ⟨stmt.place, t⟩
      elements := st.elements.internObject ⟨s.heapContext m.context, ⟨stmt.place, t⟩⟩ } :=
    .of_eq rfl rfl rfl rfl
  exact .of_extends (by simp) (hnumbered.trans .await) (by simpa [Settled, Visited, hc] using h)

/-- A static call that succeeds has found its callee and adds the edge to it. -/
theorem visitStaticCall_eq_ok {m : CtxMethod} {site : CallSite}
    (h : visitStaticCall p s m site st = .ok (st', new)) :
    ∃ callee mid, staticCallee p.hierarchy site.call.ref = .ok callee ∧
      mid = { st with
        elements := (st.elements.internCallSite ⟨m.context, site⟩).internMethod
          (calleeAt s ⟨m.context, site⟩ none callee) } ∧
      (mid.addCall p ⟨.static, ⟨m.context, site⟩, calleeAt s ⟨m.context, site⟩ none callee⟩).1 =
        st' ∧
      (mid.addCall p ⟨.static, ⟨m.context, site⟩, calleeAt s ⟨m.context, site⟩ none callee⟩).2 =
        new := by
  unfold visitStaticCall at h
  cases hcallee : staticCallee p.hierarchy site.call.ref with
  | error e =>
    rw [hcallee] at h
    cases h
  | ok callee =>
    rw [hcallee] at h
    have hadd := Except.ok.inj h
    exact ⟨callee, _, rfl, rfl, congrArg Prod.fst hadd, congrArg Prod.snd hadd⟩

/-- A call on an object that succeeds has found its callee. The object then waits for the receiver
of the callee, if that has a body, and the edge to it is added. -/
theorem call_eq_ok {site : CtxCallSite} {o : CtxObject}
    (h : call p s site o st = .ok (st', new)) :
    ∃ callee mid served, instanceCallee p.hierarchy site.site.call o = .ok callee ∧
      mid = { st with
        elements := (st.elements.internCallSite site).internMethod
          (calleeAt s site (some o) callee) } ∧
      (p.body? callee = none ∧ served = mid ∨ ∃ b, p.body? callee = some b ∧
        served = mid.await (.var (calleeAt s site (some o) callee).context b.receiver)
          (.singleton o)) ∧
      (served.addCall p ⟨site.site.call.kind, site, calleeAt s site (some o) callee⟩).1 = st' ∧
      (served.addCall p ⟨site.site.call.kind, site, calleeAt s site (some o) callee⟩).2 = new := by
  unfold call at h
  cases hcallee : instanceCallee p.hierarchy site.site.call o with
  | error e =>
    rw [hcallee] at h
    cases h
  | ok callee =>
    rw [hcallee] at h
    have hadd := Except.ok.inj h
    refine ⟨callee, _, _, rfl, rfl, ?_, congrArg Prod.fst hadd, congrArg Prod.snd hadd⟩
    cases p.body? callee with
    | none => exact .inl ⟨rfl, rfl⟩
    | some b => exact .inr ⟨b, rfl, rfl⟩

theorem visitStaticCall_did {m : CtxMethod} {stmt : Stmt} {r : Option Var} {c : Call}
    (hc : stmt.command = .invoke r c)
    (h : visitStaticCall p s m ⟨stmt.place, r, c⟩ st = .ok (st', new)) :
    Did p s (.visit m stmt) st st' new := by
  obtain ⟨callee, mid, hcallee, rfl, rfl, rfl⟩ := visitStaticCall_eq_ok h
  refine addCall_did (by simp) (.of_eq rfl rfl rfl rfl) ?_
  intro _ he
  simp only [Settled, Visited, hc]
  exact fun _ => ⟨callee, hcallee, he⟩

theorem visit_did {m : CtxMethod} {stmt : Stmt} (h : visit p s m stmt st = .ok (st', new)) :
    Did p s (.visit m stmt) st st' new := by
  have same : Visited p s st m stmt → Did p s (.visit m stmt) st st new := fun hv =>
    .of_extends (by simp) (.refl st) hv
  unfold visit at h
  dsimp only at h
  split at h
  · rename_i hc
    obtain ⟨rfl, rfl⟩ := Prod.mk.inj (Except.ok.inj h)
    exact visitAlloc_did hc
  · rename_i hc
    obtain ⟨rfl, rfl⟩ := Prod.mk.inj (Except.ok.inj h)
    exact connect_did (by simp) fun he => by simpa only [Settled, Visited, hc] using he
  · rename_i hc
    obtain ⟨rfl, rfl⟩ := Prod.mk.inj (Except.ok.inj h)
    exact connect_did (by simp) fun he => by simpa only [Settled, Visited, hc] using he
  · rename_i hc
    obtain ⟨rfl, rfl⟩ := Prod.mk.inj (Except.ok.inj h)
    exact connect_did (by simp) fun he => by simpa only [Settled, Visited, hc] using he
  · rename_i r c hc
    split at h
    · exact visitStaticCall_did hc h
    · rename_i hn
      obtain ⟨rfl, rfl⟩ := Prod.mk.inj (Except.ok.inj h)
      exact same (by simp only [Visited, hc]; exact fun hst => absurd hst hn)
  · cases h
  · rename_i h1 h2 h3 h4 h5 h6
    obtain ⟨rfl, rfl⟩ := Prod.mk.inj (Except.ok.inj h)
    refine same ?_
    unfold Visited
    split
    · exact absurd ‹_› (h1 _ _)
    · exact absurd ‹_› (h2 _ _)
    · exact absurd ‹_› (h3 _ _)
    · exact absurd ‹_› (h4 _ _)
    · exact absurd ‹_› (h5 _ _)
    · exact absurd ‹_› (h6 _ _)
    · trivial

theorem connectAccess_spec (c : Ctx) (o : CtxObject) (st : State) (stmt : Stmt) :
    st.Extends (connectAccess c o st stmt) ∧ Accessed (connectAccess c o st stmt) c o stmt := by
  have hc : ∀ a b kind, st.Extends (st.connect a b kind) ∧
      (st.connect a b kind).flow.hasEdge a b := fun a b kind =>
    ⟨.connect, State.hasEdge_connect.2 (.inr ⟨rfl, rfl⟩)⟩
  unfold connectAccess Accessed
  cases stmt.command with
  | storeField a v => exact hc _ _ _
  | loadField v a => exact hc _ _ _
  | storeElement b i v => exact hc _ _ _
  | loadElement v b i => exact hc _ _ _
  | _ => exact ⟨.refl st, trivial⟩

theorem receive_extends {c : Ctx} {v : Var} {o : CtxObject} :
    st.Extends (receive p c v o st).1 :=
  foldl_extends fun st stmt => (connectAccess_spec c o st stmt).1

theorem receive_did {c : Ctx} {v : Var} {o : CtxObject} :
    Did p s (.receive c (some v) o) st (receive p c v o st).1 (receive p c v o st).2 where
  grows := receive_extends.grows
  flowing := receive_extends.flowing
  objects := receive_extends.objects
  settled := foldl_brings (Q := fun stmt st => Accessed st c o stmt)
    (fun st stmt => (connectAccess_spec c o st stmt).1)
    (fun st stmt => (connectAccess_spec c o st stmt).2) fun hg h => h.mono hg
  visits h := .inl (by rwa [receive_extends.calls] at h)
  wires h := .inl (by rwa [receive_extends.calls] at h)
  calls h site hs := by
    simp only [Task.receive.injEq, Option.some.injEq] at h
    obtain ⟨rfl, rfl, rfl⟩ := h
    exact List.mem_map.2 ⟨site, hs, rfl⟩

theorem call_did {site : CtxCallSite} {o : CtxObject} (h : call p s site o st = .ok (st', new)) :
    Did p s (.call site o) st st' new := by
  obtain ⟨callee, mid, served, hcallee, rfl, hserved, rfl, rfl⟩ := call_eq_ok h
  have hnumbered : st.Extends { st with
      elements := (st.elements.internCallSite site).internMethod
        (calleeAt s site (some o) callee) } := .of_eq rfl rfl rfl rfl
  rcases hserved with ⟨hb, rfl⟩ | ⟨b, hb, rfl⟩
  · refine addCall_did (by simp) hnumbered fun _ he => ⟨callee, hcallee, he, fun b hb' => ?_⟩
    rw [hb] at hb'
    cases hb'
  · refine addCall_did (by simp) (hnumbered.trans .await) fun hg he =>
      ⟨callee, hcallee, he, fun b' hb' => hg.due ?_⟩
    obtain rfl : b = b' := Option.some.inj (hb.symm.trans hb')
    exact State.due_await.2 (.inr ⟨rfl, by simp⟩)

theorem wireArguments_spec (c d : Ctx) (pairs : List (Var × Var)) (st : State) :
    st.Extends (wireArguments c d st pairs) ∧
      ∀ a ∈ pairs, (wireArguments c d st pairs).flow.hasEdge (varIn c a.1) (varIn d a.2) :=
  ⟨foldl_extends fun _ _ => .connect,
    foldl_brings (Q := fun (a : Var × Var) st => st.flow.hasEdge (varIn c a.1) (varIn d a.2))
      (fun _ _ => .connect) (fun _ _ => State.hasEdge_connect.2 (.inr ⟨rfl, rfl⟩))
      fun hg h => hg.flow h⟩

theorem wireResult_spec (c d : Ctx) (returned : List Var) (st : State) (w : Var) :
    st.Extends (wireResult c d returned st w) ∧
      ∀ v ∈ returned, (wireResult c d returned st w).flow.hasEdge (varIn d v) (varIn c w) := by
  have hnumbered : st.Extends (st.internPointer (varIn c w)) := .of_eq rfl rfl rfl rfl
  exact ⟨hnumbered.trans (foldl_extends fun _ _ => .connect),
    foldl_brings (Q := fun v st => st.flow.hasEdge (varIn d v) (varIn c w))
      (fun _ _ => .connect) (fun _ _ => State.hasEdge_connect.2 (.inr ⟨rfl, rfl⟩))
      fun hg h => hg.flow h⟩

theorem wire_did {e : CtxEdge} (h : wire p e st = .ok st') : Did p s (.wire e) st st' new := by
  unfold wire at h
  cases hb : p.body? e.callee.method with
  | none =>
    simp only [hb] at h
    cases h
    refine .of_extends (by simp) (.refl st) fun b hb' => ?_
    rw [hb] at hb'
    cases hb'
  | some b =>
    simp only [hb] at h
    split at h
    · cases h
    · rename_i hl
      obtain ⟨hext, ha⟩ := wireArguments_spec e.site.context e.callee.context
        (e.site.site.call.args.zip b.params) st
      cases hr : e.site.site.result with
      | none =>
        simp only [hr, Option.toList_none, List.foldl_nil] at h
        cases h
        refine .of_extends (by simp) hext fun b' hb' => ?_
        obtain rfl : b = b' := Option.some.inj (hb.symm.trans hb')
        refine ⟨not_not.1 hl, ha, fun w hw => ?_⟩
        rw [hr] at hw
        cases hw
      | some w =>
        simp only [hr, Option.toList_some, List.foldl_cons, List.foldl_nil] at h
        cases h
        obtain ⟨hext', hv⟩ := wireResult_spec e.site.context e.callee.context
          b.returnVars (wireArguments e.site.context e.callee.context st
            (e.site.site.call.args.zip b.params)) w
        refine .of_extends (by simp) (hext.trans hext') fun b' hb' => ?_
        obtain rfl : b = b' := Option.some.inj (hb.symm.trans hb')
        refine ⟨not_not.1 hl, fun a h => hext'.grows.flow (ha a h), fun w' hw' => ?_⟩
        obtain rfl : w = w' := Option.some.inj (hr.symm.trans hw')
        exact hv

/-- What any task does. -/
theorem exec_did {k : Task} (h : exec p s k st = .ok (st', new)) : Did p s k st st' new := by
  cases k with
  | enter m =>
    obtain ⟨rfl, rfl⟩ := Prod.mk.inj (Except.ok.inj h)
    exact enter_did
  | visit m stmt => exact visit_did h
  | receive c v o =>
    cases v with
    | none => cases h
    | some v =>
      obtain ⟨rfl, rfl⟩ := Prod.mk.inj (Except.ok.inj h)
      exact receive_did
  | call site o => exact call_did h
  | wire e =>
    simp only [exec] at h
    cases hw : wire p e st with
    | error err =>
      rw [hw] at h
      cases h
    | ok st₁ =>
      rw [hw] at h
      obtain ⟨rfl, rfl⟩ := Prod.mk.inj (Except.ok.inj h)
      exact wire_did hw

end

end ObjectFlow.PointsTo
