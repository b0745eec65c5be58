import ObjectFlow.Proofs.Attained
import ObjectFlow.Proofs.Refinement
/-!
# Everything hangs on a chain of calls

Whatever an analysis numbers belongs to methods that a property carries: it holds
of the entries, call edges lead on to methods where it holds, and no variable that a
body uses leads out of it. This holds after each task, so a failure cannot leave
anything loose. Where bodies use only variables of their own, being at the end of a
chain of call edges is such a property; what depends on the context alone is one
whatever the bodies use.
-/

namespace ObjectFlow.PointsTo

/-- The call sites along a chain of call edges from an entry, and the method where it ends. -/
inductive CallPath (g : CtxCallGraph) : List CallSite → CtxMethod → Prop
  | entry {m : CtxMethod} (hm : m ∈ g.entries) : CallPath g [] m
  | call {ss : List CallSite} {e : CtxEdge} (before : CallPath g ss e.site.container)
    (he : e ∈ g.edges) : CallPath g (ss ++ [e.site.site]) e.callee

/-- Some chain of call edges leads to the method. -/
def Chained (g : CtxCallGraph) (m : CtxMethod) : Prop := ∃ ss, CallPath g ss m

/-- In no context does it matter to `R` whether a body is meant or a variable that it uses. -/
structure Carries (p : Program) (R : CtxMethod → Prop) : Prop where
  placed : ∀ {c n b s}, p.body? n = some b → s ∈ b.stmts → R ⟨c, n⟩ → R ⟨c, s.place.method⟩
  placing : ∀ {c n b s}, p.body? n = some b → s ∈ b.stmts → R ⟨c, s.place.method⟩ → R ⟨c, n⟩
  used : ∀ {c n b s v}, p.body? n = some b → s ∈ b.stmts → v ∈ s.command.mentions →
    (R ⟨c, v.method⟩ ↔ R ⟨c, n⟩)
  receiver : ∀ {c n b v}, p.body? n = some b → b.receiver = some v → R ⟨c, n⟩ → R ⟨c, v.method⟩
  param : ∀ {c n b v}, p.body? n = some b → v ∈ b.params → R ⟨c, n⟩ → R ⟨c, v.method⟩

/-- What depends on the context alone is carried by all bodies. -/
theorem Carries.of_context (p : Program) (P : Ctx → Prop) : Carries p fun m => P m.context where
  placed _ _ h := h
  placing _ _ h := h
  used _ _ _ := Iff.rfl
  receiver _ _ h := h
  param _ _ h := h

/-- Everything is carried by bodies that use only variables of their own. -/
theorem Carries.of_scoped {p : Program} (hp : p.Built) (hown : p.Scoped) (R : CtxMethod → Prop) :
    Carries p R where
  placed hb hs h := by rwa [hp.placed hb hs]
  placing hb hs h := by rwa [hp.placed hb hs] at h
  used hb hs hv := by rw [hown.method hb hs hv]
  receiver hb hv h := by rwa [(hp.own hb).receiver _ hv, hp.method hb]
  param hb hv h := by rwa [(hp.own hb).params _ hv, hp.method hb]

/-- The variable belongs to one of the methods `R`, in its context; a missing one to any. The
object belongs to `O`. -/
def Anchored (R : CtxMethod → Prop) (O : CtxObject → Prop) : Pointer → Prop
  | .var c v => ∃ m, R ⟨c, m⟩ ∧ ∀ w, v = some w → w.method = m
  | .staticField _ => True
  | .instanceField b _ => O b
  | .arrayIndex a => O a

/-- The objects that were numbered. -/
def State.Knows (st : State) (o : CtxObject) : Prop := o ∈ st.elements.objects.keys

/-- Everything in a state belongs to methods `R`. The call graph starts at entries of the setup and
is closed. -/
structure Rooted (setup : Setup) (R : CtxMethod → Prop) (st : State) : Prop where
  reachable : ∀ {m}, m ∈ st.calls.reachable → R m
  caller : ∀ {e}, e ∈ st.calls.edges → R e.site.container
  callee : ∀ {e}, e ∈ st.calls.edges → e.callee ∈ st.calls.reachable
  entry : ∀ {m}, m ∈ st.calls.entries →
    m ∈ st.calls.reachable ∧ ∃ e ∈ setup.entries, m = ⟨[], e⟩
  method : ∀ {m}, m ∈ st.elements.methods.keys → R m
  callSite : ∀ {x}, x ∈ st.elements.callSites.keys → R x.container
  object : ∀ {o}, st.Knows o → ∃ m, R m ∧ o.context = setup.selector.heapContext m.context
  pointer : ∀ {q}, st.elements.Numbers q → Anchored R st.Knows q
  due : ∀ {q o}, st.Due q o → st.Knows o

/-- What a task is about belongs to methods `R` and known objects. -/
def Task.Rooted (p : Program) (setup : Setup) (R : CtxMethod → Prop) (O : CtxObject → Prop) :
    Task → Prop
  | .enter m => ∃ e ∈ setup.entries, m = ⟨[], e⟩
  | .visit m stmt => R m ∧ ∃ b, p.body? m.method = some b ∧ stmt ∈ b.stmts
  | .receive c v o => Anchored R O (.var c v) ∧ O o
  | .call site o => R site.container ∧ p.Has site.site.stmt ∧ O o
  | .wire e => R e.site.container ∧ R e.callee ∧ p.Has e.site.site.stmt

section
variable {p : Program} {setup : Setup} {R R' : CtxMethod → Prop} {O O' : CtxObject → Prop}
  {st st' : State} {new : List Task}

theorem Anchored.mono {q : Pointer} (h : Anchored R O q) (hR : ∀ m, R m → R' m)
    (hO : ∀ o, O o → O' o) : Anchored R' O' q := by
  match q, h with
  | .var c v, ⟨m, hm, hv⟩ => exact ⟨m, hR _ hm, hv⟩
  | .staticField _, h => exact h
  | .instanceField b _, h => exact hO b h
  | .arrayIndex a, h => exact hO a h

theorem Task.Rooted.mono {k : Task} (h : k.Rooted p setup R O) (hR : ∀ m, R m → R' m)
    (hO : ∀ o, O o → O' o) : k.Rooted p setup R' O' := by
  match k, h with
  | .enter _, h => exact h
  | .visit _ _, ⟨hm, hb⟩ => exact ⟨hR _ hm, hb⟩
  | .receive _ _ _, ⟨hv, ho⟩ => exact ⟨hv.mono hR hO, hO _ ho⟩
  | .call _ _, ⟨hm, hs, ho⟩ => exact ⟨hR _ hm, hs, hO _ ho⟩
  | .wire _, ⟨hm, hc, hs⟩ => exact ⟨hR _ hm, hR _ hc, hs⟩

theorem Rooted.mono (h : Rooted setup R st) (hR : ∀ m, R m → R' m) : Rooted setup R' st where
  reachable hm := hR _ (h.reachable hm)
  caller he := hR _ (h.caller he)
  callee := h.callee
  entry := h.entry
  method hm := hR _ (h.method hm)
  callSite hx := hR _ (h.callSite hx)
  object ho := by
    obtain ⟨m, hm, hc⟩ := h.object ho
    exact ⟨m, hR _ hm, hc⟩
  pointer hq := (h.pointer hq).mono hR fun _ ho => ho
  due := h.due

/-! ## Operations -/

/-- A state with more pointers and more waiting objects than another, and the same other
elements. -/
structure Adds (R : CtxMethod → Prop) (st st' : State) : Prop where
  calls : st'.calls = st.calls
  methods : st'.elements.methods = st.elements.methods
  callSites : st'.elements.callSites = st.elements.callSites
  objects : st'.elements.objects = st.elements.objects
  pointer : ∀ {q}, st'.elements.Numbers q → st.elements.Numbers q ∨ Anchored R st.Knows q
  due : ∀ {q o}, st'.Due q o → (∃ q', st.Due q' o) ∨ st.Knows o

theorem Adds.knows (h : Adds R st st') : st'.Knows = st.Knows := by
  funext o
  rw [State.Knows, h.objects, State.Knows]

theorem Adds.refl (R : CtxMethod → Prop) (st : State) : Adds R st st :=
  ⟨rfl, rfl, rfl, rfl, .inl, fun hd => .inl ⟨_, hd⟩⟩

theorem Adds.trans {st'' : State} (h : Adds R st st') (h' : Adds R st' st'') : Adds R st st'' where
  calls := h'.calls.trans h.calls
  methods := h'.methods.trans h.methods
  callSites := h'.callSites.trans h.callSites
  objects := h'.objects.trans h.objects
  pointer hq := by
    rcases h'.pointer hq with hq | hq
    · exact h.pointer hq
    · exact .inr (h.knows ▸ hq)
  due hd := by
    rcases h'.due hd with ⟨q', hd⟩ | ho
    · exact h.due hd
    · exact .inr (h.knows ▸ ho)

theorem Adds.foldl {α : Type} {f : State → α → State} {l : List α} (st : State)
    (hf : ∀ st', st'.Knows = st.Knows → ∀ a ∈ l, Adds R st' (f st' a)) :
    Adds R st (l.foldl f st) :=
  foldl_keeps (P := fun st' => Adds R st st') (fun st' a ha h => h.trans (hf st' h.knows a ha))
    (.refl R st)

theorem Rooted.adds (h : Rooted setup R st) (ha : Adds R st st') : Rooted setup R st' where
  reachable hm := by rw [ha.calls] at hm; exact h.reachable hm
  caller he := by rw [ha.calls] at he; exact h.caller he
  callee he := by rw [ha.calls] at he ⊢; exact h.callee he
  entry hm := by rw [ha.calls] at hm ⊢; exact h.entry hm
  method hm := by rw [ha.methods] at hm; exact h.method hm
  callSite hx := by rw [ha.callSites] at hx; exact h.callSite hx
  object ho := by rw [ha.knows] at ho; exact h.object ho
  pointer hq := by
    rw [ha.knows]
    exact (ha.pointer hq).elim h.pointer id
  due hd := by
    rw [ha.knows]
    exact (ha.due hd).elim (fun ⟨_, hd⟩ => h.due hd) id

theorem Manager.internPointer_tables (m : Manager) (q : Pointer) :
    (m.internPointer q).methods = m.methods ∧ (m.internPointer q).callSites = m.callSites ∧
      (m.internPointer q).objects = m.objects := by
  cases q <;> exact ⟨rfl, rfl, rfl⟩

theorem Adds.internPointer {q : Pointer} (hq : Anchored R st.Knows q) :
    Adds R st (st.internPointer q) := by
  obtain ⟨hm, hc, ho⟩ := st.elements.internPointer_tables q
  refine ⟨rfl, hm, hc, ho, fun hn => ?_, fun hd => .inl ⟨_, hd⟩⟩
  rcases Manager.numbers_internPointer.1 hn with hn | rfl
  · exact .inl hn
  · exact .inr hq

theorem Adds.await {q : Pointer} {objs : PointsToSet CtxObject} (hq : Anchored R st.Knows q)
    (ho : ∀ o ∈ objs, (∃ q', st.Due q' o) ∨ st.Knows o) : Adds R st (st.await q objs) where
  __ := Adds.internPointer hq
  due hd := by
    rcases State.due_await.1 hd with hd | ⟨-, hin⟩
    · exact .inl ⟨_, hd⟩
    · exact ho _ hin

theorem Adds.connect {a b : Pointer} {kind : FlowKind} (ha : Anchored R st.Knows a)
    (hb : Anchored R st.Knows b) : Adds R st (st.connect a b kind) := by
  have hboth : Adds R st ((st.internPointer a).internPointer b) := by
    have h₁ : Adds R st (st.internPointer a) := .internPointer ha
    exact h₁.trans (.internPointer (h₁.knows ▸ hb))
  unfold State.connect
  dsimp only
  split
  · exact hboth
  · -- a new edge is no element
    have hedge : Adds R st { (st.internPointer a).internPointer b with
        flow := ((st.internPointer a).internPointer b).flow.addEdge a b kind } :=
      ⟨rfl, hboth.methods, hboth.callSites, hboth.objects, hboth.pointer, fun hd => .inl ⟨_, hd⟩⟩
    split
    · exact hedge
    · exact hedge.trans (.await (hedge.knows ▸ hb) fun o ho => .inl ⟨a, .inl ho⟩)

/-- Only the call graph changes, to one that is closed and hangs on `R`. -/
theorem Rooted.withCalls {g : CtxCallGraph} (h : Rooted setup R st)
    (reachable : ∀ {m}, m ∈ g.reachable → R m) (caller : ∀ {e}, e ∈ g.edges → R e.site.container)
    (callee : ∀ {e}, e ∈ g.edges → e.callee ∈ g.reachable)
    (entry : ∀ {m}, m ∈ g.entries → m ∈ g.reachable ∧ ∃ e ∈ setup.entries, m = ⟨[], e⟩) :
    Rooted setup R { st with calls := g } where
  reachable := reachable
  caller := caller
  callee := callee
  entry := entry
  method := h.method
  callSite := h.callSite
  object := h.object
  pointer := h.pointer
  due := h.due

theorem Rooted.internMethod {m : CtxMethod} (h : Rooted setup R st) (hm : R m) :
    Rooted setup R { st with elements := st.elements.internMethod m } := by
  refine { h with method := fun hm' => ?_ }
  rcases OrderedSet.mem_insert.1 hm' with hm' | rfl
  · exact h.method hm'
  · exact hm

theorem Rooted.internCallSite {site : CtxCallSite} (h : Rooted setup R st)
    (hs : R site.container) :
    Rooted setup R { st with elements := st.elements.internCallSite site } := by
  refine { h.internMethod hs with callSite := fun hx => ?_ }
  rcases OrderedSet.mem_insert.1 hx with hx | rfl
  · exact h.callSite hx
  · exact hs

/-- An object of a method in `R` is numbered. -/
theorem Rooted.internObject {m : CtxMethod} {a : AllocSite} (h : Rooted setup R st) (hm : R m)
    (heap : Interner AllocSite) : Rooted setup R { st with
      heap := heap
      elements := st.elements.internObject ⟨setup.selector.heapContext m.context, a⟩ } := by
  have hknows : ∀ o, st.Knows o → o ∈ (st.elements.internObject
      ⟨setup.selector.heapContext m.context, a⟩).objects.keys := fun o ho =>
    OrderedSet.mem_insert.2 (.inl ho)
  refine { h with
    object := fun ho => ?_
    pointer := fun hq => (h.pointer hq).mono (fun _ hm => hm) hknows
    due := fun hd => hknows _ (h.due hd) }
  rcases OrderedSet.mem_insert.1 ho with ho | rfl
  · exact h.object ho
  · exact ⟨m, hm, rfl⟩

theorem reach_knows (st : State) (p : Program) (m : CtxMethod) :
    (st.reach p m).1.Knows = st.Knows := by
  obtain ⟨g, hg⟩ := reach_same st p m
  rw [hg]
  rfl

theorem addCall_knows (st : State) (p : Program) (e : CtxEdge) :
    (st.addCall p e).1.Knows = st.Knows := by
  obtain ⟨g, hg⟩ := addCall_same st p e
  rw [hg]
  rfl

/-! ## One task -/

/-- A state that hangs on `R` after a task, with all objects from before, and the new tasks. -/
structure Hangs (p : Program) (setup : Setup) (R : CtxMethod → Prop) (st st' : State)
    (new : List Task) : Prop where
  rooted : Rooted setup R st'
  knows : ∀ o, st.Knows o → st'.Knows o
  tasks : ∀ k ∈ new, k.Rooted p setup R st'.Knows

theorem Hangs.adds (h : Rooted setup R st) (ha : Adds R st st') : Hangs p setup R st st' [] where
  rooted := h.adds ha
  knows _ ho := ha.knows ▸ ho
  tasks _ hk := absurd hk List.not_mem_nil

theorem reach_rooted {m : CtxMethod} (hm : R m) :
    ∀ k ∈ (st.reach p m).2, k.Rooted p setup R O := by
  intro k hk
  obtain ⟨-, b, hb, stmt, hs, rfl⟩ := State.mem_reach_tasks.1 hk
  exact ⟨hm, b, hb, hs⟩

/-- A call edge from a method in `R` to one in `R`. -/
theorem addCall_hangs {e : CtxEdge} (h : Rooted setup R st) (hm : R e.site.container)
    (hc : R e.callee) (hs : p.Has e.site.site.stmt) :
    Hangs p setup R st (st.addCall p e).1 (st.addCall p e).2 := by
  by_cases he : st.calls.hasEdge e
  · rw [State.addCall_of_hasEdge he]
    exact ⟨h, fun _ ho => ho, fun k hk => absurd hk List.not_mem_nil⟩
  · refine ⟨?_, fun _ ho => (addCall_knows st p e).symm ▸ ho, fun k hk => ?_⟩
    · have hreach := fun m => State.mem_addCall_reachable (p := p) he (m := m)
      have hedges : ∀ e', e' ∈ (st.addCall p e).1.calls.edges ↔ e' ∈ st.calls.edges ∨ e' = e :=
        fun _ => State.mem_addCall_edges
      have hentries : (st.addCall p e).1.calls.entries = st.calls.entries := addCall_entries
      obtain ⟨g, hg⟩ := addCall_same st p e
      rw [hg] at hreach hedges hentries ⊢
      refine h.withCalls (fun hm' => ?_) (fun he' => ?_) (fun he' => ?_) fun hm' => ?_
      · rcases (hreach _).1 hm' with hm' | rfl
        · exact h.reachable hm'
        · exact hc
      · rcases (hedges _).1 he' with he' | rfl
        · exact h.caller he'
        · exact hm
      · rcases (hedges _).1 he' with he' | rfl
        · exact (hreach _).2 (.inl (h.callee he'))
        · exact (hreach _).2 (.inr rfl)
      · rw [show g.entries = st.calls.entries from hentries] at hm'
        exact ⟨(hreach _).2 (.inl (h.entry hm').1), (h.entry hm').2⟩
    · rw [State.addCall_of_not_hasEdge he] at hk
      rcases List.mem_append.1 hk with hk | hk
      · exact reach_rooted hc k hk
      · obtain rfl := List.mem_singleton.1 hk
        exact ⟨hm, hc, hs⟩

/-- A new entry in `R`. -/
theorem enter_hangs {m : CtxMethod} (h : Rooted setup R st) (hm : R m)
    (hk : ∃ e ∈ setup.entries, m = ⟨[], e⟩) :
    Hangs p setup R st (enter p m st).1 (enter p m st).2 := by
  -- the entry is noted before it is reached
  let noted : State := { st with
    elements := st.elements.internMethod m
    calls := st.calls.noteEntry m }
  have hreach : ∀ m', m' ∈ (noted.reach p m).1.calls.reachable ↔
      m' ∈ noted.calls.reachable ∨ m' = m := fun _ => State.mem_reach
  have hedges : (noted.reach p m).1.calls.edges = noted.calls.edges := State.reach_edges
  have hentries : (noted.reach p m).1.calls.entries = noted.calls.entries := reach_entries
  refine ⟨?_, fun _ ho => (reach_knows noted p m).symm ▸ ho, reach_rooted hm⟩
  rw [enter]
  obtain ⟨g, hg⟩ := reach_same noted p m
  rw [hg] at hreach hedges hentries ⊢
  have hedges' : g.edges = st.calls.edges := hedges
  refine (h.internMethod hm).withCalls (fun hm' => ?_) (fun he => ?_) (fun he => ?_) fun hm' => ?_
  · rcases (hreach _).1 hm' with hm' | rfl
    · exact h.reachable hm'
    · exact hm
  · rw [hedges'] at he
    exact h.caller he
  · rw [hedges'] at he
    exact (hreach _).2 (.inl (h.callee he))
  · rw [show g.entries = st.calls.entries.insert m from hentries] at hm'
    rcases OrderedSet.mem_insert.1 hm' with hm' | rfl
    · exact ⟨(hreach _).2 (.inl (h.entry hm').1), (h.entry hm').2⟩
    · exact ⟨(hreach _).2 (.inr rfl), hk⟩

/-! ### Variables and their methods -/

theorem anchored_var {c : Ctx} {v : Var} (h : R ⟨c, v.method⟩) : Anchored R O (varIn c v) :=
  ⟨v.method, h, fun _ hw => congrArg Var.method (Option.some.inj hw).symm⟩

/-- The variables of a statement belong to methods in `R` where its body does. -/
theorem anchored_of_mentions (hR : Carries p R) {c : Ctx} {n : Method} {b : Body} {s : Stmt}
    (hb : p.body? n = some b) (hs : s ∈ b.stmts) (hn : R ⟨c, n⟩) {v : Var}
    (hv : v ∈ s.command.mentions) : Anchored R O (varIn c v) :=
  anchored_var ((hR.used hb hs hv).2 hn)

/-- A statement that mentions a variable of a method in `R` stands in such a method. -/
theorem container_of_anchored (hR : Carries p R) {c : Ctx} {s : Stmt} (hs : p.Has s) {v : Var}
    (hv : v ∈ s.command.mentions) (h : Anchored R O (varIn c v)) :
    R ⟨c, s.place.method⟩ ∧ ∀ w ∈ s.command.mentions, Anchored R O (varIn c w) := by
  obtain ⟨n, b, hb, hin⟩ := hs
  obtain ⟨m, hm, hvm⟩ := h
  obtain rfl := hvm v rfl
  have hn : R ⟨c, n⟩ := (hR.used hb hin hv).1 hm
  exact ⟨hR.placed hb hin hn, fun w hw => anchored_of_mentions hR hb hin hn hw⟩

theorem anchored_receiver (hR : Carries p R) {m : CtxMethod} {b : Body}
    (hb : p.body? m.method = some b) (hm : R m) : Anchored R O (.var m.context b.receiver) := by
  cases hrec : b.receiver with
  | none => exact ⟨m.method, hm, fun w hw => by cases hw⟩
  | some w => exact anchored_var (hR.receiver hb hrec hm)

theorem anchored_param (hR : Carries p R) {m : CtxMethod} {b : Body}
    (hb : p.body? m.method = some b) (hm : R m) {v : Var} (hv : v ∈ b.params) :
    Anchored R O (varIn m.context v) := anchored_var (hR.param hb hv hm)

theorem anchored_returned (hR : Carries p R) {m : CtxMethod} {b : Body}
    (hb : p.body? m.method = some b) (hm : R m) {v : Var} (hv : v ∈ b.returnVars) :
    Anchored R O (varIn m.context v) := by
  obtain ⟨s, hs, hc⟩ := Body.mem_returnVars.1 hv
  exact anchored_of_mentions hR hb hs hm (by simp [hc, Command.mentions])

/-! ### Each kind of task -/

theorem visit_hangs (hcarry : Carries p R) {m : CtxMethod} {stmt : Stmt} (h : Rooted setup R st)
    (hk : (Task.visit m stmt).Rooted p setup R st.Knows)
    (hR : ∀ e ∈ st'.calls.edges, R e.site.container → R e.callee)
    (hx : visit p setup.selector m stmt st = .ok (st', new)) : Hangs p setup R st st' new := by
  obtain ⟨hm, b, hb, hs⟩ := hk
  have hvar : ∀ {O} {v : Var}, v ∈ stmt.command.mentions → Anchored R O (varIn m.context v) :=
    fun hv => anchored_of_mentions hcarry hb hs hm hv
  unfold visit at hx
  dsimp only at hx
  split at hx
  · rename_i v t hc
    obtain ⟨rfl, rfl⟩ := Prod.mk.inj (Except.ok.inj hx)
    have hobj := h.internObject (a := ⟨stmt.place, t⟩) hm (st.heap.intern ⟨stmt.place, t⟩)
    have hawait := hobj.adds (.await (hvar (v := v) (by simp [hc, Command.mentions])) fun o ho =>
      .inr (OrderedSet.mem_singleton.1 ho ▸ OrderedSet.mem_insert.2 (.inr rfl)))
    exact ⟨hawait, fun o ho => OrderedSet.mem_insert.2 (.inl ho),
      fun k hk => absurd hk List.not_mem_nil⟩
  · rename_i hc
    obtain ⟨rfl, rfl⟩ := Prod.mk.inj (Except.ok.inj hx)
    exact .adds h (.connect (hvar (by simp [hc, Command.mentions]))
      (hvar (by simp [hc, Command.mentions])))
  · rename_i hc
    obtain ⟨rfl, rfl⟩ := Prod.mk.inj (Except.ok.inj hx)
    exact .adds h (.connect trivial (hvar (by simp [hc, Command.mentions])))
  · rename_i hc
    obtain ⟨rfl, rfl⟩ := Prod.mk.inj (Except.ok.inj hx)
    exact .adds h (.connect (hvar (by simp [hc, Command.mentions])) trivial)
  · rename_i r c hc
    split at hx
    · obtain ⟨callee, mid, -, rfl, rfl, rfl⟩ := visitStaticCall_eq_ok hx
      have hcontainer : R ⟨m.context, stmt.place.method⟩ := hcarry.placed hb hs hm
      have hcallee := hR _ (State.mem_addCall_edges.2 (.inr rfl)) hcontainer
      have hsite : R (⟨m.context, ⟨stmt.place, r, c⟩⟩ : CtxCallSite).container := hcontainer
      have hmid := (h.internCallSite hsite).internMethod hcallee
      have hhas : p.Has stmt := ⟨_, b, hb, hs⟩
      have ha := addCall_hangs (p := p) (e := ⟨.static, ⟨m.context, ⟨stmt.place, r, c⟩⟩, _⟩)
        hmid hcontainer hcallee (stmt_of_invoke hc ▸ hhas)
      exact ⟨ha.rooted, ha.knows, ha.tasks⟩
    · obtain ⟨rfl, rfl⟩ := Prod.mk.inj (Except.ok.inj hx)
      exact .adds h (.refl R st)
  · cases hx
  · obtain ⟨rfl, rfl⟩ := Prod.mk.inj (Except.ok.inj hx)
    exact .adds h (.refl R st)

theorem connectAccess_adds (hcarry : Carries p R) {c : Ctx} {v : Var} {o : CtxObject} {stmt : Stmt}
    (hv : Anchored R st.Knows (varIn c v)) (ho : st.Knows o) (hs : stmt ∈ accesses p v) :
    Adds R st (connectAccess c o st stmt) := by
  obtain ⟨hs, hc⟩ := mem_accesses.1 hs
  have hvar : ∀ {w : Var}, v ∈ stmt.command.mentions → w ∈ stmt.command.mentions →
      Anchored R st.Knows (varIn c w) := fun hin hw => (container_of_anchored hcarry hs hin hv).2 _ hw
  rcases hc with ⟨f, w, hc⟩ | ⟨f, w, hc⟩ | ⟨i, w, hc⟩ | ⟨i, w, hc⟩
  all_goals
    have hw : Anchored R st.Knows (varIn c w) := hvar
      (by simp [hc, Command.mentions, FieldAccess.mentions]) (by simp [hc, Command.mentions])
    simp only [connectAccess, hc]
  · exact .connect hw ho
  · exact .connect ho hw
  · exact .connect hw ho
  · exact .connect ho hw

theorem receive_hangs (hcarry : Carries p R) {c : Ctx} {v : Var} {o : CtxObject}
    (h : Rooted setup R st) (hk : (Task.receive c (some v) o).Rooted p setup R st.Knows) :
    Hangs p setup R st (receive p c v o st).1 (receive p c v o st).2 := by
  obtain ⟨hv, ho⟩ := hk
  have hadds : Adds R st (receive p c v o st).1 :=
    .foldl st fun st' hknows stmt hs => by
      rw [← hknows] at hv ho
      exact connectAccess_adds hcarry hv ho hs
  refine ⟨h.adds hadds, fun _ ho => hadds.knows ▸ ho, fun k hk => ?_⟩
  obtain ⟨site, hs, rfl⟩ := List.mem_map.1 hk
  obtain ⟨hs, hbase⟩ := mem_calls.1 hs
  have hm := (container_of_anchored hcarry hs (v := v)
    (by simp [CallSite.stmt, Command.mentions, hbase]) hv).1
  exact ⟨hm, hs, hadds.knows ▸ ho⟩

theorem call_hangs (hcarry : Carries p R) {site : CtxCallSite} {o : CtxObject} (h : Rooted setup R st)
    (hk : (Task.call site o).Rooted p setup R st.Knows)
    (hR : ∀ e ∈ st'.calls.edges, R e.site.container → R e.callee)
    (hx : call p setup.selector site o st = .ok (st', new)) : Hangs p setup R st st' new := by
  obtain ⟨hm, hs, ho⟩ := hk
  obtain ⟨callee, mid, served, -, rfl, hserved, rfl, rfl⟩ := call_eq_ok hx
  have hcallee := hR _ (State.mem_addCall_edges.2 (.inr rfl)) hm
  have hmid := (h.internCallSite hm).internMethod hcallee
  rcases hserved with ⟨-, rfl⟩ | ⟨b, hb, rfl⟩
  · have ha := addCall_hangs (p := p) (e := ⟨_, site, _⟩) hmid hm hcallee hs
    exact ⟨ha.rooted, ha.knows, ha.tasks⟩
  · -- the object waits for the receiver of the callee
    have hserved := hmid.adds (.await (anchored_receiver hcarry hb hcallee) fun o' ho' =>
      .inr (OrderedSet.mem_singleton.1 ho' ▸ ho))
    have ha := addCall_hangs (p := p) (e := ⟨_, site, _⟩) hserved hm hcallee hs
    exact ⟨ha.rooted, ha.knows, ha.tasks⟩

theorem wire_hangs (hcarry : Carries p R) {e : CtxEdge} (h : Rooted setup R st)
    (hk : (Task.wire e).Rooted p setup R st.Knows) (hx : wire p e st = .ok st') :
    Hangs p setup R st st' [] := by
  obtain ⟨hm, hc, n, b', hb', hs⟩ := hk
  have hsite : ∀ {O} {v : Var}, v ∈ e.site.site.stmt.command.mentions →
      Anchored R O (varIn e.site.context v) := by
    intro O v hv
    exact anchored_of_mentions hcarry hb' hs (hcarry.placing hb' hs hm) hv
  unfold wire at hx
  cases hb : p.body? e.callee.method with
  | none =>
    simp only [hb] at hx
    obtain rfl := Except.ok.inj hx
    exact .adds h (.refl R st)
  | some b =>
    simp only [hb] at hx
    split at hx
    · cases hx
    · obtain rfl := Except.ok.inj hx
      have hargs : Adds R st (wireArguments e.site.context e.callee.context st
          (e.site.site.call.args.zip b.params)) :=
        .foldl st fun st' _ a ha => .connect
          (hsite (by simp [CallSite.stmt, Command.mentions, (List.of_mem_zip ha).1]))
          (anchored_param hcarry hb hc (List.of_mem_zip ha).2)
      refine .adds h (hargs.trans (.foldl _ fun st' _ w hw => ?_))
      have hresult : ∀ {O}, Anchored R O (varIn e.site.context w) :=
        hsite (by simp [CallSite.stmt, Command.mentions, Option.mem_toList.1 hw])
      exact (Adds.internPointer hresult).trans (.foldl _ fun st'' _ v hv =>
        .connect (anchored_returned hcarry hb hc hv) hresult)

/-- Any task, where `R` has all entries and the callees of its methods. -/
theorem exec_hangs (hcarry : Carries p R) {k : Task} (h : Rooted setup R st)
    (hk : k.Rooted p setup R st.Knows)
    (hE : ∀ m ∈ st'.calls.entries, m.context = [] → R m)
    (hR : ∀ e ∈ st'.calls.edges, R e.site.container → R e.callee)
    (hx : exec p setup.selector k st = .ok (st', new)) : Hangs p setup R st st' new := by
  cases k with
  | enter m =>
    obtain ⟨e, he, rfl⟩ := hk
    have hm : R ⟨[], e⟩ := hE _ (((exec_entries hx).1 _).2 (.inr rfl)) rfl
    obtain ⟨rfl, rfl⟩ := Prod.mk.inj (Except.ok.inj hx)
    exact enter_hangs h hm ⟨e, he, rfl⟩
  | visit m stmt => exact visit_hangs hcarry h hk hR hx
  | receive c v o =>
    cases v with
    | none => cases hx
    | some v =>
      obtain ⟨rfl, rfl⟩ := Prod.mk.inj (Except.ok.inj hx)
      exact receive_hangs hcarry h hk
  | call site o => exact call_hangs hcarry h hk hR hx
  | wire e =>
    simp only [exec] at hx
    cases hw : wire p e st with
    | error err =>
      rw [hw] at hx
      cases hx
    | ok st₁ =>
      rw [hw] at hx
      obtain ⟨rfl, rfl⟩ := Prod.mk.inj (Except.ok.inj hx)
      exact wire_hangs hcarry h hk hw

/-! ## All states -/

theorem CallPath.mono {g g' : CtxCallGraph} {ss : List CallSite} {m : CtxMethod}
    (h : CallPath g ss m) (hentries : ∀ m ∈ g.entries, m ∈ g'.entries)
    (hedges : ∀ e ∈ g.edges, e ∈ g'.edges) : CallPath g' ss m := by
  induction h with
  | entry hm => exact .entry (hentries _ hm)
  | call _ he ih => exact .call ih (hedges _ he)

/-- Handing objects over numbers no pointer but those behind flow edges. -/
theorem propagate_elements {q : Pointer} (objs : PointsToSet CtxObject)
    (hq : ∀ t, st.flow.hasEdge q t → st.elements.Numbers t) :
    (st.propagate q objs).1.elements.methods = st.elements.methods ∧
    (st.propagate q objs).1.elements.callSites = st.elements.callSites ∧
    (st.propagate q objs).1.elements.objects = st.elements.objects ∧
    ∀ q', (st.propagate q objs).1.elements.Numbers q' → st.elements.Numbers q' := by
  unfold State.propagate
  dsimp only
  split
  · exact ⟨rfl, rfl, rfl, fun _ hn => hn⟩
  · refine foldl_keeps (P := fun st' : State => st'.elements.methods = st.elements.methods ∧
      st'.elements.callSites = st.elements.callSites ∧
      st'.elements.objects = st.elements.objects ∧
      ∀ q', st'.elements.Numbers q' → st.elements.Numbers q') (fun st' t ht h => ?_)
      ⟨rfl, rfl, rfl, fun _ hn => hn⟩
    obtain ⟨hm, hc, ho⟩ := st'.elements.internPointer_tables t
    refine ⟨hm.trans h.1, hc.trans h.2.1, ho.trans h.2.2.1, fun q' hn => ?_⟩
    rcases Manager.numbers_internPointer.1 hn with hn | rfl
    · exact h.2.2.2 q' hn
    · exact hq _ (FlowGraph.mem_succs.1 ht)

theorem propagate_adds {q : Pointer} {objs : PointsToSet CtxObject}
    {rest : Pending Pointer CtxObject} (h : Recorded st)
    (ht : st.pending.take? q = some (objs, rest)) :
    Adds R st ((st.taken rest).propagate q objs).1 := by
  have hflow : ∀ t, (st.taken rest).flow.hasEdge q t → (st.taken rest).elements.Numbers t :=
    fun t he => h.flow he
  obtain ⟨hm, hc, ho, hn⟩ := propagate_elements objs hflow
  refine ⟨(propagate_spec _ q objs).1, hm, hc, ho, fun hq => .inl (hn _ hq), fun hd => .inl ?_⟩
  rcases due_propagate ht hd with hd | ⟨-, hin⟩
  · exact ⟨_, hd⟩
  · exact ⟨q, due_of_take? ht hin⟩

/-- A property of methods in context that every call graph passes on, where `I` holds of the state and
its agenda. -/
structure Passes (p : Program) (R : CtxCallGraph → CtxMethod → Prop)
    (I : List Task → State → Prop) : Prop where
  carries : ∀ g, Carries p (R g)
  mono : ∀ {g g' : CtxCallGraph} {m}, (∀ m ∈ g.entries, m ∈ g'.entries) →
    (∀ e ∈ g.edges, e ∈ g'.edges) → R g m → R g' m
  entry : ∀ {A st}, I A st → ∀ m ∈ st.calls.entries, m.context = [] → R st.calls m
  call : ∀ {A st}, I A st → ∀ e ∈ st.calls.edges, R st.calls e.site.container → R st.calls e.callee

/-- A state on record, where everything hangs on `R`, and so does its agenda. -/
structure Grounded (p : Program) (setup : Setup) (R : CtxCallGraph → CtxMethod → Prop)
    (A : List Task) (st : State) : Prop where
  record : OnRecord A st
  rooted : Rooted setup (R st.calls) st
  tasks : ∀ k ∈ A, k.Rooted p setup (R st.calls) st.Knows

section
variable {R : CtxCallGraph → CtxMethod → Prop} {I : List Task → State → Prop}

theorem Grounded.initial : Grounded p setup R (setup.entries.map fun m => .enter ⟨[], m⟩)
    { State.empty with started := true } := by
  have hnone : ∀ {α : Type} {a : α}, a ∉ (∅ : OrderedSet α) := OrderedSet.not_mem_empty _
  have hrooted : Rooted setup (R State.empty.calls) { State.empty with started := true } :=
    { reachable := fun hm => absurd hm hnone
      caller := fun he => absurd he List.not_mem_nil
      callee := fun he => absurd he List.not_mem_nil
      entry := fun hm => absurd hm hnone
      method := fun hm => absurd hm hnone
      callSite := fun hx => absurd hx hnone
      object := fun ho => absurd ho hnone
      pointer := fun {q} hq => by cases q <;> exact absurd hq hnone
      due := fun hd => by rcases hd with hd | hd <;> exact absurd hd hnone }
  refine ⟨.initial, hrooted, fun k hk => ?_⟩
  obtain ⟨m, hm, rfl⟩ := List.mem_map.1 hk
  exact ⟨m, hm, rfl⟩

theorem Grounded.after (hR : Passes p R I) {k : Task} {A : List Task}
    (h : Grounded p setup R (k :: A) st) (hx : exec p setup.selector k st = .ok (st', new))
    (hI : I (new ++ A) st') : Grounded p setup R (new ++ A) st' := by
  have hgrow : st.Enlarges st' := .of_operations (exec_operations hx)
  have hmono : ∀ m, R st.calls m → R st'.calls m := fun _ => hR.mono hgrow.entries hgrow.calls
  have hh := exec_hangs (hR.carries st'.calls) (h.rooted.mono hmono)
    ((h.tasks k List.mem_cons_self).mono hmono fun _ ho => ho) (hR.entry hI) (hR.call hI) hx
  refine ⟨h.record.after hx, hh.rooted, fun k' hk' => ?_⟩
  rcases List.mem_append.1 hk' with hk' | hk'
  · exact hh.tasks k' hk'
  · exact (h.tasks k' (List.mem_cons_of_mem _ hk')).mono hmono hh.knows

theorem Grounded.take {A : List Task} {q : Pointer} {objs : PointsToSet CtxObject}
    {rest : Pending Pointer CtxObject} (h : Grounded p setup R A st)
    (ht : st.pending.take? q = some (objs, rest)) :
    Grounded p setup R (arrivals q ((st.taken rest).propagate q objs).2)
      ((st.taken rest).propagate q objs).1 := by
  obtain ⟨hc, -, -, hnew, -⟩ := propagate_spec (st.taken rest) q objs
  have hadds : Adds (R st.calls) st ((st.taken rest).propagate q objs).1 :=
    propagate_adds h.record.1 ht
  have hrooted := h.rooted.adds hadds
  refine ⟨propagate_onRecord ht h.record.1, ?_, fun k hk => ?_⟩
  · rwa [hc]
  · rw [hc, hadds.knows]
    unfold arrivals at hk
    split at hk
    · -- the pointer has a number, since objects waited for it
      obtain ⟨o, hin, rfl⟩ := List.mem_map.1 hk
      have hdue := due_of_take? ht ((hnew o).1 hin).1
      exact ⟨h.rooted.pointer (h.record.1.pointer hdue), h.rooted.due hdue⟩
    · exact absurd hk List.not_mem_nil

theorem kept_grounded (hR : Passes p R I) (hI : Kept p setup I) :
    Kept p setup fun A st => I A st ∧ Grounded p setup R A st where
  start := ⟨hI.start, .initial⟩
  exec h hx := ⟨hI.exec h.1 hx, h.2.after hR hx (hI.exec h.1 hx)⟩
  count n h := by
    have hrecord : Kept p setup OnRecord := kept_onRecord
    exact ⟨hI.count n h.1, hrecord.count n h.2.record, { h.2.rooted with }, h.2.tasks⟩
  take h ht := ⟨hI.take h.1 ht, h.2.take ht⟩

theorem kept_true : Kept p setup fun _ _ => True :=
  ⟨trivial, fun _ _ => trivial, fun _ _ => trivial, fun _ _ => trivial⟩

/-- In every state that was attained, everything hangs on a property that is passed on. -/
theorem Attained.hangs (h : Attained p setup st) (hR : Passes p R I) (hI : Kept p setup I) :
    Rooted setup (R st.calls) st := by
  rcases h.keeps (kept_grounded hR hI) with rfl | ⟨A, hA⟩
  · have hstart : Grounded p setup R _ _ := .initial
    exact { hstart.rooted with }
  · exact hA.2.rooted

end

/-! ### Contexts -/

/-- A property of the contexts that closed conclusions lead call edges to is one of all contexts in
every state that was attained. -/
theorem Attained.contexts {P : Ctx → Prop} {F : Set Conclusion} (h : Attained p setup st)
    (hF : Closed p setup F) (hempty : P []) (hcallee : ∀ e, .call e ∈ F → P e.callee.context) :
    Rooted setup (fun m => P m.context) st := by
  have hR : Passes p (fun _ m => P m.context) fun A st => Sound p F st A :=
    { carries := fun _ => .of_context p P
      mono := fun _ _ hm => hm
      entry := fun _ m _ hm => by rwa [hm]
      call := fun hI e he _ => hcallee e (hI.1.calls he) }
  exact h.hangs hR (kept_sound hF)

/-- Whatever bodies use, call edges lead to reachable methods, the entries are reachable, and the
objects that are held or wait are numbered ones. -/
theorem Attained.rooted_true (h : Attained p setup st) : Rooted setup (fun _ => True) st := by
  have hR : Passes p (fun _ _ => True) fun _ _ => True :=
    { carries := fun _ => .of_context p fun _ => True
      mono := fun _ _ _ => trivial
      entry := fun _ _ _ _ => trivial
      call := fun _ _ _ _ => trivial }
  exact h.hangs hR kept_true

/-! ### Chains -/

/-- A chain of calls ends at a reachable method. -/
theorem Attained.reachable_of_chained (h : Attained p setup st) {m : CtxMethod}
    (hm : Chained st.calls m) : m ∈ st.calls.reachable := by
  obtain ⟨ss, hss⟩ := hm
  cases hss with
  | entry hm => exact (h.rooted_true.entry hm).1
  | call _ he => exact h.rooted_true.callee he

/-- In every state that was attained, everything hangs on a chain of calls, where bodies use only
variables of their own. -/
theorem Attained.rooted (hp : p.Built) (hown : p.Scoped) (h : Attained p setup st) :
    Rooted setup (Chained st.calls) st := by
  have hR : Passes p Chained fun _ _ => True :=
    { carries := fun g => .of_scoped hp hown (Chained g)
      mono := fun hentries hedges ⟨ss, hss⟩ => ⟨ss, hss.mono hentries hedges⟩
      entry := fun _ m hm _ => ⟨[], .entry hm⟩
      call := fun _ e he ⟨ss, hss⟩ => ⟨_, .call hss he⟩ }
  exact h.hangs hR kept_true

/-- Then a method is reachable exactly if a chain of calls ends there. -/
theorem Attained.reachable_iff (hp : p.Built) (hown : p.Scoped) (h : Attained p setup st)
    {m : CtxMethod} : m ∈ st.calls.reachable ↔ Chained st.calls m :=
  ⟨(h.rooted hp hown).reachable, h.reachable_of_chained⟩

end

end ObjectFlow.PointsTo
