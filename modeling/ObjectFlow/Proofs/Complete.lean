import ObjectFlow.Proofs.Rounds
/-!
# Nothing is lost

While an agenda is being done, whatever a state still owes stands on the agenda:
a conclusion that the rules ask for has been drawn, or the task that draws it is
yet to come. An empty agenda with nothing waiting therefore leaves a closed set
of conclusions.
-/

namespace ObjectFlow.PointsTo

/-- What a task is for has come about, or the task is on the agenda. -/
def Todo (p : Program) (s : Selector) (A : List Task) (st : State) (k : Task) : Prop :=
  k ∈ A ∨ Settled p s st k

/-- All that a state owes is on the agenda. -/
structure Owed (p : Program) (setup : Setup) (A : List Task) (st : State) : Prop where
  entered : ∀ m ∈ setup.entries, Todo p setup.selector A st (.enter ⟨[], m⟩)
  visited : ∀ {m b stmt}, m ∈ st.calls.reachable → p.body? m.method = some b → stmt ∈ b.stmts →
    Todo p setup.selector A st (.visit m stmt)
  received : ∀ {c v o}, o ∈ st.objectsOf (.var c v) → Todo p setup.selector A st (.receive c v o)
  called : ∀ {c v o}, o ∈ st.objectsOf (varIn c v) → .receive c (some v) o ∈ A ∨
    ∀ site ∈ p.calls v, Todo p setup.selector A st (.call ⟨c, site⟩ o)
  wired : ∀ {e}, e ∈ st.calls.edges →
    e.callee ∈ st.calls.reachable ∧ Todo p setup.selector A st (.wire e)
  flowing : st.Flowing

section
variable {p : Program} {s : Selector} {setup : Setup} {A : List Task} {st st' : State}

/-- A task that is done leaves the others where they were. -/
theorem Todo.after {k k' : Task} {new : List Task} (hd : Did p s k st st' new)
    (h : Todo p s (k :: A) st k') : Todo p s (new ++ A) st' k' := by
  rcases h with h | h
  · rcases List.mem_cons.1 h with rfl | h
    · exact .inr hd.settled
    · exact .inl (List.mem_append_right _ h)
  · exact .inr (h.mono hd.grows)

theorem Owed.after {k : Task} {new : List Task} (hd : Did p setup.selector k st st' new)
    (h : Owed p setup (k :: A) st) : Owed p setup (new ++ A) st' where
  entered m hm := (h.entered m hm).after hd
  visited {m b stmt} hm hb hs := by
    -- a method that just became reachable has its body on the agenda
    rcases hd.visits hm with hm | hv
    · exact (h.visited hm hb hs).after hd
    · exact .inl (List.mem_append_left _ (hv b hb stmt hs))
  received ho := by
    rw [hd.objects] at ho
    exact (h.received ho).after hd
  called {c v o} ho := by
    rw [hd.objects] at ho
    -- the calls are on the agenda from the moment when the arrival is done
    rcases h.called ho with hr | hc
    · rcases List.mem_cons.1 hr with rfl | hr
      · exact .inr fun site hs => .inl (List.mem_append_left _ (hd.calls rfl site hs))
      · exact .inl (List.mem_append_right _ hr)
    · exact .inr fun site hs => (hc site hs).after hd
  wired he := by
    rcases hd.wires he with he | ⟨hr, hw⟩
    · obtain ⟨hr, hw⟩ := h.wired he
      exact ⟨hd.grows.reachable hr, hw.after hd⟩
    · exact ⟨hr, .inl (List.mem_append_left _ hw)⟩
  flowing := hd.flowing h.flowing

/-- An agenda that is done leaves nothing owed. -/
theorem Owed.settle {fuel : Nat} (h : Owed p setup A st)
    (hr : settle p setup.selector fuel A st = (.ok (), st')) : Owed p setup [] st' := by
  obtain ⟨rest, hrest, hnil⟩ := settle_keeps (P := fun A st => Owed p setup A st)
    (fun h hx => h.after (exec_did hx)) fuel h
  rw [hr] at hrest hnil
  rwa [hnil rfl] at hrest

/-- Handing the objects of a pointer over owes the arrivals. -/
theorem Owed.propagate {q : Pointer} {objs : PointsToSet CtxObject}
    {rest : Pending Pointer CtxObject} (ht : st.pending.take? q = some (objs, rest))
    (h : Owed p setup [] st) :
    Owed p setup (arrivals q ((st.taken rest).propagate q objs).2)
      ((st.taken rest).propagate q objs).1 := by
  have hg := propagate_grows ht
  have keep : ∀ {k}, Todo p setup.selector [] st k →
      Todo p setup.selector (arrivals q ((st.taken rest).propagate q objs).2)
        ((st.taken rest).propagate q objs).1 k := fun hk =>
    .inr ((hk.resolve_left List.not_mem_nil).mono hg)
  obtain ⟨hc, -, ho, hnew, -⟩ := propagate_spec (st.taken rest) q objs
  -- an object of a variable was there before, or it is among the arrivals
  have arrives : ∀ {c v o}, o ∈ ((st.taken rest).propagate q objs).1.objectsOf (.var c v) →
      o ∈ st.objectsOf (.var c v) ∨
        .receive c v o ∈ arrivals q ((st.taken rest).propagate q objs).2 := by
    intro c v o hov
    by_cases hold : o ∈ st.objectsOf (.var c v)
    · exact .inl hold
    · rcases (ho _ _).1 hov with hin | ⟨rfl, hin⟩
      · exact .inl hin
      · exact .inr (List.mem_map.2 ⟨o, (hnew o).2 ⟨hin, hold⟩, rfl⟩)
  refine ⟨fun m hm => keep (h.entered m hm), fun hm hb hs => ?_, fun hov => ?_, fun hov => ?_,
    fun he => ?_, propagate_flowing ht h.flowing⟩
  · rw [hc] at hm
    exact keep (h.visited hm hb hs)
  · rcases arrives hov with hov | hr
    · exact keep (h.received hov)
    · exact .inl hr
  · rcases arrives hov with hov | hr
    · exact .inr fun site hs => keep ((h.called hov).resolve_left List.not_mem_nil site hs)
    · exact .inl hr
  · rw [hc] at he ⊢
    exact ⟨(h.wired he).1, keep (h.wired he).2⟩

theorem Owed.nextRound (h : Owed p setup [] st) (hr : NextRound p setup st st') :
    Owed p setup [] st' := by
  obtain ⟨fuel, q, objs, rest, ht, hr⟩ := hr
  exact (h.propagate ht).settle (round_eq_ok hr).2

theorem Owed.reaches (h : Owed p setup [] st) (hr : Reaches p setup st st') :
    Owed p setup [] st' := by
  induction hr with
  | refl => exact h
  | tail _ hn ih => exact ih.nextRound hn

/-- Before the start the entries are owed, and nothing else. -/
theorem Owed.initial : Owed p setup (setup.entries.map fun m => .enter ⟨[], m⟩)
    { State.empty with started := true } where
  entered m hm := .inl (List.mem_map.2 ⟨m, hm, rfl⟩)
  visited hm := absurd hm (OrderedSet.not_mem_empty _)
  received ho := absurd ho (OrderedSet.not_mem_empty _)
  called ho := absurd ho (OrderedSet.not_mem_empty _)
  wired he := absurd he List.not_mem_nil
  flowing s t _ he := absurd he (FlowGraph.not_hasEdge_empty s t)

theorem start_eq_ok {fuel : Nat} (h : start fuel p setup .empty = (.ok (), st)) :
    settle p setup.selector fuel (setup.entries.map fun m => .enter ⟨[], m⟩)
      { State.empty with started := true } = (.ok (), st) := h

theorem Owed.start {fuel : Nat} (h : start fuel p setup .empty = (.ok (), st)) :
    Owed p setup [] st := Owed.initial.settle (start_eq_ok h)

/-- A whole analysis is a start and rounds until nothing waits. -/
theorem analyze_eq_ok {fuel : Nat} (h : analyze fuel p setup .empty = (.ok (), st')) :
    ∃ st, PointsTo.start fuel p setup .empty = (.ok (), st) ∧ Reaches p setup st st' ∧
      st'.pending.poll? = none := by
  unfold analyze at h
  simp only [State.empty, Bool.false_eq_true, if_false] at h
  split at h
  · cases h
  · rename_i st hs
    obtain ⟨hr, hp⟩ := rounds_reaches h
    exact ⟨st, hs, hr, hp⟩

/-! ## When nothing waits -/

/-- What a program must be like, where `F` says, for no task to fail. -/
structure Faultless (p : Program) (F : Set Conclusion) : Prop where
  known : ∀ {m s name n}, Executes p F m s → s.command ≠ .foreign name n
  static : ∀ {m s r c}, Executes p F m s → s.command = .invoke r c → c.isStatic →
    ∃ callee, staticCallee p.hierarchy c.ref = .ok callee
  receiver : ∀ {c o}, .holds (.var c none) o ∉ F
  onObject : ∀ {x v o s r c}, .holds (varIn x v) o ∈ F → p.Has s → s.command = .invoke r c →
    c.base? = some v → ∃ callee, instanceCallee p.hierarchy c o = .ok callee
  arity : ∀ {e b}, .call e ∈ F → p.body? e.callee.method = some b →
    e.site.site.call.args.length = b.params.length

theorem State.Due.arrived {q : Pointer} {o : CtxObject} (h : st.Due q o)
    (hw : st.pending.poll? = none) : o ∈ st.objectsOf q :=
  h.resolve_right (Pending.not_mem_waiting_of_poll? hw q o)

namespace Owed

variable (h : Owed p setup [] st)
include h

theorem settled_visit {m : CtxMethod} {stmt : Stmt} (hs : Executes p st.conclusions m stmt) :
    Visited p setup.selector st m stmt := by
  obtain ⟨hm, b, hb, hstmt⟩ := hs
  exact (h.visited hm hb hstmt).resolve_left List.not_mem_nil

theorem settled_receive {c : Ctx} {v : Var} {o : CtxObject} (ho : o ∈ st.objectsOf (varIn c v)) :
    ∀ stmt ∈ accesses p v, Accessed st c o stmt :=
  (h.received ho).resolve_left List.not_mem_nil

theorem settled_call {x : Ctx} {v : Var} {o : CtxObject} {stmt : Stmt} {r : Option Var} {c : Call}
    (ho : o ∈ st.objectsOf (varIn x v)) (hs : p.Has stmt) (hc : stmt.command = .invoke r c)
    (hv : c.base? = some v) : Called p setup.selector st ⟨x, ⟨stmt.place, r, c⟩⟩ o := by
  have hsite : ⟨stmt.place, r, c⟩ ∈ p.calls v := mem_calls.2 ⟨(stmt_of_invoke hc).symm ▸ hs, hv⟩
  exact ((h.called ho).resolve_left List.not_mem_nil _ hsite).resolve_left List.not_mem_nil

theorem settled_wire {e : CtxEdge} (he : e ∈ st.calls.edges) : Wired p st e :=
  (h.wired he).2.resolve_left List.not_mem_nil

/-- Once nothing waits, what is due has arrived. -/
theorem closed (hw : st.pending.poll? = none) : Closed p setup st.conclusions where
  entry m hm := (h.entered m hm).resolve_left List.not_mem_nil
  alloc hs hc := by
    have hv := h.settled_visit hs
    simp only [Visited, hc] at hv
    exact hv.arrived hw
  copy hs hc := by
    have hv := h.settled_visit hs
    simp only [Visited, hc] at hv
    exact hv
  staticLoad hs hc := by
    have hv := h.settled_visit hs
    simp only [Visited, hc] at hv
    exact hv
  staticStore hs hc := by
    have hv := h.settled_visit hs
    simp only [Visited, hc] at hv
    exact hv
  staticCall hs hc hst hcallee := by
    have hv := h.settled_visit hs
    simp only [Visited, hc] at hv
    obtain ⟨callee, hcallee', he⟩ := hv hst
    obtain rfl := Except.ok.inj (hcallee.symm.trans hcallee')
    exact he
  fieldStore ho hs hc := by
    have ha := h.settled_receive ho _ (mem_accesses.2 ⟨hs, .inl ⟨_, _, hc⟩⟩)
    simp only [Accessed, hc] at ha
    exact ha
  fieldLoad ho hs hc := by
    have ha := h.settled_receive ho _ (mem_accesses.2 ⟨hs, .inr (.inl ⟨_, _, hc⟩)⟩)
    simp only [Accessed, hc] at ha
    exact ha
  elementStore ho hs hc := by
    have ha := h.settled_receive ho _ (mem_accesses.2 ⟨hs, .inr (.inr (.inl ⟨_, _, hc⟩))⟩)
    simp only [Accessed, hc] at ha
    exact ha
  elementLoad ho hs hc := by
    have ha := h.settled_receive ho _ (mem_accesses.2 ⟨hs, .inr (.inr (.inr ⟨_, _, hc⟩))⟩)
    simp only [Accessed, hc] at ha
    exact ha
  instanceCall ho hs hc hv hcallee := by
    obtain ⟨callee, hcallee', he, -⟩ := h.settled_call ho hs hc hv
    obtain rfl := Except.ok.inj (hcallee.symm.trans hcallee')
    exact he
  receiver ho hs hc hv hcallee hb := by
    obtain ⟨callee, hcallee', -, hd⟩ := h.settled_call ho hs hc hv
    obtain rfl := Except.ok.inj (hcallee.symm.trans hcallee')
    exact (hd _ hb).arrived hw
  callee he _ := (h.wired he).1
  argument he hb _ hz := (h.settled_wire he _ hb).2.1 _ hz
  result he hb _ hw hv := (h.settled_wire he _ hb).2.2 _ hw _ hv
  flow he ho := (h.flowing _ _ _ he ho).arrived hw
  bodiless he _ := (h.wired he).1

/-- A state that owes nothing met no fault. -/
theorem faultless : Faultless p st.conclusions where
  known hs hc := by
    have hv := h.settled_visit hs
    simp only [Visited, hc] at hv
  static hs hc hst := by
    have hv := h.settled_visit hs
    simp only [Visited, hc] at hv
    obtain ⟨callee, hcallee, -⟩ := hv hst
    exact ⟨callee, hcallee⟩
  receiver ho := (h.received ho).resolve_left List.not_mem_nil
  onObject ho hs hc hv := by
    obtain ⟨callee, hcallee, -⟩ := h.settled_call ho hs hc hv
    exact ⟨callee, hcallee⟩
  arity he hb := (h.settled_wire he _ hb).1

end Owed

end

end ObjectFlow.PointsTo
