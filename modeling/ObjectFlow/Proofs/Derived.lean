import ObjectFlow.Proofs.Rounds
/-!
# Nothing is made up

Each task stands on the agenda for a reason: it draws a conclusion that the rules
ask for. So a state never goes beyond a set that is closed under the rules, in
whatever order its tasks and rounds come and whether or not they succeed.
-/

namespace ObjectFlow.PointsTo

/-- A state that stays inside a set of conclusions, with what waits. -/
structure Within (F : Set Conclusion) (st : State) : Prop where
  reachable : ∀ {m}, m ∈ st.calls.reachable → .reachable m ∈ F
  calls : ∀ {e}, e ∈ st.calls.edges → .call e ∈ F
  flow : ∀ {s t}, st.flow.hasEdge s t → .flow s t ∈ F
  due : ∀ {q o}, st.Due q o → .holds q o ∈ F
  grouped : st.calls.Grouped

/-- Why a task stands on an agenda. -/
def Justified (p : Program) (F : Set Conclusion) : Task → Prop
  | .enter m => .reachable m ∈ F
  | .visit m stmt => Executes p F m stmt
  | .receive c v o => .holds (.var c v) o ∈ F
  | .call site o => ∃ v, .holds (varIn site.context v) o ∈ F ∧ p.Has site.site.stmt ∧
      site.site.call.base? = some v
  | .wire e => .call e ∈ F

section
variable {p : Program} {setup : Setup} {F : Set Conclusion} {st st' : State}

theorem Within.conclusions_subset (h : Within F st) : st.conclusions ⊆ F := by
  rintro (m | e | ⟨a, b⟩ | ⟨q, o⟩) hx
  · exact h.reachable hx
  · exact h.calls hx
  · exact h.flow hx
  · exact h.due (.inl hx)

/-- The parts that a state shares with another. -/
theorem Within.congr (h : Within F st) (hc : st'.calls = st.calls) (hf : st'.flow = st.flow)
    (ho : st'.objectsOf = st.objectsOf) (hp : st'.pending = st.pending) : Within F st' where
  reachable hm := by rw [hc] at hm; exact h.reachable hm
  calls he := by rw [hc] at he; exact h.calls he
  flow he := by rw [hf] at he; exact h.flow he
  due hd := by rw [State.Due, ho, hp] at hd; exact h.due hd
  grouped := by rw [hc]; exact h.grouped

theorem Within.await {q : Pointer} {objs : PointsToSet CtxObject} (h : Within F st)
    (ho : ∀ o ∈ objs, .holds q o ∈ F) : Within F (st.await q objs) where
  reachable := h.reachable
  calls := h.calls
  flow := h.flow
  due hd := by
    rcases State.due_await.1 hd with hd | ⟨rfl, hin⟩
    · exact h.due hd
    · exact ho _ hin
  grouped := h.grouped

theorem Within.connect {a b : Pointer} {kind : FlowKind} (hF : Closed p setup F)
    (h : Within F st) (he : .flow a b ∈ F) : Within F (st.connect a b kind) where
  reachable hm := by rw [State.connect_calls] at hm; exact h.reachable hm
  calls he := by rw [State.connect_calls] at he; exact h.calls he
  flow hst := by
    rcases State.hasEdge_connect.1 hst with hst | ⟨rfl, rfl⟩
    · exact h.flow hst
    · exact he
  due hd := by
    rcases hd with ho | hw
    · rw [State.connect_objectsOf] at ho
      exact h.due (.inl ho)
    · rcases State.mem_waiting_connect.1 hw with hw | ⟨-, rfl, ho⟩
      · exact h.due (.inr hw)
      · exact hF.flow he (h.due (.inl ho))
  grouped := by rw [State.connect_calls]; exact h.grouped

theorem Within.reach {m : CtxMethod} (h : Within F st) (hm : .reachable m ∈ F) :
    Within F (st.reach p m).1 ∧ ∀ k ∈ (st.reach p m).2, Justified p F k := by
  constructor
  · unfold State.reach
    split
    · exact h
    · refine ⟨fun hm' => ?_, h.calls, h.flow, h.due, h.grouped⟩
      rcases CallGraph.mem_addReachable.1 hm' with hm' | rfl
      · exact h.reachable hm'
      · exact hm
  · intro k hk
    obtain ⟨-, b, hb, stmt, hstmt, rfl⟩ := State.mem_reach_tasks.1 hk
    exact ⟨hm, b, hb, hstmt⟩

theorem Within.addCall {e : CtxEdge} (hF : Closed p setup F) (h : Within F st)
    (he : .call e ∈ F) :
    Within F (st.addCall p e).1 ∧ ∀ k ∈ (st.addCall p e).2, Justified p F k := by
  by_cases hold : st.calls.hasEdge e
  · rw [State.addCall_of_hasEdge hold]
    exact ⟨h, fun k hk => absurd hk List.not_mem_nil⟩
  · rw [State.addCall_of_not_hasEdge hold]
    have h' : Within F { st with calls := st.calls.addEdge e } := by
      refine ⟨fun hm => ?_, fun he' => ?_, h.flow, h.due, h.grouped.addEdge e⟩
      · rw [CallGraph.reachable_addEdge] at hm
        exact h.reachable hm
      · rcases CallGraph.mem_edges_addEdge.1 he' with he' | rfl
        · exact h.calls he'
        · exact he
    obtain ⟨hw, hk⟩ := h'.reach (p := p) (hF.reaches he)
    refine ⟨hw, fun k hin => ?_⟩
    rcases List.mem_append.1 hin with hin | hin
    · exact hk k hin
    · obtain rfl := List.mem_singleton.1 hin
      exact he

/-! ## One task -/

/-- A task that stands there for a reason draws justified conclusions, and the tasks that it gives
rise to have their reasons. -/
def Sound (p : Program) (F : Set Conclusion) (st' : State) (new : List Task) : Prop :=
  Within F st' ∧ ∀ k ∈ new, Justified p F k

theorem Sound.of_within (h : Within F st') : Sound p F st' [] :=
  ⟨h, fun _ hk => absurd hk List.not_mem_nil⟩

variable {new : List Task}

theorem visit_sound {m : CtxMethod} {stmt : Stmt} (hF : Closed p setup F) (h : Within F st)
    (hk : Executes p F m stmt) (hx : visit p setup.selector m stmt st = .ok (st', new)) :
    Sound p F st' new := by
  unfold visit at hx
  dsimp only at hx
  split at hx
  · rename_i hc
    obtain ⟨rfl, rfl⟩ := Prod.mk.inj (Except.ok.inj hx)
    refine .of_within (Within.await (h.congr rfl rfl rfl rfl) fun o ho => ?_)
    obtain rfl := OrderedSet.mem_singleton.1 ho
    exact hF.alloc hk hc
  · rename_i hc
    obtain ⟨rfl, rfl⟩ := Prod.mk.inj (Except.ok.inj hx)
    exact .of_within (h.connect hF (hF.copy hk hc))
  · rename_i hc
    obtain ⟨rfl, rfl⟩ := Prod.mk.inj (Except.ok.inj hx)
    exact .of_within (h.connect hF (hF.staticLoad hk hc))
  · rename_i hc
    obtain ⟨rfl, rfl⟩ := Prod.mk.inj (Except.ok.inj hx)
    exact .of_within (h.connect hF (hF.staticStore hk hc))
  · rename_i r c hc
    split at hx
    · rename_i hst
      obtain ⟨callee, mid, hcallee, rfl, rfl, rfl⟩ := visitStaticCall_eq_ok hx
      exact Within.addCall hF (h.congr rfl rfl rfl rfl) (hF.staticCall hk hc hst hcallee)
    · obtain ⟨rfl, rfl⟩ := Prod.mk.inj (Except.ok.inj hx)
      exact .of_within h
  · cases hx
  · obtain ⟨rfl, rfl⟩ := Prod.mk.inj (Except.ok.inj hx)
    exact .of_within h

theorem connectAccess_within {c : Ctx} {v : Var} {o : CtxObject} {stmt : Stmt}
    (hF : Closed p setup F) (h : Within F st) (ho : .holds (varIn c v) o ∈ F)
    (hs : stmt ∈ accesses p v) : Within F (connectAccess c o st stmt) := by
  obtain ⟨hs, ⟨f, w, hc⟩ | ⟨f, w, hc⟩ | ⟨i, w, hc⟩ | ⟨i, w, hc⟩⟩ := mem_accesses.1 hs
  all_goals simp only [connectAccess, hc]
  · exact h.connect hF (hF.fieldStore ho hs hc)
  · exact h.connect hF (hF.fieldLoad ho hs hc)
  · exact h.connect hF (hF.elementStore ho hs hc)
  · exact h.connect hF (hF.elementLoad ho hs hc)

theorem receive_sound {c : Ctx} {v : Var} {o : CtxObject} (hF : Closed p setup F)
    (h : Within F st) (ho : .holds (varIn c v) o ∈ F) :
    Sound p F (receive p c v o st).1 (receive p c v o st).2 := by
  constructor
  · exact foldl_keeps (fun st stmt hs h => connectAccess_within hF h ho hs) h
  · intro k hk
    obtain ⟨site, hs, rfl⟩ := List.mem_map.1 hk
    obtain ⟨hs, hv⟩ := mem_calls.1 hs
    exact ⟨v, ho, hs, hv⟩

theorem call_sound {site : CtxCallSite} {o : CtxObject} (hF : Closed p setup F)
    (h : Within F st) (hk : Justified p F (.call site o))
    (hx : call p setup.selector site o st = .ok (st', new)) : Sound p F st' new := by
  obtain ⟨v, ho, hs, hv⟩ := hk
  obtain ⟨callee, mid, served, hcallee, rfl, hserved, rfl, rfl⟩ := call_eq_ok hx
  refine Within.addCall hF ?_ (hF.instanceCall ho hs rfl hv hcallee)
  rcases hserved with ⟨-, rfl⟩ | ⟨b, hb, rfl⟩
  · exact h.congr rfl rfl rfl rfl
  · refine Within.await (h.congr rfl rfl rfl rfl) fun o' ho' => ?_
    obtain rfl := OrderedSet.mem_singleton.1 ho'
    exact hF.receiver ho hs rfl hv hcallee hb

theorem wire_within {e : CtxEdge} (hF : Closed p setup F) (h : Within F st) (he : .call e ∈ F)
    (hx : wire p e st = .ok st') : Within F st' := by
  unfold wire at hx
  cases hb : p.body? e.callee.method with
  | none =>
    simp only [hb] at hx
    cases hx
    exact h
  | some b =>
    simp only [hb] at hx
    split at hx
    · cases hx
    · rename_i hl
      obtain rfl := Except.ok.inj hx
      have hargs : Within F (wireArguments e.site.context e.callee.context st
          (e.site.site.call.args.zip b.params)) :=
        foldl_keeps (fun st a ha h => h.connect hF (hF.argument he hb (not_not.1 hl) ha)) h
      refine foldl_keeps (fun st w hw h => ?_) hargs
      have h' : Within F (st.internPointer (varIn e.site.context w)) := h.congr rfl rfl rfl rfl
      exact foldl_keeps (fun st v hv h => Within.connect hF h
        (hF.result he hb (not_not.1 hl) (Option.mem_toList.1 hw) hv)) h'

/-- Any task. -/
theorem exec_sound {k : Task} (hF : Closed p setup F) (h : Within F st) (hk : Justified p F k)
    (hx : exec p setup.selector k st = .ok (st', new)) : Sound p F st' new := by
  cases k with
  | enter m =>
    obtain ⟨rfl, rfl⟩ := Prod.mk.inj (Except.ok.inj hx)
    have h' : Within F { st with
        elements := st.elements.internMethod m
        calls := st.calls.noteEntry m } := ⟨h.reachable, h.calls, h.flow, h.due, h.grouped⟩
    exact h'.reach hk
  | visit m stmt => exact visit_sound hF h hk hx
  | receive c v o =>
    cases v with
    | none => cases hx
    | some v =>
      obtain ⟨rfl, rfl⟩ := Prod.mk.inj (Except.ok.inj hx)
      exact receive_sound hF h hk
  | call site o => exact call_sound hF h hk hx
  | wire e =>
    simp only [exec] at hx
    cases hw : wire p e st with
    | error err =>
      rw [hw] at hx
      cases hx
    | ok st₁ =>
      rw [hw] at hx
      obtain ⟨rfl, rfl⟩ := Prod.mk.inj (Except.ok.inj hx)
      exact .of_within (wire_within hF h hk hw)

/-! ## A whole run -/

theorem Sound.after {k : Task} {A : List Task} (hF : Closed p setup F)
    (h : Sound p F st (k :: A)) (hx : exec p setup.selector k st = .ok (st', new)) :
    Sound p F st' (new ++ A) := by
  obtain ⟨hw, hn⟩ := exec_sound hF h.1 (h.2 k List.mem_cons_self) hx
  refine ⟨hw, fun k' hk' => ?_⟩
  rcases List.mem_append.1 hk' with hk' | hk'
  · exact hn k' hk'
  · exact h.2 k' (List.mem_cons_of_mem _ hk')

/-- Whatever becomes of an agenda, its state stays inside. -/
theorem settle_within {A : List Task} (fuel : Nat) (hF : Closed p setup F) (h : Sound p F st A) :
    Within F (settle p setup.selector fuel A st).2 := by
  obtain ⟨rest, hrest, -⟩ := settle_keeps (P := fun A st => Sound p F st A)
    (fun h hx => h.after hF hx) fuel h
  exact hrest.1

theorem initial_sound (hF : Closed p setup F) :
    Sound p F { State.empty with started := true }
      (setup.entries.map fun m => .enter ⟨[], m⟩) := by
  constructor
  · refine ⟨fun hm => absurd hm (OrderedSet.not_mem_empty _), fun he => absurd he List.not_mem_nil,
      fun he => absurd he (FlowGraph.not_hasEdge_empty _ _), fun hd => ?_, CallGraph.grouped_empty⟩
    rcases hd with hd | hd
    · exact absurd hd (OrderedSet.not_mem_empty _)
    · exact absurd hd (OrderedSet.not_mem_empty _)
  · intro k hk
    obtain ⟨m, hm, rfl⟩ := List.mem_map.1 hk
    exact hF.entry m hm

theorem start_within (fuel : Nat) (hF : Closed p setup F) :
    Within F (start fuel p setup .empty).2 := settle_within fuel hF (initial_sound hF)

/-- The objects that wait for a pointer, and the arrivals they make, have their reasons. -/
theorem propagate_sound {q : Pointer} {objs : PointsToSet CtxObject}
    {rest : Pending Pointer CtxObject} (hF : Closed p setup F) (h : Within F st)
    (ht : st.pending.take? q = some (objs, rest)) :
    Sound p F ((st.taken rest).propagate q objs).1
      (arrivals q ((st.taken rest).propagate q objs).2) := by
  obtain ⟨hc, hf, -, hnew, -⟩ := propagate_spec (st.taken rest) q objs
  have hobjs : ∀ o ∈ objs, .holds q o ∈ F := fun o hin => h.due (due_of_take? ht hin)
  constructor
  · refine ⟨fun hm => ?_, fun he => ?_, fun he => ?_, fun {q' o} hd => ?_, ?_⟩
    · rw [hc] at hm
      exact h.reachable hm
    · rw [hc] at he
      exact h.calls he
    · rw [hf] at he
      exact h.flow he
    · rcases due_propagate ht hd with hd | ⟨he, hin⟩
      · exact h.due hd
      · exact hF.flow (h.flow he) (hobjs o hin)
    · rw [hc]
      exact h.grouped
  · intro k hk
    unfold arrivals at hk
    split at hk
    · obtain ⟨o, hin, rfl⟩ := List.mem_map.1 hk
      exact hobjs o ((hnew o).1 hin).1
    · exact absurd hk List.not_mem_nil

theorem NextRound.within (hF : Closed p setup F) (h : Within F st)
    (hr : NextRound p setup st st') : Within F st' := by
  obtain ⟨fuel, q, objs, rest, ht, hr⟩ := hr
  have hw := settle_within fuel hF (propagate_sound hF h ht)
  rwa [(round_eq_ok hr).2] at hw

theorem Reaches.within (hF : Closed p setup F) (h : Within F st)
    (hr : Reaches p setup st st') : Within F st' := by
  induction hr with
  | refl => exact h
  | tail _ hn ih => exact hn.within hF ih

end

end ObjectFlow.PointsTo
