import ObjectFlow.Proofs.ClassGraph
import ObjectFlow.Proofs.Failure
/-!
# Call graphs as closures

A call graph by class hierarchy is the closure of its entries under calls: it
reaches the methods that calls lead to and no others, and its edges are the calls
of these methods with their targets. It is built unless one of these calls is
static or special and nothing answers it.
-/

namespace ObjectFlow

/-- All classes that were made are in the hierarchy, and calls name such classes. -/
structure Program.ClassesKnown (p : Program) : Prop where
  added : ∀ c, p.hierarchy.Made c → c ∈ p.hierarchy.nodes
  named : ∀ m, ∀ s ∈ p.callSites m, p.hierarchy.Made s.call.ref.owner

theorem Hierarchy.Consistent.made_of_mem_superChain {h : Hierarchy} (hc : h.Consistent)
    {c d : ClassRef} (hm : h.Made c) (hd : d ∈ h.superChain c) : h.Made d := by
  unfold superChain at hd
  generalize h.classes.length = n at hd
  induction n generalizing c with
  | zero => cases hd
  | succ n ih =>
    rw [superChainUpTo] at hd
    rcases List.mem_cons.1 hd with rfl | hd
    · exact hm
    · cases hs : h.superclass? c with
      | none =>
        rw [hs] at hd
        cases hd
      | some s =>
        rw [hs] at hd
        obtain ⟨decl, hdecl, -⟩ := hm
        rw [superclass?, hdecl] at hs
        exact ih ((hc.above hdecl).1 s hs) hd

namespace Cha

/-! ## Calls that nothing answers -/

/-- A static call names no declared method, or a special call no method that the named class would
run. -/
def Unresolvable (h : Hierarchy) (s : CallSite) : Prop :=
  (s.call.kind = .static ∧ h.resolve s.call.ref = .ok none) ∨
    (s.call.kind = .special ∧ h.dispatch s.call.ref.owner s.call.ref.signature = none)

section
variable {h : Hierarchy} {s : CallSite} {e : AnalysisError}

theorem targets_of_unresolvable (hu : Unresolvable h s) :
    ∃ r t, targets h s = .error (.unresolved r t) := by
  unfold targets
  rcases hu with ⟨hk, hr⟩ | ⟨hk, hd⟩
  · rw [hk]
    dsimp only
    rw [hr]
    exact ⟨_, _, rfl⟩
  · rw [hk]
    dsimp only
    rw [hd]
    exact ⟨_, _, rfl⟩

/-- Where the classes above the named one are known, only calls that nothing answers fail. -/
theorem unresolvable_of_targets (hc : ∀ d ∈ h.superChain s.call.ref.owner, d ∈ h.nodes)
    (ht : targets h s = .error e) : Unresolvable h s ∧ ∃ r t, e = .unresolved r t := by
  unfold targets at ht
  dsimp only at ht
  split at ht
  · rename_i hk
    split at ht
    · rename_i c hr
      exact absurd hr (PointsTo.resolve_ne_error hc c)
    · rename_i hr
      exact ⟨.inl ⟨hk, hr⟩, _, _, (Except.error.inj ht).symm⟩
    · cases ht
  · rename_i hk
    split at ht
    · rename_i hd
      exact ⟨.inr ⟨hk, hd⟩, _, _, (Except.error.inj ht).symm⟩
    · cases ht
  · cases ht
  · cases ht

end

/-! ## What calls lead to -/

/-- The least set of methods that contains the entries and the targets of all calls in it. -/
inductive Reached (p : Program) (E : List Method) : Method → Prop
  | entry {m : Method} (entry : m ∈ E) : Reached p E m
  | target {m t : Method} {s : CallSite} {ms : List Method} (caller : Reached p E m)
      (site : s ∈ p.callSites m) (targets : targets p.hierarchy s = .ok ms) (target : t ∈ ms) :
      Reached p E t

/-- The edge leads from a call of a reached method to one of its targets. -/
structure Leads (p : Program) (E : List Method) (e : CallEdge Method CallSite) : Prop where
  site : ∃ m, Reached p E m ∧ e.site ∈ p.callSites m
  callee : ∃ ms, targets p.hierarchy e.site = .ok ms ∧ e.callee ∈ ms
  kind : e.kind = e.site.call.kind

section
variable {p : Program} {E : List Method} {st st' : State} {m : Method} {e : AnalysisError}

theorem Leads.reached {e : CallEdge Method CallSite} (h : Leads p E e) : Reached p E e.callee := by
  obtain ⟨m, hm, hs⟩ := h.site
  obtain ⟨ms, ht, hin⟩ := h.callee
  exact .target hm hs ht hin

/-- A graph under construction with nothing in it but what calls lead to. -/
structure Led (p : Program) (E : List Method) (st : State) : Prop where
  entries : st.graph.entries = .ofList E
  reachable : ∀ m ∈ st.graph.reachable, Reached p E m
  queue : ∀ m ∈ st.queue, Reached p E m
  edges : ∀ e ∈ st.graph.edges, Leads p E e

namespace Led

theorem addCall {s : CallSite} {t : Method} (h : Led p E st)
    (ht : Leads p E ⟨s.call.kind, s, t⟩) : Led p E (addCall s t st) := by
  have hgraph : (Cha.addCall s t st).graph = st.graph.addEdge ⟨s.call.kind, s, t⟩ := rfl
  constructor
  · rw [hgraph, CallGraph.entries_addEdge]
    exact h.entries
  · rw [hgraph, CallGraph.reachable_addEdge]
    exact h.reachable
  · intro m hm
    unfold Cha.addCall at hm
    dsimp only at hm
    split at hm
    · exact h.queue m hm
    · rcases List.mem_append.1 hm with hm | hm
      · exact h.queue m hm
      · rw [List.mem_singleton.1 hm]
        exact ht.reached
  · intro e he
    rw [hgraph] at he
    rcases CallGraph.mem_edges_addEdge.1 he with he | rfl
    · exact h.edges e he
    · exact ht

theorem addTargets {s : CallSite} {ts : List Method} (h : Led p E st)
    (hts : ∀ t ∈ ts, Leads p E ⟨s.call.kind, s, t⟩) :
    Led p E (ts.foldl (fun st t => Cha.addCall s t st) st) := by
  induction ts generalizing st with
  | nil => exact h
  | cons t ts ih =>
    exact ih (h.addCall (hts t List.mem_cons_self)) fun t' ht' => hts t' (List.mem_cons_of_mem _ ht')

theorem addCalls {sites : List CallSite} (h : Led p E st) (hm : Reached p E m)
    (hs : ∀ s ∈ sites, s ∈ p.callSites m) (ha : addCalls p.hierarchy sites st = .ok st') :
    Led p E st' := by
  induction sites generalizing st with
  | nil =>
    obtain rfl := Except.ok.inj ha
    exact h
  | cons s sites ih =>
    simp only [Cha.addCalls] at ha
    cases ht : targets p.hierarchy s with
    | error e =>
      rw [ht] at ha
      cases ha
    | ok ms =>
      rw [ht] at ha
      have hsite := hs s List.mem_cons_self
      have hled := h.addTargets fun t hin => ⟨⟨m, hm, hsite⟩, ⟨ms, ht, hin⟩, rfl⟩
      exact ih hled (fun s' hs' => hs s' (List.mem_cons_of_mem _ hs')) ha

theorem process {queue : List Method} (h : Led p E st) (hq : st.queue = m :: queue)
    (hp : process p m { st with queue := queue } = .ok st') : Led p E st' := by
  have hqueue : ∀ m' ∈ queue, Reached p E m' := by
    intro m' hm'
    apply h.queue
    rw [hq]
    exact List.mem_cons_of_mem _ hm'
  have hm : Reached p E m := h.queue m (by rw [hq]; exact List.mem_cons_self)
  unfold Cha.process at hp
  split at hp
  · obtain rfl := Except.ok.inj hp
    exact ⟨h.entries, h.reachable, hqueue, h.edges⟩
  · have hvisited : Led p E ⟨st.graph.addReachable m, queue⟩ := by
      refine ⟨h.entries, fun m' hm' => ?_, hqueue, h.edges⟩
      rcases CallGraph.mem_addReachable.1 hm' with hm' | rfl
      · exact h.reachable m' hm'
      · exact hm
    exact hvisited.addCalls hm (fun _ => id) hp

theorem start : Led p E ⟨E.foldl CallGraph.noteEntry .empty, E⟩ := by
  obtain ⟨hentries, hsite, -⟩ := foldl_noteEntry E .empty
  refine ⟨hentries, fun m hm => absurd hm (not_reachable_start m), fun m hm => .entry hm, ?_⟩
  intro e he
  obtain ⟨s, es, hs, -⟩ := CallGraph.mem_edges.1 he
  dsimp only at hs
  rw [hsite] at hs
  cases hs

end Led

/-! ### Faults -/

theorem addCalls_eq_error {h : Hierarchy} {sites : List CallSite}
    (ha : addCalls h sites st = .error e) : ∃ s ∈ sites, targets h s = .error e := by
  induction sites generalizing st with
  | nil => cases ha
  | cons s sites ih =>
    simp only [addCalls] at ha
    cases ht : targets h s with
    | error e' =>
      rw [ht] at ha
      obtain rfl := Except.error.inj ha
      exact ⟨s, List.mem_cons_self, ht⟩
    | ok ms =>
      rw [ht] at ha
      obtain ⟨s', hs', ht'⟩ := ih ha
      exact ⟨s', List.mem_cons_of_mem _ hs', ht'⟩

/-- The building fails at a call of a reached method. -/
theorem Ends.fault_site (h : Ends p st (.error e)) (hl : Led p E st) :
    ∃ m s, Reached p E m ∧ s ∈ p.callSites m ∧ targets p.hierarchy s = .error e := by
  generalize hr : (.error e : Except AnalysisError PlainCallGraph) = r at h
  induction h with
  | done => cases hr
  | @fault st m queue e' hq hp =>
    obtain rfl := Except.error.inj hr
    unfold process at hp
    split at hp
    · cases hp
    · obtain ⟨s, hs, ht⟩ := addCalls_eq_error hp
      exact ⟨m, s, hl.queue m (by rw [hq]; exact List.mem_cons_self), hs, ht⟩
  | next hq hp _ ih => exact ih (hl.process hq hp) hr

/-! ## What is built -/

/-- A call graph that is the closure of its entries. -/
structure Closure (p : Program) (E : List Method) (g : PlainCallGraph) : Prop where
  entries : g.entries.toList = E.eraseDups
  reachable : ∀ m, m ∈ g.reachable ↔ Reached p E m
  distinct : g.reachable.toList.Nodup
  edges : ∀ e, e ∈ g.edges ↔ Leads p E e
  once : g.edges.Nodup

/-- What calls lead to is reached by a complete graph, by its edges. -/
theorem Complete.of_reached {g : PlainCallGraph} (hc : Complete p E g) (hm : Reached p E m) :
    m ∈ g.reachable := by
  induction hm with
  | entry hm => exact hc.entry _ hm
  | target _ hs ht hin ih =>
    obtain ⟨ms, ht', hall⟩ := hc.called _ ih _ hs
    obtain rfl := Except.ok.inj (ht.symm.trans ht')
    exact (hall _ hin).2

theorem build_closure {g : PlainCallGraph} (hn : p.hierarchy.Numbered) (hb : build p E = .ok g) :
    Closure p E g := by
  have hends := build_ends hn E
  rw [hb] at hends
  obtain ⟨st, hl, -, rfl⟩ := hends.invariant (fun hq hp hl => hl.process hq hp) Led.start
  have hc := build_complete hn hb
  constructor
  · rw [hl.entries, OrderedSet.toList_ofList]
  · exact fun m => ⟨hl.reachable m, hc.of_reached⟩
  · exact st.graph.reachable.nodup
  · refine fun e => ⟨hl.edges e, fun he => ?_⟩
    obtain ⟨m, hm, hs⟩ := he.site
    obtain ⟨ms, ht, hin⟩ := he.callee
    obtain ⟨ms', ht', hall⟩ := hc.called m (hc.of_reached hm) e.site hs
    obtain rfl := Except.ok.inj (ht.symm.trans ht')
    have hedge := (hall e.callee hin).1
    rwa [← he.kind] at hedge
  · exact hc.grouped.nodup_edges

/-- The building of a call graph comes to an end whatever the program calls. It fails exactly if a
static or special call of a reached method has no target, and otherwise gives the closure of the
entries. -/
theorem build_ends_with_closure (hh : p.hierarchy.Built) (hk : p.ClassesKnown) (E : List Method) :
    Ends p ⟨E.foldl CallGraph.noteEntry .empty, E⟩ (build p E) ∧
    ((∃ r t, build p E = .error (.unresolved r t)) ↔
      ∃ m s, Reached p E m ∧ s ∈ p.callSites m ∧ Unresolvable p.hierarchy s) ∧
    ((∀ m s, Reached p E m → s ∈ p.callSites m → ¬ Unresolvable p.hierarchy s) →
      ∃ g, build p E = .ok g ∧ Closure p E g) := by
  have hends := build_ends hh.numbered E
  have hfault : ∀ e, build p E = .error e → (∃ r t, e = .unresolved r t) ∧
      ∃ m s, Reached p E m ∧ s ∈ p.callSites m ∧ Unresolvable p.hierarchy s := by
    intro e he
    rw [he] at hends
    obtain ⟨m, s, hm, hs, ht⟩ := hends.fault_site Led.start
    -- all classes above the named one are known, so the look-up itself does not fail
    have hchain : ∀ d ∈ p.hierarchy.superChain s.call.ref.owner, d ∈ p.hierarchy.nodes :=
      fun d hd => hk.added d (hh.consistent.made_of_mem_superChain (hk.named m s hs) hd)
    obtain ⟨hu, hkind⟩ := unresolvable_of_targets hchain ht
    exact ⟨hkind, m, s, hm, hs, hu⟩
  refine ⟨hends, ⟨?_, ?_⟩, fun hall => ?_⟩
  · rintro ⟨r, t, he⟩
    exact (hfault _ he).2
  · rintro ⟨m, s, hm, hs, hu⟩
    cases hb : build p E with
    | error e =>
      obtain ⟨r, t, rfl⟩ := (hfault e hb).1
      exact ⟨r, t, rfl⟩
    | ok g =>
      -- a graph that was built has targets for every call of a reached method
      have hc := build_complete hh.numbered hb
      obtain ⟨ms, ht, -⟩ := hc.called m (hc.of_reached hm) s hs
      obtain ⟨r, t, herr⟩ := targets_of_unresolvable hu
      rw [herr] at ht
      cases ht
  · cases hb : build p E with
    | error e =>
      obtain ⟨m, s, hm, hs, hu⟩ := (hfault e hb).2
      exact absurd hu (hall m s hm hs)
    | ok g => exact ⟨g, rfl, build_closure hh.numbered hb⟩

end

/-! ### Two methods that call each other -/

namespace Mutual

def owner : ClassRef := ⟨0, "A"⟩

def even : Method := ⟨0, owner, ⟨"even", [], .void⟩, true, false, false⟩

def odd : Method := ⟨1, owner, ⟨"odd", [], .void⟩, true, false, false⟩

def hierarchy : Hierarchy :=
  let h := (Hierarchy.empty.addClass "A" none [] false false).2
  let h := (h.addMethod owner even.signature true false false).2
  (h.addMethod owner odd.signature true false false).2

def toOdd : CallSite := ⟨⟨0, 1, even⟩, none, ⟨.static, odd.ref, []⟩⟩

def toEven : CallSite := ⟨⟨0, 1, odd⟩, none, ⟨.static, even.ref, []⟩⟩

def evenBody : Body := ⟨even, none, [], [], [toOdd.stmt, ⟨⟨1, 2, even⟩, .ret none⟩]⟩

def oddBody : Body := ⟨odd, none, [], [], [toEven.stmt, ⟨⟨1, 2, odd⟩, .ret none⟩]⟩

def program : Program := ⟨hierarchy, OrderedMap.ofList [(even, evenBody), (odd, oddBody)]⟩

theorem hierarchy_built : hierarchy.Built := by
  have heven : ((Hierarchy.empty.addClass "A" none [] false false).2.addMethod owner
      even.signature true false false).2.Built :=
    Hierarchy.Built.empty.addRoot.addMethod ⟨_, rfl, rfl⟩
  exact heven.addMethod ⟨_, rfl, rfl⟩

theorem site_of_program {m : Method} {s : CallSite} (hs : s ∈ program.callSites m) :
    s = toOdd ∨ s = toEven := by
  cases hb : program.body? m with
  | none =>
    unfold Program.callSites at hs
    rw [hb] at hs
    cases hs
  | some b =>
    have hin : (m, b) ∈ [(even, evenBody), (odd, oddBody)] := OrderedMap.mem_entries_iff.2 hb
    unfold Program.callSites at hs
    rw [hb] at hs
    simp only [List.mem_cons, Prod.mk.injEq, List.not_mem_nil, or_false] at hin
    rcases hin with ⟨rfl, rfl⟩ | ⟨rfl, rfl⟩
    · exact .inl (List.mem_singleton.1 hs)
    · exact .inr (List.mem_singleton.1 hs)

theorem classesKnown : program.ClassesKnown where
  added c hc := by
    obtain ⟨d, hd, rfl⟩ := hc
    have hin : d ∈ program.hierarchy.classes := List.mem_of_getElem? hd
    obtain rfl := List.mem_singleton.1 hin
    decide
  named m s hs := by
    rcases site_of_program hs with rfl | rfl
    · exact ⟨_, rfl, rfl⟩
    · exact ⟨_, rfl, rfl⟩

/-- The graph holds both methods and both calls once, although each of the methods waits again and
again. -/
theorem build_ends_with_closure_mutual : hierarchy.Built ∧ program.ClassesKnown ∧
    ∃ g, build program [even, odd, even] = .ok g ∧ Closure program [even, odd, even] g ∧
      g.reachable.toList = [even, odd] ∧
      g.edges = [⟨.static, toOdd, odd⟩, ⟨.static, toEven, even⟩] := by
  obtain ⟨-, -, hok⟩ := build_ends_with_closure (p := program) hierarchy_built classesKnown
    [even, odd, even]
  have hanswered : ∀ m s, Reached program [even, odd, even] m → s ∈ program.callSites m →
      ¬ Unresolvable program.hierarchy s := by
    intro m s _ hs
    rcases site_of_program hs with rfl | rfl
    · rintro (⟨-, hr⟩ | ⟨hk, -⟩)
      · cases hr
      · cases hk
    · rintro (⟨-, hr⟩ | ⟨hk, -⟩)
      · cases hr
      · cases hk
  obtain ⟨g, hg, hclosure⟩ := hok hanswered
  obtain rfl : _ = g := Except.ok.inj hg
  exact ⟨hierarchy_built, classesKnown, _, rfl, hclosure, rfl, rfl⟩

end Mutual

end Cha

end ObjectFlow
