import Mathlib.Algebra.GroupWithZero.Nat
import Mathlib.Logic.Relation
import ObjectFlow.Graph.Cha
import ObjectFlow.Proofs.Building
import ObjectFlow.Proofs.Search
/-!
# Complete call graphs by class hierarchy

In a hierarchy that can be built, methods are told apart by numbers, so a call
has at most as many targets as there are methods and the rounds that a run is
granted are enough. The graph then reaches its entries, and with a method all
targets of its calls. In a well-formed hierarchy the targets of a call on an
object are the methods that the subtypes of the named class would run.
-/

namespace ObjectFlow

namespace Hierarchy

variable {h : Hierarchy}

/-! ## Declared callees -/

theorem declares_of_dispatch {c : ClassRef} {s : Signature} {m : Method}
    (hm : h.dispatch c s = some m) : h.Declares m := by
  obtain ⟨d, -, hd⟩ := List.exists_of_findSome?_eq_some hm
  obtain ⟨hd, -⟩ := Option.filter_eq_some_iff.1 hd
  exact ⟨d, s, hd⟩

theorem declares_of_interfaceMethod? {s : Signature} {cs : List ClassRef} {m : Method}
    (hm : h.interfaceMethod? s cs = .ok (some m)) : h.Declares m := by
  induction cs with
  | nil => cases hm
  | cons c cs ih =>
    rw [interfaceMethod?] at hm
    split at hm
    · cases hm
    · dsimp only at hm
      split at hm
      · rename_i hfound
        obtain ⟨d, -, hd⟩ := List.exists_of_findSome?_eq_some hfound
        obtain rfl := Option.some.inj (Except.ok.inj hm)
        exact ⟨d, s, hd⟩
      · exact ih hm

theorem declares_of_resolve {r : MethodRef} {m : Method} (hm : h.resolve r = .ok (some m)) :
    h.Declares m := by
  unfold resolve at hm
  dsimp only at hm
  split at hm
  · rename_i hfound
    obtain ⟨d, -, hd⟩ := List.exists_of_findSome?_eq_some hfound
    obtain rfl := Option.some.inj (Except.ok.inj hm)
    exact ⟨d, r.signature, hd⟩
  · exact declares_of_interfaceMethod? hm

/-- There are at most as many declared methods as numbers. -/
theorem Numbered.length_le (hn : h.Numbered) {ms : List Method} (hnd : ms.Nodup)
    (hd : ∀ m ∈ ms, h.Declares m) : ms.length ≤ h.methodCount := by
  have hids : (ms.map Method.id).Nodup :=
    hnd.map_on fun m hm m' hm' heq => hn.unique (hd m hm) (hd m' hm') heq
  have hsub : ms.map Method.id ⊆ List.range h.methodCount := by
    intro i hi
    obtain ⟨m, hm, rfl⟩ := List.mem_map.1 hi
    exact List.mem_range.2 (hn.lt (hd m hm))
  have hlen := (List.subperm_of_subset hids hsub).length_le
  simpa using hlen

/-! ## Subtypes -/

/-- The superclass of a class is a class, and interfaces have none. -/
structure WellFormed (h : Hierarchy) : Prop where
  superclass : ∀ c ∈ h.nodes, ∀ s, h.superclass? c = some s → h.isInterface s = false
  interface : ∀ c ∈ h.nodes, h.isInterface c → h.superclass? c = none

theorem mem_below {c d : ClassRef} : d ∈ h.below c ↔ ∃ k, h.links.get? (c, d) = some k := by
  simp only [below, List.mem_filterMap]
  constructor
  · rintro ⟨⟨⟨c', d'⟩, k⟩, he, hd⟩
    split at hd
    · rename_i heq
      obtain rfl : c' = c := heq
      obtain rfl := Option.some.inj hd
      exact ⟨k, OrderedMap.mem_entries_iff.1 he⟩
    · cases hd
  · rintro ⟨k, hk⟩
    exact ⟨((c, d), k), OrderedMap.mem_entries_iff.2 hk, by simp⟩

/-- The steps that a search for callees takes. -/
def directly (h : Hierarchy) (c : ClassRef) : List ClassRef :=
  h.directSubclasses c ++ h.directSubinterfaces c ++ h.directImplementors c

theorem below_of_directly {c d : ClassRef} (hd : d ∈ h.directly c) : d ∈ h.below c := by
  unfold directly directSubclasses directSubinterfaces directImplementors at hd
  split at hd <;> simp only [List.nil_append, List.append_nil, List.mem_append] at hd
  · rcases hd with hd | hd <;> exact (List.mem_filter.1 hd).1
  · exact (List.mem_filter.1 hd).1

/-- In a well-formed hierarchy, each link is of the kind that a search for callees follows. -/
theorem directly_of_below (hc : h.Consistent) (hw : h.WellFormed) {c d : ClassRef}
    (hd : d ∈ h.below c) : d ∈ h.directly c := by
  obtain ⟨k, hk⟩ := mem_below.1 hd
  have hnode := (hc.ends hk).2
  have hsub : ∀ b, h.isInterface d = b → d ∈ h.directSubtypes c k b := by
    intro b hb
    refine List.mem_filter.2 ⟨hd, ?_⟩
    simp [hk, hb]
  unfold directly directSubclasses directSubinterfaces directImplementors
  rcases hc.linked hk with ⟨rfl, hs⟩ | ⟨hi, rfl⟩
  · have hcl := hw.superclass d hnode c hs
    have hdl : h.isInterface d = false := by
      cases hdi : h.isInterface d with
      | false => rfl
      | true =>
        have hno := hw.interface d hnode hdi
        rw [hs] at hno
        cases hno
    simp [hcl, hsub false hdl]
  · cases hdi : h.isInterface d with
    | true =>
      have hin := hsub true hdi
      rw [hdi] at hin
      simp only [if_true] at hin
      simp [hi, hin]
    | false =>
      have hin := hsub false hdi
      rw [hdi] at hin
      simp only [Bool.false_eq_true, if_false] at hin
      simp [hi, hin]

/-- A subtype is found by the steps of a search for callees. -/
theorem reachableFrom_of_isSubtype (hc : h.Consistent) (hw : h.WellFormed) {upper lower : ClassRef}
    (hs : h.isSubtype upper lower) :
    lower ∈ reachableFrom h.directly (h.nodes.size + 1) upper := by
  have hU : ∀ c ∈ upper :: h.nodes.toList, ∀ d ∈ h.below c, d ∈ upper :: h.nodes.toList := by
    intro c _ d hd
    obtain ⟨k, hk⟩ := mem_below.1 hd
    exact List.mem_cons_of_mem _ (hc.ends hk).2
  have hlen : (upper :: h.nodes.toList).length ≤ h.nodes.size + 1 := Nat.le_refl _
  have hsteps : Relation.ReflTransGen (Next h.below) upper lower := by
    simp only [isSubtype, Bool.or_eq_true, Bool.and_eq_true, decide_eq_true_eq] at hs
    rcases hs with rfl | ⟨-, hl⟩
    · exact .refl
    · exact (mem_reachableFrom hU List.mem_cons_self hlen).1 hl
  refine (mem_reachableFrom (fun c hc d hd => hU c hc d (below_of_directly hd))
    List.mem_cons_self hlen).2 ?_
  exact Relation.ReflTransGen.mono (fun c d hd => directly_of_below hc hw hd) _ _ hsteps

end Hierarchy

namespace Cha

variable {h : Hierarchy}

theorem mem_virtualTargets {r : MethodRef} {m : Method} : m ∈ virtualTargets h r ↔
    ∃ c ∈ reachableFrom h.directly (h.nodes.size + 1) r.owner,
      h.isInterface c = false ∧ h.dispatch c r.signature = some m := by
  simp only [virtualTargets, ← OrderedSet.mem_iff, OrderedSet.mem_ofList, List.mem_filterMap,
    List.mem_filter, Bool.not_eq_true', and_assoc]
  rfl

theorem declares_of_targets {s : CallSite} {ms : List Method} (ht : targets h s = .ok ms) :
    ms.Nodup ∧ ∀ m ∈ ms, h.Declares m := by
  unfold targets at ht
  dsimp only at ht
  split at ht
  · split at ht
    · cases ht
    · cases ht
    · rename_i m hm
      obtain rfl := Except.ok.inj ht
      refine ⟨List.nodup_singleton m, fun m' hm' => ?_⟩
      rw [List.mem_singleton.1 hm']
      exact Hierarchy.declares_of_resolve hm
  · split at ht
    · cases ht
    · rename_i m hm
      obtain rfl := Except.ok.inj ht
      refine ⟨List.nodup_singleton m, fun m' hm' => ?_⟩
      rw [List.mem_singleton.1 hm']
      exact Hierarchy.declares_of_dispatch hm
  all_goals
    obtain rfl := Except.ok.inj ht
    refine ⟨OrderedSet.nodup _, fun m hm => ?_⟩
    obtain ⟨c, -, -, hd⟩ := mem_virtualTargets.1 hm
    exact Hierarchy.declares_of_dispatch hd

/-! ## Processing methods -/

namespace State

/-- The method is reachable or waits to be processed. -/
def Known (st : State) (m : Method) : Prop := m ∈ st.graph.reachable ∨ m ∈ st.queue

/-- The targets of a call have their edges and are known. -/
def Called (h : Hierarchy) (st : State) (s : CallSite) : Prop :=
  ∃ ms, targets h s = .ok ms ∧ ∀ m ∈ ms, ⟨s.call.kind, s, m⟩ ∈ st.graph.edges ∧ st.Known m

end State

/-- Calls were added: edges and waiting methods came, and nothing else changed. -/
structure Adds (st st' : State) : Prop where
  edges : ∀ e ∈ st.graph.edges, e ∈ st'.graph.edges
  entries : st'.graph.entries = st.graph.entries
  reachable : st'.graph.reachable = st.graph.reachable
  queue : ∀ m ∈ st.queue, m ∈ st'.queue
  grouped : st.graph.Grouped → st'.graph.Grouped

variable {st st' : State}

theorem Adds.refl (st : State) : Adds st st :=
  ⟨fun _ he => he, rfl, rfl, fun _ hm => hm, fun hg => hg⟩

theorem Adds.trans {st'' : State} (ha : Adds st st') (ha' : Adds st' st'') : Adds st st'' :=
  ⟨fun e he => ha'.edges e (ha.edges e he), ha'.entries.trans ha.entries,
    ha'.reachable.trans ha.reachable, fun m hm => ha'.queue m (ha.queue m hm),
    fun hg => ha'.grouped (ha.grouped hg)⟩

theorem Adds.known (ha : Adds st st') {m : Method} (hm : st.Known m) : st'.Known m := by
  rcases hm with hm | hm
  · left
    rwa [ha.reachable]
  · exact .inr (ha.queue m hm)

theorem Adds.called (ha : Adds st st') {s : CallSite} (hs : st.Called h s) : st'.Called h s := by
  obtain ⟨ms, ht, hms⟩ := hs
  exact ⟨ms, ht, fun m hm => ⟨ha.edges _ (hms m hm).1, ha.known (hms m hm).2⟩⟩

theorem addCall_spec (s : CallSite) (m : Method) (st : State) :
    Adds st (addCall s m st) ∧ ⟨s.call.kind, s, m⟩ ∈ (addCall s m st).graph.edges ∧
      (addCall s m st).Known m ∧ (addCall s m st).queue.length ≤ st.queue.length + 1 := by
  have hentries : (st.graph.addEdge ⟨s.call.kind, s, m⟩).entries = st.graph.entries := by
    unfold CallGraph.addEdge
    split <;> rfl
  have hreach : (st.graph.addEdge ⟨s.call.kind, s, m⟩).reachable = st.graph.reachable :=
    CallGraph.reachable_addEdge _ _
  unfold addCall
  dsimp only
  split
  · rename_i hr
    refine ⟨⟨fun e he => CallGraph.mem_edges_addEdge.2 (.inl he), hentries, hreach,
      fun _ hm => hm, fun hg => hg.addEdge _⟩, CallGraph.mem_edges_addEdge.2 (.inr rfl), ?_,
      Nat.le_succ _⟩
    exact .inl (of_decide_eq_true hr)
  · refine ⟨⟨fun e he => CallGraph.mem_edges_addEdge.2 (.inl he), hentries, hreach,
      fun _ hm => List.mem_append_left _ hm, fun hg => hg.addEdge _⟩,
      CallGraph.mem_edges_addEdge.2 (.inr rfl), ?_, ?_⟩
    · exact .inr (List.mem_append_right _ (List.mem_singleton.2 rfl))
    · simp

theorem foldl_addCall_spec (s : CallSite) (ms : List Method) (st : State) :
    Adds st (ms.foldl (fun st m => addCall s m st) st) ∧
    (∀ m ∈ ms, ⟨s.call.kind, s, m⟩ ∈ (ms.foldl (fun st m => addCall s m st) st).graph.edges ∧
      (ms.foldl (fun st m => addCall s m st) st).Known m) ∧
    (ms.foldl (fun st m => addCall s m st) st).queue.length ≤ st.queue.length + ms.length := by
  induction ms generalizing st with
  | nil => exact ⟨.refl st, fun m hm => absurd hm List.not_mem_nil, Nat.le_refl _⟩
  | cons m ms ih =>
    obtain ⟨ha, he, hk, hl⟩ := addCall_spec s m st
    obtain ⟨ha', hms, hl'⟩ := ih (addCall s m st)
    refine ⟨ha.trans ha', fun m' hm' => ?_, ?_⟩
    · rcases List.mem_cons.1 hm' with rfl | hm'
      · exact ⟨ha'.edges _ he, ha'.known hk⟩
      · exact hms m' hm'
    · simp only [List.foldl_cons, List.length_cons]
      omega

/-- Adding the calls of a method lets at most so many methods wait as there are for each call. -/
theorem addCalls_spec (hn : h.Numbered) {sites : List CallSite}
    (ha : addCalls h sites st = .ok st') :
    Adds st st' ∧ (∀ s ∈ sites, st'.Called h s) ∧
      st'.queue.length ≤ st.queue.length + sites.length * h.methodCount := by
  induction sites generalizing st with
  | nil =>
    obtain rfl := Except.ok.inj ha
    exact ⟨.refl st, fun s hs => absurd hs List.not_mem_nil, by simp⟩
  | cons s sites ih =>
    simp only [addCalls] at ha
    cases ht : targets h s with
    | error e =>
      rw [ht] at ha
      cases ha
    | ok ms =>
      rw [ht] at ha
      obtain ⟨hadds, hms, hlen⟩ := foldl_addCall_spec s ms st
      obtain ⟨hadds', hsites, hlen'⟩ := ih ha
      obtain ⟨hnd, hd⟩ := declares_of_targets ht
      have hcount := hn.length_le hnd hd
      refine ⟨hadds.trans hadds', fun s' hs' => ?_, ?_⟩
      · rcases List.mem_cons.1 hs' with rfl | hs'
        · exact hadds'.called ⟨ms, ht, hms⟩
        · exact hsites s' hs'
      · rw [List.length_cons, Nat.succ_mul]
        omega

/-! ## A whole run -/

/-- The entries and the calls of the methods reached so far are taken care of. -/
structure Covered (p : Program) (E : List Method) (st : State) : Prop where
  entries : ∀ m, m ∈ st.graph.entries ↔ m ∈ E
  known : ∀ m ∈ E, st.Known m
  called : ∀ m ∈ st.graph.reachable, ∀ s ∈ p.callSites m, st.Called p.hierarchy s
  grouped : st.graph.Grouped

/-- The numbers of calls in the bodies that were not reached yet. -/
def unreached (p : Program) (st : State) : List Nat :=
  (p.bodies.entries.filter fun e => decide (e.1 ∉ st.graph.reachable)).map
    fun e => e.2.callSites.length

/-- A bound on the rounds that are left. -/
def load (p : Program) (st : State) : Nat :=
  st.queue.length + (unreached p st).sum * p.hierarchy.methodCount

section Sums
variable {ι : Type} {w : ι → Nat} {P Q : ι → Bool} {l : List ι}

theorem sum_filter_le (hQP : ∀ j, Q j = true → P j = true) :
    ((l.filter Q).map w).sum ≤ ((l.filter P).map w).sum := by
  induction l with
  | nil => exact Nat.le_refl _
  | cons j l ih =>
    cases hj : Q j with
    | true => simp [hj, hQP j hj, ih]
    | false => cases hj' : P j <;> simp [hj, hj'] <;> omega

/-- A sum over fewer items, of which one is missing. -/
theorem sum_filter_add_le {i : ι} (hi : i ∈ l) (hP : P i = true) (hQ : Q i = false)
    (hQP : ∀ j, Q j = true → P j = true) :
    ((l.filter Q).map w).sum + w i ≤ ((l.filter P).map w).sum := by
  induction l with
  | nil => cases hi
  | cons j l ih =>
    rcases List.mem_cons.1 hi with rfl | hi
    · have hrest := sum_filter_le (l := l) (w := w) hQP
      simp only [List.filter_cons, hP, hQ, if_true, Bool.false_eq_true, if_false, List.map_cons,
        List.sum_cons]
      omega
    · have hrest := ih hi
      cases hj : Q j with
      | true =>
        simp only [List.filter_cons, hj, hQP j hj, if_true, List.map_cons, List.sum_cons]
        omega
      | false =>
        cases hj' : P j <;>
          simp only [List.filter_cons, hj, hj', if_true, Bool.false_eq_true, if_false,
            List.map_cons, List.sum_cons] <;> omega

end Sums

variable {p : Program} {E : List Method}

/-- Reaching a method takes its calls out of those that are left. -/
theorem unreached_addReachable {m : Method} (hm : m ∉ st.graph.reachable) (queue : List Method) :
    (unreached p ⟨st.graph.addReachable m, queue⟩).sum + (p.callSites m).length ≤
      (unreached p st).sum := by
  have hsub : ∀ e : Method × Body, decide (e.1 ∉ (st.graph.addReachable m).reachable) = true →
      decide (e.1 ∉ st.graph.reachable) = true := by
    intro e he
    simp only [decide_eq_true_eq, CallGraph.mem_addReachable, not_or] at he ⊢
    exact he.1
  cases hb : p.body? m with
  | none =>
    have hle : (unreached p ⟨st.graph.addReachable m, queue⟩).sum ≤ (unreached p st).sum :=
      sum_filter_le hsub
    simpa [Program.callSites, hb] using hle
  | some b =>
    have hin : (m, b) ∈ p.bodies.entries := OrderedMap.mem_entries_iff.2 hb
    have hsites : p.callSites m = b.callSites := by simp [Program.callSites, hb]
    rw [hsites]
    exact sum_filter_add_le hin (decide_eq_true hm)
      (decide_eq_false fun hno => hno (CallGraph.mem_addReachable.2 (.inr rfl))) hsub

/-- Processing a waiting method keeps what is taken care of, and leaves fewer rounds. -/
theorem process_spec (hn : p.hierarchy.Numbered) {m : Method} {queue : List Method}
    (hq : st.queue = m :: queue) (hc : Covered p E st)
    (hp : process p m { st with queue := queue } = .ok st') :
    Covered p E st' ∧ load p st' < load p st := by
  -- once the method is reachable, what was known is known without it in the queue
  have known : ∀ st₁ : State, m ∈ st₁.graph.reachable →
      (∀ m', m' ∈ st.graph.reachable → m' ∈ st₁.graph.reachable) →
      (∀ m' ∈ queue, m' ∈ st₁.queue) → ∀ m', st.Known m' → st₁.Known m' := by
    rintro st₁ hm hr hqueue m' (hk | hk)
    · exact .inl (hr m' hk)
    · rw [hq] at hk
      rcases List.mem_cons.1 hk with rfl | hk
      · exact .inl hm
      · exact .inr (hqueue m' hk)
  unfold process at hp
  split at hp
  · rename_i hr
    obtain rfl := Except.ok.inj hp
    have hr : m ∈ st.graph.reachable := of_decide_eq_true hr
    have hk := known { st with queue := queue } hr (fun _ h => h) fun _ h => h
    refine ⟨⟨hc.entries, fun m' hm' => hk m' (hc.known m' hm'), fun m' hm' s hs => ?_,
      hc.grouped⟩, ?_⟩
    · obtain ⟨ms, ht, hms⟩ := hc.called m' hm' s hs
      exact ⟨ms, ht, fun t ht => ⟨(hms t ht).1, hk t (hms t ht).2⟩⟩
    · simp only [load, unreached, hq, List.length_cons]
      omega
  · rename_i hr
    have hr : m ∉ st.graph.reachable := fun hin => hr (decide_eq_true hin)
    obtain ⟨ha, hcalled, hlen⟩ := addCalls_spec hn hp
    have hreach : ∀ m', m' ∈ st'.graph.reachable ↔ m' ∈ st.graph.reachable ∨ m' = m := by
      intro m'
      rw [ha.reachable]
      exact CallGraph.mem_addReachable
    have hk := known st' ((hreach m).2 (.inr rfl)) (fun m' h => (hreach m').2 (.inl h)) ha.queue
    have hgraph : ∀ e ∈ st.graph.edges, e ∈ st'.graph.edges := fun e he => ha.edges e he
    refine ⟨⟨fun m' => ?_, fun m' hm' => hk m' (hc.known m' hm'), fun m' hm' s hs => ?_,
      ha.grouped hc.grouped⟩, ?_⟩
    · rw [ha.entries]
      exact hc.entries m'
    · rcases (hreach m').1 hm' with hm' | rfl
      · obtain ⟨ms, ht, hms⟩ := hc.called m' hm' s hs
        exact ⟨ms, ht, fun t ht => ⟨hgraph _ (hms t ht).1, hk t (hms t ht).2⟩⟩
      · exact hcalled s hs
    · have hun := unreached_addReachable (p := p) hr queue
      have hsame : unreached p st' = unreached p ⟨st.graph.addReachable m, queue⟩ := by
        simp only [unreached, ha.reachable]
      have hmul := Nat.mul_le_mul_right p.hierarchy.methodCount hun
      rw [Nat.add_mul] at hmul
      simp only [load, hsame, hq, List.length_cons] at hlen ⊢
      omega

/-- How the processing of waiting methods ends, however many rounds it takes. -/
inductive Ends (p : Program) : State → Except AnalysisError PlainCallGraph → Prop
  | done {st : State} (empty : st.queue = []) : Ends p st (.ok st.graph)
  | fault {st : State} {m : Method} {queue : List Method} {e : AnalysisError}
      (waits : st.queue = m :: queue) (fails : process p m { st with queue := queue } = .error e) :
      Ends p st (.error e)
  | next {st st' : State} {m : Method} {queue : List Method}
      {r : Except AnalysisError PlainCallGraph} (waits : st.queue = m :: queue)
      (goes : process p m { st with queue := queue } = .ok st') (ends : Ends p st' r) : Ends p st r

/-- With rounds enough for what is left, a run comes to its end. -/
theorem run_ends (hn : p.hierarchy.Numbered) {n : Nat} (hc : Covered p E st) (hl : load p st ≤ n) :
    Ends p st (run p n st) := by
  induction n generalizing st with
  | zero =>
    have hq : st.queue = [] := List.length_eq_zero_iff.1 (by unfold load at hl; omega)
    exact .done hq
  | succ n ih =>
    rw [run]
    cases hq : st.queue with
    | nil => exact .done hq
    | cons m queue =>
      dsimp only
      cases hp : process p m { st with queue := queue } with
      | error e => exact .fault hq hp
      | ok st₁ =>
        obtain ⟨hc₁, hlt⟩ := process_spec hn hq hc hp
        exact .next hq hp (ih hc₁ (by omega))

/-- What every processing of a waiting method keeps holds at the end. -/
theorem Ends.invariant {P : State → Prop} {g : PlainCallGraph} (h : Ends p st (.ok g))
    (hkeep : ∀ {st st' m queue}, st.queue = m :: queue →
      process p m { st with queue := queue } = .ok st' → P st → P st') (hP : P st) :
    ∃ st', P st' ∧ st'.queue = [] ∧ st'.graph = g := by
  generalize hr : (.ok g : Except AnalysisError PlainCallGraph) = r at h
  induction h with
  | done hq => exact ⟨_, hP, hq, (Except.ok.inj hr).symm⟩
  | fault => cases hr
  | next hq hp _ ih => exact ih (hkeep hq hp hP) hr

/-! ### The start -/

theorem foldl_noteEntry (l : List Method) (g : PlainCallGraph) :
    (l.foldl CallGraph.noteEntry g).entries = g.entries.insertAll l ∧
    (l.foldl CallGraph.noteEntry g).bySite = g.bySite ∧
    (l.foldl CallGraph.noteEntry g).reachable = g.reachable := by
  induction l generalizing g with
  | nil => exact ⟨rfl, rfl, rfl⟩
  | cons m l ih => exact ih (g.noteEntry m)

theorem not_reachable_start (m : Method) :
    m ∉ (E.foldl CallGraph.noteEntry .empty : PlainCallGraph).reachable := by
  intro hm
  rw [(foldl_noteEntry E _).2.2] at hm
  exact OrderedSet.not_mem_empty m hm

theorem covered_start : Covered p E ⟨E.foldl CallGraph.noteEntry .empty, E⟩ := by
  obtain ⟨hentries, hsite, -⟩ := foldl_noteEntry E .empty
  refine ⟨fun m => ?_, fun m hm => .inr hm, fun m hm => absurd hm (not_reachable_start m), ?_⟩
  · dsimp only
    rw [hentries]
    exact OrderedSet.mem_ofList
  · intro s es hs
    dsimp only at hs
    rw [hsite] at hs
    exact CallGraph.grouped_empty s es hs

/-- The rounds that are granted are enough. -/
theorem load_start : load p ⟨E.foldl CallGraph.noteEntry .empty, E⟩ ≤ rounds p E := by
  have hall : unreached p ⟨E.foldl CallGraph.noteEntry .empty, E⟩ =
      p.bodies.entries.map fun e => e.2.callSites.length := by
    unfold unreached
    rw [List.filter_eq_self.2 fun e _ => decide_eq_true (not_reachable_start e.1)]
  have hsum : (p.bodies.entries.map fun e => e.2.callSites.length).sum =
      (p.bodies.values.flatMap Body.callSites).length := by
    rw [List.length_flatMap, OrderedMap.values, List.map_map]
    rfl
  rw [load, hall, hsum]
  exact Nat.le_succ _

/-! ### What is built -/

/-- A call graph that was built has the given entries and reaches them. With a method it reaches
all targets of its calls, by edges. -/
structure Complete (p : Program) (E : List Method) (g : PlainCallGraph) : Prop where
  entries : ∀ m, m ∈ g.entries ↔ m ∈ E
  entry : ∀ m ∈ E, m ∈ g.reachable
  called : ∀ m ∈ g.reachable, ∀ s ∈ p.callSites m, ∃ ms, targets p.hierarchy s = .ok ms ∧
    ∀ t ∈ ms, ⟨s.call.kind, s, t⟩ ∈ g.edges ∧ t ∈ g.reachable
  grouped : g.Grouped

theorem build_ends (hn : p.hierarchy.Numbered) (E : List Method) :
    Ends p ⟨E.foldl CallGraph.noteEntry .empty, E⟩ (build p E) :=
  run_ends hn covered_start load_start

theorem build_complete (hn : p.hierarchy.Numbered) {g : PlainCallGraph}
    (hb : build p E = .ok g) : Complete p E g := by
  have hends := build_ends hn E
  rw [hb] at hends
  obtain ⟨st, hc, hq, rfl⟩ := hends.invariant
    (fun hq hp hc => (process_spec hn hq hc hp).1) covered_start
  -- nothing waits, so what is known is reachable
  have hknown : ∀ m, st.Known m → m ∈ st.graph.reachable := by
    rintro m (hm | hm)
    · exact hm
    · rw [hq] at hm
      exact absurd hm List.not_mem_nil
  refine ⟨hc.entries, fun m hm => hknown m (hc.known m hm), fun m hm s hs => ?_, hc.grouped⟩
  obtain ⟨ms, ht, hms⟩ := hc.called m hm s hs
  exact ⟨ms, ht, fun t ht => ⟨(hms t ht).1, hknown t (hms t ht).2⟩⟩

end Cha

end ObjectFlow
