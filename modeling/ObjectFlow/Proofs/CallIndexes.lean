import ObjectFlow.Proofs.MergedContexts
import ObjectFlow.Proofs.Refinement
import ObjectFlow.Report.Graphs
/-!
# What a call graph answers

A call graph keeps its edges by call site and by callee and counts them. Whatever was added to
it and in whatever order, all that can be asked of it are questions about the edges that were
added, so no two answers disagree. This holds of graphs over methods and of graphs over methods
in contexts.
-/

namespace ObjectFlow

namespace CallGraph

/-! ## Additions -/

/-- What can be added to a call graph. -/
inductive Addition (μ σ : Type) where
  | entry (m : μ)
  | reachable (m : μ)
  | edge (e : CallEdge μ σ)
deriving DecidableEq

variable {μ σ : Type} [DecidableEq μ] [DecidableEq σ] {g : CallGraph μ σ} {e : CallEdge μ σ}
  {as : List (Addition μ σ)} {m : μ} {s : σ}

def add (g : CallGraph μ σ) : Addition μ σ → CallGraph μ σ
  | .entry m => g.addEntry m
  | .reachable m => g.addReachable m
  | .edge e => g.addEdge e

/-- What an addition answers: whether it brings something that the graph did not have. For an
entry there is no answer. -/
def answer? (g : CallGraph μ σ) : Addition μ σ → Option Bool
  | .entry _ => none
  | .reachable m => some !g.isReachable m
  | .edge e => some !g.hasEdge e

/-- The graph after some additions. -/
def ofAdditions (as : List (Addition μ σ)) : CallGraph μ σ := as.foldl add .empty

theorem ofAdditions_concat (as : List (Addition μ σ)) (a : Addition μ σ) :
    ofAdditions (as ++ [a]) = (ofAdditions as).add a := List.foldl_concat ..

/-! ## Both indexes -/

/-- A graph that lists its edges by call site and by callee and knows their number. -/
structure Indexed (g : CallGraph μ σ) : Prop where
  grouped : g.Grouped
  counted : g.Counted
  mem_edgesInto : ∀ m e, e ∈ g.edgesInto m ↔ e ∈ g.edges ∧ e.callee = m

omit [DecidableEq μ] in
theorem not_mem_edges_empty (e : CallEdge μ σ) : e ∉ (empty : CallGraph μ σ).edges := by
  simp [mem_edges, empty]

theorem indexed_empty : (empty : CallGraph μ σ).Indexed := by
  refine ⟨grouped_empty, rfl, fun m e => ?_⟩
  have hinto : e ∉ (empty : CallGraph μ σ).edgesInto m := by
    simp [edgesInto, empty, OrderedMap.getD]
  exact iff_of_false hinto fun h => not_mem_edges_empty e h.1

theorem addEdge_of_mem (hg : g.Grouped) (he : e ∈ g.edges) : g.addEdge e = g :=
  if_pos ((hasEdge_iff hg).2 he)

theorem edgesInto_addEdge (hg : g.Grouped) (he : e ∉ g.edges) (m : μ) :
    (g.addEdge e).edgesInto m =
      if m = e.callee then (g.edgesInto m).insert e else g.edgesInto m := by
  rw [addEdge, if_neg fun h => he ((hasEdge_iff hg).1 h)]
  simp only [edgesInto, OrderedMap.getD_insert]
  split
  · rename_i hm
    rw [hm]
  · rfl

theorem Indexed.addEdge (h : g.Indexed) (e : CallEdge μ σ) : (g.addEdge e).Indexed := by
  refine ⟨h.grouped.addEdge e, h.counted.addEdge h.grouped e, fun m e' => ?_⟩
  by_cases he : e ∈ g.edges
  · rw [addEdge_of_mem h.grouped he]
    exact h.mem_edgesInto m e'
  · rw [edgesInto_addEdge h.grouped he, mem_edges_addEdge]
    by_cases hm : m = e.callee
    · rw [if_pos hm, OrderedSet.mem_insert, h.mem_edgesInto]
      constructor
      · rintro (⟨he', hm'⟩ | rfl)
        · exact ⟨.inl he', hm'⟩
        · exact ⟨.inr rfl, hm.symm⟩
      · rintro ⟨he' | rfl, hm'⟩
        · exact .inl ⟨he', hm'⟩
        · exact .inr rfl
    · rw [if_neg hm, h.mem_edgesInto]
      refine and_congr_left fun hm' => (or_iff_left ?_).symm
      rintro rfl
      exact hm hm'.symm

theorem Indexed.add (h : g.Indexed) (a : Addition μ σ) : (g.add a).Indexed := by
  cases a with
  | entry m => exact ⟨h.grouped, h.counted, h.mem_edgesInto⟩
  | reachable m => exact ⟨h.grouped, h.counted, h.mem_edgesInto⟩
  | edge e => exact h.addEdge e

theorem indexed_ofAdditions (as : List (Addition μ σ)) : (ofAdditions as).Indexed := by
  induction as using List.reverseRecOn with
  | nil => exact indexed_empty
  | append_singleton as a ih =>
    rw [ofAdditions_concat]
    exact ih.add a

/-- The edges of a graph are those that were added. -/
theorem mem_edges_ofAdditions : e ∈ (ofAdditions as).edges ↔ .edge e ∈ as := by
  induction as using List.reverseRecOn with
  | nil => exact iff_of_false (not_mem_edges_empty e) List.not_mem_nil
  | append_singleton as a ih =>
    rw [ofAdditions_concat, List.mem_append, List.mem_singleton, ← ih]
    cases a with
    | entry m => exact (or_iff_left nofun).symm
    | reachable m => exact (or_iff_left nofun).symm
    | edge e' =>
      rw [CallGraph.add, mem_edges_addEdge, Addition.edge.injEq]

/-! ## Questions -/

theorem Indexed.mem_callersOf (h : g.Indexed) :
    s ∈ g.callersOf m ↔ ∃ e ∈ g.edges, e.site = s ∧ e.callee = m := by
  have hin : s ∈ g.callersOf m ↔ s ∈ (g.edgesInto m).toList.map CallEdge.site :=
    OrderedSet.mem_ofList
  rw [hin, List.mem_map]
  constructor
  · rintro ⟨e, he, rfl⟩
    obtain ⟨hedge, hm⟩ := (h.mem_edgesInto m e).1 he
    exact ⟨e, hedge, rfl, hm⟩
  · rintro ⟨e, he, rfl, hm⟩
    exact ⟨e, (h.mem_edgesInto m e).2 ⟨he, hm⟩, rfl⟩

theorem mem_calleesOfSites (hg : g.Grouped) {sites : List σ} :
    m ∈ g.calleesOfSites sites ↔ ∃ e ∈ g.edges, e.site ∈ sites ∧ e.callee = m := by
  have hin : m ∈ g.calleesOfSites sites ↔ m ∈ sites.flatMap g.calleesOf := OrderedSet.mem_ofList
  rw [hin, List.mem_flatMap]
  constructor
  · rintro ⟨s, hs, hm⟩
    obtain ⟨e, he, rfl, hcallee⟩ := (mem_calleesOf hg).1 hm
    exact ⟨e, he, hs, hcallee⟩
  · rintro ⟨e, he, hs, hm⟩
    exact ⟨e.site, hs, (mem_calleesOf hg).2 ⟨e, he, rfl, hm⟩⟩

theorem nodup_edges_toMethodGraph (hg : g.Grouped) (container : σ → μ) :
    (g.toMethodGraph container).edges.Nodup :=
  hg.nodup_edges.map fun _ _ h => (Prod.mk.inj h).2

/-- What a graph answers about its edges, in terms of the edges that were added to it and of the
calls that stand in each method. -/
structure Answers (v : Report.CallNaming μ σ) (callIn : σ → μ → Prop)
    (added : CallEdge μ σ → Prop) (g : CallGraph μ σ) : Prop where
  edgesFrom : ∀ s e, e ∈ g.edgesFrom s ↔ added e ∧ e.site = s
  edgesInto : ∀ m e, e ∈ g.edgesInto m ↔ added e ∧ e.callee = m
  edges : ∀ e, e ∈ g.edges ↔ added e
  edges_nodup : g.edges.Nodup
  edgeCount : g.edgeCount = g.edges.length
  /-- An edge is new the first time it is added. -/
  answer_edge : ∀ e, g.answer? (.edge e) = some true ↔ ¬ added e
  /-- Adding it another time changes nothing. -/
  add_edge : ∀ e, added e → g.add (.edge e) = g
  calleesOf : ∀ s m, m ∈ g.calleesOf s ↔ ∃ e, added e ∧ e.site = s ∧ e.callee = m
  calleesOf_nodup : ∀ s, (g.calleesOf s).Nodup
  callersOf : ∀ m s, s ∈ g.callersOf m ↔ ∃ e, added e ∧ e.site = s ∧ e.callee = m
  callersOf_nodup : ∀ m, (g.callersOf m).Nodup
  calleesOfSites : ∀ m m', m' ∈ g.calleesOfSites (v.sitesIn m) ↔
    ∃ e, added e ∧ callIn e.site m ∧ e.callee = m'
  calleesOfSites_nodup : ∀ m, (g.calleesOfSites (v.sitesIn m)).Nodup
  methodGraph : ∀ m e, (m, e) ∈ (g.toMethodGraph v.container).edges ↔
    added e ∧ m = v.container e.site
  methodGraph_nodup : (g.toMethodGraph v.container).edges.Nodup

theorem answers_ofAdditions {v : Report.CallNaming μ σ} {callIn : σ → μ → Prop}
    (hv : ∀ m s, s ∈ v.sitesIn m ↔ callIn s m) (as : List (Addition μ σ)) :
    Answers v callIn (fun e => .edge e ∈ as) (ofAdditions as) := by
  have h := indexed_ofAdditions as
  exact {
    edgesFrom s e := by rw [mem_edgesFrom h.grouped, mem_edges_ofAdditions]
    edgesInto m e := by rw [h.mem_edgesInto, mem_edges_ofAdditions]
    edges e := mem_edges_ofAdditions
    edges_nodup := h.grouped.nodup_edges
    edgeCount := h.counted
    answer_edge e := by
      rw [answer?, Option.some.injEq, Bool.not_eq_true', Bool.eq_false_iff, Ne,
        hasEdge_iff h.grouped, mem_edges_ofAdditions]
    add_edge e he := addEdge_of_mem h.grouped (mem_edges_ofAdditions.2 he)
    calleesOf s m := by simp only [mem_calleesOf h.grouped, mem_edges_ofAdditions]
    calleesOf_nodup s := OrderedSet.nodup _
    callersOf m s := by simp only [h.mem_callersOf, mem_edges_ofAdditions]
    callersOf_nodup m := OrderedSet.nodup _
    calleesOfSites m m' := by
      simp only [mem_calleesOfSites h.grouped, mem_edges_ofAdditions, hv]
    calleesOfSites_nodup m := OrderedSet.nodup _
    methodGraph m e := by
      simp only [toMethodGraph, List.mem_map, Prod.mk.injEq, mem_edges_ofAdditions]
      constructor
      · rintro ⟨e', he', rfl, rfl⟩
        exact ⟨he', rfl⟩
      · rintro ⟨he, rfl⟩
        exact ⟨e, he, rfl, rfl⟩
    methodGraph_nodup := nodup_edges_toMethodGraph h.grouped _ }

/-- Edges that differ only in their kind have one callee. -/
example : (ofAdditions [.edge ⟨.static, 0, 1⟩, .edge ⟨.virtual, 0, 1⟩, .edge ⟨.static, 0, 1⟩] :
    CallGraph Nat Nat).edgeCount = 2 ∧
  (ofAdditions [.edge ⟨.static, 0, 1⟩, .edge ⟨.virtual, 0, 1⟩] : CallGraph Nat Nat).calleesOf 0 =
    [1] := by decide

end CallGraph

/-! ## Graphs over methods, and over methods in contexts -/

open PointsTo

/-- The call is a statement in the body of the method. -/
def Program.CallIn (p : Program) (s : CallSite) (m : Method) : Prop :=
  ∃ b, p.body? m = some b ∧ s.stmt ∈ b.stmts

/-- The call is a statement in the body of the method, and they have one context. -/
def Program.CallInContext (p : Program) (s : CtxCallSite) (m : CtxMethod) : Prop :=
  s.context = m.context ∧ p.CallIn s.site m.method

theorem Program.mem_sitesIn_contextNaming {p : Program} {m : CtxMethod} {s : CtxCallSite} :
    s ∈ (Report.contextNaming p).sitesIn m ↔ p.CallInContext s m := by
  simp only [Report.contextNaming, List.mem_map, mem_callSites]
  constructor
  · rintro ⟨site, hsite, rfl⟩
    exact ⟨rfl, hsite⟩
  · rintro ⟨hcontext, hsite⟩
    exact ⟨s.site, hsite, by rw [← hcontext]⟩

/-- Whatever was added to a call graph, what it answers is about the edges that were added, for
plain graphs and for those in contexts. -/
theorem callGraph_answers (p : Program) :
    (∀ as, (CallGraph.ofAdditions as).Answers (Report.plainNaming p) p.CallIn
      fun e => .edge e ∈ as) ∧
    ∀ as, (CallGraph.ofAdditions as).Answers (Report.contextNaming p) p.CallInContext
      fun e => .edge e ∈ as :=
  ⟨fun as => CallGraph.answers_ofAdditions (fun _ _ => Program.mem_callSites) as,
    fun as => CallGraph.answers_ofAdditions (fun _ _ => Program.mem_sitesIn_contextNaming) as⟩

end ObjectFlow
