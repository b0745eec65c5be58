import ObjectFlow.Proofs.CallStrings
/-!
# What merging contexts gives

What a returned analysis answers without contexts is the image of what it found in
contexts. Methods and call edges that differ in their contexts alone become one and
are counted once, a callee stays reachable, and the sites of a variable, a field or an
array are those of its objects, taken over all contexts. The caller of an edge is
reachable too, unless its call is on a variable of another method.
-/

namespace ObjectFlow

/-! ## Counting edges -/

namespace CallGraph

variable {μ σ : Type} [DecidableEq μ] [DecidableEq σ] {g : CallGraph μ σ}

/-- The number of edges that a graph keeps is the length of its list of edges. -/
def Counted (g : CallGraph μ σ) : Prop := g.edgeCount = g.edges.length

theorem Counted.addEdge (h : g.Counted) (hg : g.Grouped) (e : CallEdge μ σ) :
    (g.addEdge e).Counted := by
  by_cases he : g.hasEdge e
  · rwa [CallGraph.addEdge, if_pos he]
  · have hnew : e ∉ g.edges := fun hin => he ((hasEdge_iff hg).2 hin)
    -- both lists have the same members, each once
    have hperm : (g.addEdge e).edges.Perm (e :: g.edges) := by
      refine (List.perm_ext_iff_of_nodup (hg.addEdge e).nodup_edges
        (List.nodup_cons.2 ⟨hnew, hg.nodup_edges⟩)).2 fun e' => ?_
      rw [mem_edges_addEdge, List.mem_cons, or_comm]
    have hcount : (g.addEdge e).edgeCount = g.edgeCount + 1 := by
      rw [CallGraph.addEdge, if_neg he]
    rw [Counted, hcount, hperm.length_eq, List.length_cons, h]

end CallGraph

namespace PointsTo

namespace Findings

/-! ## The call graph -/

section Graph
variable {r : Findings}

theorem foldl_addEdge_counted (es : List CtxEdge) {g : PlainCallGraph} (hg : g.Grouped)
    (h : g.Counted) : (es.foldl (fun g e => g.addEdge (plainEdge e)) g).Counted := by
  induction es generalizing g with
  | nil => exact h
  | cons e es ih => exact ih (hg.addEdge _) (h.addEdge hg _)

theorem callGraph_entries_toList : r.callGraph.entries.toList =
    (r.calls.entries.toList.map CtxMethod.method).eraseDups := by
  rw [callGraph_eq, foldl_addEdge.1, OrderedSet.toList_ofList]

theorem callGraph_reachable_toList : r.callGraph.reachable.toList =
    ((r.calls.entries.toList ++ r.calls.reachable.toList).map CtxMethod.method).eraseDups := by
  rw [callGraph_eq, foldl_addEdge.2.1, OrderedSet.toList_ofList]

theorem callGraph_counted : r.callGraph.Counted := by
  rw [callGraph_eq]
  exact foldl_addEdge_counted _ (fun s es h => by cases h) rfl

end Graph

/-- A graph over methods that is the image of one over methods in contexts. -/
structure Merges (calls : CtxCallGraph) (g : PlainCallGraph) : Prop where
  entries : g.entries.toList = (calls.entries.toList.map CtxMethod.method).eraseDups
  /-- The entries come first. -/
  reachable : g.reachable.toList =
    ((calls.entries.toList ++ calls.reachable.toList).map CtxMethod.method).eraseDups
  mem_reachable : ∀ m, m ∈ g.reachable ↔ ∃ c, ⟨c, m⟩ ∈ calls.reachable
  mem_edges : ∀ e, e ∈ g.edges ↔ ∃ e' ∈ calls.edges, plainEdge e' = e
  distinct : g.edges.Nodup
  counted : g.edgeCount = g.edges.length
  callee : ∀ e ∈ g.edges, e.callee ∈ g.reachable

section Run
variable {p : Program} {setup : Setup} {st st' : State}

theorem callGraph_reachable_iff (h : Attained p setup st) (m : Method) :
    m ∈ (ofState st).callGraph.reachable ↔ ∃ c, ⟨c, m⟩ ∈ st.calls.reachable := by
  rw [mem_callGraph_reachable]
  exact or_iff_right_of_imp fun ⟨c, hm⟩ => ⟨c, (h.rooted_true.entry hm).1⟩

theorem callGraph_merges (h : Attained p setup st) : Merges st.calls (ofState st).callGraph where
  entries := callGraph_entries_toList
  reachable := callGraph_reachable_toList
  mem_reachable := callGraph_reachable_iff h
  mem_edges _ := mem_callGraph_edges
  distinct := callGraph_grouped.nodup_edges
  counted := callGraph_counted
  callee e he := by
    obtain ⟨e', he', rfl⟩ := mem_callGraph_edges.1 he
    exact (callGraph_reachable_iff h _).2 ⟨_, h.rooted_true.callee he'⟩

/-- Where no method uses a variable of another one, calls stand in reachable methods. -/
theorem caller_reachable (hp : p.Built) (hown : p.Scoped) (h : Attained p setup st)
    {e : CallEdge Method CallSite} (he : e ∈ (ofState st).callGraph.edges) :
    e.site.method ∈ (ofState st).callGraph.reachable := by
  obtain ⟨e', he', rfl⟩ := mem_callGraph_edges.1 he
  exact (callGraph_reachable_iff h _).2
    ⟨_, (h.reachable_iff hp hown).2 ((h.rooted hp hown).caller he')⟩

/-! ## Allocation sites -/

/-- Every object of a variable in a context has been numbered, so none is left out. -/
theorem mem_pointsToIn (h : Attained p setup st) {c : Ctx} {v : Var} {o : CtxObject} :
    o ∈ (ofState st).pointsToIn c v ↔ o ∈ st.objectsOf (varIn c v) := by
  have hmem : o ∈ (ofState st).pointsToIn c v ↔
      o ∈ st.elements.objects.keys ∧ o ∈ st.objectsOf (varIn c v) := by
    rw [pointsToIn, inOrder, List.mem_filter, decide_eq_true_eq]
    exact Iff.rfl
  rw [hmem]
  exact and_iff_right_of_imp fun ho => h.rooted_true.due (.inl ho)

/-- What a returned analysis reports without contexts is the image of what it reports in contexts:
for the call graph, and for the sites of variables, of fields and of elements. And in a program that
was built, where no method uses a variable of another one, all calls of the graph stand in reachable
methods. -/
theorem findings_merge_contexts (h : Attained p setup st) {fuel : Nat}
    (hr : analyze fuel p setup st = (.ok (), st')) :
    Merges st'.calls (ofState st').callGraph ∧
    (p.Built → p.Scoped → ∀ e ∈ (ofState st').callGraph.edges,
      e.site.method ∈ (ofState st').callGraph.reachable) ∧
    (∀ v x, x ∈ (ofState st').variableSites v ↔
      ∃ c, ∃ o ∈ (ofState st').pointsToIn c v, o.site = x) ∧
    (∀ a f x, x ∈ (ofState st').fieldSites a f ↔
      ∃ c, ∃ o ∈ (ofState st').objectsOf (.instanceField ⟨c, a⟩ f), o.site = x) ∧
    ∀ a x, x ∈ (ofState st').elementSites a ↔
      ∃ c, ∃ o ∈ (ofState st').objectsOf (.arrayIndex ⟨c, a⟩), o.site = x := by
  have h' : Attained p setup st' := h.analyze hr
  refine ⟨callGraph_merges h', fun hp hown _ he => caller_reachable hp hown h' he, fun v x => ?_,
    fun a f x => mem_fieldSites h'.recorded, fun a x => mem_elementSites h'.recorded⟩
  rw [mem_variableSites h'.recorded]
  simp only [mem_pointsToIn h']

end Run

end Findings

/-! ### A method in three contexts -/

namespace Descent

open Findings

/-- The method is reachable in three contexts and calls itself in each; merged, this is one method
with one call edge. -/
theorem findings_merge_contexts_descent : program.Built ∧ program.Scoped ∧
    analyze 20 program setup .empty = (.ok (), final) ∧
    final.calls.reachable.toList.map (·.context.length) = [0, 1, 2] ∧
    final.calls.edges.length = 3 ∧
    Merges final.calls (ofState final).callGraph ∧
    (ofState final).callGraph.edges = [⟨.static, site, main⟩] ∧
    main ∈ (ofState final).callGraph.reachable ∧
    ⟨⟨0, 1, main⟩, .object owner⟩ ∈ (ofState final).variableSites x := by
  have hscoped : program.Scoped := by decide
  have hanalyze : analyze 20 program setup .empty = (.ok (), final) := rfl
  obtain ⟨hmerges, hcaller, hvars, -, -⟩ := findings_merge_contexts .fresh hanalyze
  refine ⟨program_built, hscoped, hanalyze, rfl, rfl, hmerges, rfl, ?_, ?_⟩
  · exact hcaller program_built hscoped ⟨.static, site, main⟩ List.mem_cons_self
  · exact (hvars x _).2 ⟨[.callSite site], ⟨[.callSite site], ⟨⟨0, 1, main⟩, .object owner⟩⟩,
      by decide, rfl⟩

end Descent

namespace Borrowed

open Findings

/-- The call on the variable of the main method has an edge, but stands in a method that is not
reachable. -/
theorem caller_not_reachable : ¬ ∀ (p : Program) (setup : Setup) (fuel : Nat) (st : State),
    p.Built → analyze fuel p setup .empty = (.ok (), st) →
    ∀ e ∈ (ofState st).callGraph.edges, e.site.method ∈ (ofState st).callGraph.reachable := by
  intro h
  have hother : other ∈ (ofState final).callGraph.reachable :=
    h program setup 10 final program_built rfl ⟨.virtual, site, tool⟩ (by decide)
  exact absurd hother (by decide)

end Borrowed

end PointsTo

end ObjectFlow
