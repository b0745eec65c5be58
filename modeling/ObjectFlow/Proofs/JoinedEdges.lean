import ObjectFlow.Proofs.BodyShape
import ObjectFlow.Proofs.MergedContexts
/-!
# A joined graph edge by edge

The call graphs that are made of a program can all be joined. The nodes are those of
the reachable methods. A node that is no call keeps its edges; a call has one edge
past it, and for each callee one edge into it and one back, so that these stand in
pairs. Nothing else leads into a method or out of one.
-/

namespace ObjectFlow

/-! ## Listing by key -/

section Lists
variable {α β κ : Type} {l : List α} {a : α}

/-- If a test only holds of what one element of a list gives, the others can be left out. -/
theorem filter_flatMap_of_nodup {f : α → List β} {q : β → Bool} (hn : l.Nodup) (ha : a ∈ l)
    (h : ∀ a' ∈ l, a' ≠ a → ∀ b ∈ f a', q b = false) :
    (l.flatMap f).filter q = (f a).filter q := by
  obtain ⟨before, after, rfl⟩ := List.append_of_mem ha
  obtain ⟨-, hcons, hdisjoint⟩ := List.nodup_append.1 hn
  have hother : ∀ part ⊆ before ++ a :: after, a ∉ part → (part.flatMap f).filter q = [] := by
    intro part hsub hpart
    refine List.filter_eq_nil_iff.2 fun b hb => ?_
    obtain ⟨a', ha', hb⟩ := List.mem_flatMap.1 hb
    rw [h a' (hsub ha') (fun heq => hpart (heq ▸ ha')) b hb]
    exact Bool.false_ne_true
  have hbefore := hother before (List.subset_append_left _ _)
    fun hin => hdisjoint a hin a List.mem_cons_self rfl
  have hafter := hother after
    (List.subset_append_of_subset_right _ (List.subset_cons_self _ _)) (List.nodup_cons.1 hcons).1
  rw [List.flatMap_append, List.flatMap_cons, List.filter_append, List.filter_append, hbefore,
    hafter, List.nil_append, List.append_nil]

/-- Listing by key loses nothing and repeats nothing, if every key is asked for once. -/
theorem flatMap_filter_perm [DecidableEq κ] {ks : List κ} {key : α → κ} (hn : ks.Nodup)
    (h : ∀ a ∈ l, key a ∈ ks) :
    (ks.flatMap fun k => l.filter fun a => decide (key a = k)).Perm l := by
  induction ks generalizing l with
  | nil =>
    cases l with
    | nil => exact .refl _
    | cons a l => exact absurd (h a List.mem_cons_self) List.not_mem_nil
  | cons k ks ih =>
    obtain ⟨hk, hn⟩ := List.nodup_cons.1 hn
    have hrest : (ks.flatMap fun k' => l.filter fun a => decide (key a = k')) =
        ks.flatMap fun k' =>
          (l.filter fun a => !decide (key a = k)).filter fun a => decide (key a = k') := by
      refine List.flatMap_congr fun k' hk' => ?_
      rw [List.filter_filter]
      refine List.filter_congr fun a _ => ?_
      by_cases heq : key a = k'
      · simp [heq, ne_of_mem_of_not_mem hk' hk]
      · simp [heq]
    rw [List.flatMap_cons, hrest]
    refine (List.Perm.append_left _ (ih hn fun a ha => ?_)).trans (List.filter_append_perm _ l)
    obtain ⟨hin, hne⟩ := List.mem_filter.1 ha
    rcases List.mem_cons.1 (h a hin) with heq | hks
    · simp [heq] at hne
    · exact hks

end Lists

/-! ## Nodes and edges -/

namespace Icfg

variable {p : Program} {calls : PlainCallGraph} {g : Icfg} {m callee : Method} {n : Node}
  {s : CallSite} {e : Edge}

/-- An edge that comes back from a callee behind a call. -/
def Edge.returnsTo (s : CallSite) : Edge → Bool
  | .ret _ _ s' _ => decide (s' = s)
  | _ => false

/-- The nodes of the reachable methods, one method after the other. -/
def nodesOf (p : Program) (calls : PlainCallGraph) : List Node :=
  calls.reachable.toList.flatMap fun m => (Cfg.ofMethod p m).nodes

theorem mem_nodesOf : n ∈ nodesOf p calls ↔
    ∃ m ∈ calls.reachable, n ∈ (Cfg.ofMethod p m).nodes := List.mem_flatMap

section Built
variable (hp : p.Built)
include hp

theorem nodesOf_nodup : (nodesOf p calls).Nodup := by
  refine List.nodup_flatMap.2 ⟨fun m _ => Cfg.nodes_nodup hp m, ?_⟩
  refine calls.reachable.nodup.imp fun {m m'} hne n hn hn' => hne ?_
  rw [← Cfg.method_of_mem_nodes hp hn, Cfg.method_of_mem_nodes hp hn']

/-- The edges are those that the nodes bring, node by node. -/
theorem edges_eq (h : build p calls = .ok g) : g.edges =
    (nodesOf p calls).flatMap fun n => nodeEdges p calls (Cfg.ofMethod p n.method) n := by
  rw [(parts_of_build h).edges, nodesOf, List.flatMap_assoc]
  refine List.flatMap_congr fun m _ => List.flatMap_congr fun n hn => ?_
  rw [Cfg.method_of_mem_nodes hp hn]

theorem keys_nodes (h : build p calls = .ok g) : g.nodes.keys = nodesOf p calls := by
  have hkeys : (calls.reachable.toList.flatMap fun m =>
      (Cfg.ofMethod p m).nodes.map fun n => (n, m)).map Prod.fst = nodesOf p calls := by
    rw [List.map_flatMap, nodesOf]
    refine List.flatMap_congr fun m _ => ?_
    rw [List.map_map]
    exact List.map_id _
  rw [(parts_of_build h).nodes, ← hkeys]
  exact OrderedMap.keys_ofList (hkeys ▸ nodesOf_nodup hp)

/-- Each node belongs to the method whose graph it is from. -/
theorem get?_nodes (h : build p calls = .ok g) : g.nodes.get? n = some m ↔
    m ∈ calls.reachable ∧ n ∈ (Cfg.ofMethod p m).nodes := by
  have hin : ∀ {n m}, g.nodes.get? n = some m →
      m ∈ calls.reachable ∧ n ∈ (Cfg.ofMethod p m).nodes := by
    intro n m hget
    rw [(parts_of_build h).nodes] at hget
    obtain ⟨m', hm', hx⟩ := List.mem_flatMap.1 (OrderedMap.mem_of_get?_ofList hget)
    obtain ⟨k, hk, heq⟩ := List.mem_map.1 hx
    obtain ⟨rfl, rfl⟩ := Prod.mk.inj heq
    exact ⟨hm', hk⟩
  refine ⟨hin, fun ⟨hm, hn⟩ => ?_⟩
  obtain ⟨m', hget⟩ := OrderedMap.mem_keys_iff.1 (mem_nodes_of_build h hm hn)
  rw [hget, ← Cfg.method_of_mem_nodes hp hn, Cfg.method_of_mem_nodes hp (hin hget).2]

end Built

/-! ## The edges of one node -/

/-- Only the edges that come back from a callee start elsewhere than at the node that brings them. -/
theorem source_of_mem_nodeEdges {cfg : Cfg} (he : e ∈ nodeEdges p calls cfg n) :
    e.source = n ∨ ∃ callee t s vs, e = .ret callee t s vs := by
  rcases mem_nodeEdges.1 he with ⟨-, t, -, rfl⟩ | ⟨s, rfl, he⟩
  · exact .inl rfl
  · rcases mem_callEdges.1 he with ⟨t, -, rfl⟩ | ⟨callee, -, rfl | ⟨t, -, rfl⟩⟩
    · exact .inl rfl
    · exact .inl rfl
    · exact .inr ⟨callee, t, s, _, rfl⟩

theorem not_returnsTo_of_mem_nodeEdges {cfg : Cfg} (hn : n ≠ .stmt s.stmt)
    (he : e ∈ nodeEdges p calls cfg n) : e.returnsTo s = false := by
  rcases mem_nodeEdges.1 he with ⟨-, t, -, rfl⟩ | ⟨s', rfl, he⟩
  · rfl
  · rcases mem_callEdges.1 he with ⟨t, -, rfl⟩ | ⟨callee, -, rfl | ⟨t, -, rfl⟩⟩
    · rfl
    · rfl
    · exact decide_eq_false fun heq => hn (heq ▸ rfl)

/-- The edges that a call with one statement behind it brings. -/
theorem nodeEdges_call {cfg : Cfg} {t : Node} (ht : cfg.succs (.stmt s.stmt) = [t]) :
    nodeEdges p calls cfg (.stmt s.stmt) = .callToReturn s t ::
      (calls.calleesOf s).flatMap fun m => [.call s m, .ret m t s (p.returnVars m)] := by
  rw [nodeEdges, Node.callSite?_eq_some.2 rfl]
  dsimp only
  rw [callEdges, ht]
  rfl

section Node
variable (hp : p.Built) (h : build p calls = .ok g) (hm : m ∈ calls.reachable)
  (hn : n ∈ (Cfg.ofMethod p m).nodes)
include hp h hm hn

/-- Out of a node that is no exit lead the edges that it brings itself. -/
theorem outEdges_eq (hexit : n.isExit = false) : g.outEdges n =
    (nodeEdges p calls (Cfg.ofMethod p m) n).filter fun e => decide (e.source = n) := by
  have hin : n ∈ nodesOf p calls := mem_nodesOf.2 ⟨m, hm, hn⟩
  rw [outEdges, edges_eq hp h, filter_flatMap_of_nodup (nodesOf_nodup hp) hin fun k _ hk e he => ?_,
    Cfg.method_of_mem_nodes hp hn]
  refine decide_eq_false fun heq => ?_
  rcases source_of_mem_nodeEdges he with hsource | ⟨callee, t, s, vs, rfl⟩
  · exact hk (hsource.symm.trans heq)
  · rw [← heq] at hexit
    cases hexit

theorem outEdges_plain (hc : n.callSite? = none) (hexit : n.isExit = false) :
    g.outEdges n = ((Cfg.ofMethod p m).succs n).map (.normal n) := by
  rw [outEdges_eq hp h hm hn hexit, nodeEdges, hc]
  refine List.filter_eq_self.2 fun e he => ?_
  obtain ⟨t, -, rfl⟩ := List.mem_map.1 he
  exact decide_eq_true rfl

end Node

section Site
variable (hp : p.Built) (h : build p calls = .ok g) (hm : m ∈ calls.reachable)
  (hs : .stmt s.stmt ∈ (Cfg.ofMethod p m).nodes) {t : Node}
  (ht : (Cfg.ofMethod p m).succs (.stmt s.stmt) = [t])
include hp h hm hs ht

theorem outEdges_call : g.outEdges (.stmt s.stmt) =
    .callToReturn s t :: (calls.calleesOf s).map (.call s) := by
  rw [outEdges_eq hp h hm hs rfl, nodeEdges_call ht, List.filter_cons, List.filter_flatMap,
    List.map_eq_flatMap]
  simp [Edge.source]

theorem returnsTo_call : g.edges.filter (Edge.returnsTo s) =
    (calls.calleesOf s).map fun m => .ret m t s (p.returnVars m) := by
  have hin : .stmt s.stmt ∈ nodesOf p calls := mem_nodesOf.2 ⟨m, hm, hs⟩
  rw [edges_eq hp h, filter_flatMap_of_nodup (nodesOf_nodup hp) hin fun k _ hk e he =>
    not_returnsTo_of_mem_nodeEdges hk he, Cfg.method_of_mem_nodes hp hs, nodeEdges_call ht,
    List.filter_cons, List.filter_flatMap, List.map_eq_flatMap]
  simp [Edge.returnsTo]

end Site

/-! ## The whole graph -/

theorem site_mem_nodes : .stmt s.stmt ∈ (Cfg.ofMethod p m).nodes ↔ s ∈ p.callSites m := by
  rw [Program.mem_callSites]
  constructor
  · intro hs
    cases hb : p.body? m with
    | none =>
      rw [Cfg.ofMethod_eq_withoutBody hb] at hs
      simp [Cfg.withoutBody] at hs
    | some b =>
      rw [Cfg.ofMethod_eq hb] at hs
      exact ⟨b, rfl, by simpa [Cfg.ofBody] using hs⟩
  · rintro ⟨b, hb, hs⟩
    rw [Cfg.ofMethod_eq hb]
    exact Cfg.stmt_mem_nodes hs

/-- What a joined graph consists of, node by node and call by call. -/
structure Exact (p : Program) (calls : PlainCallGraph) (g : Icfg) : Prop where
  callGraph : g.callGraph = calls
  /-- No edge is missing because there is nothing for it to lead to. -/
  bodies : ∀ m ∈ calls.reachable, ∀ b, p.body? m = some b → b.Whole
  nodes : ∀ n m, g.nodes.get? n = some m ↔ m ∈ calls.reachable ∧ n ∈ (Cfg.ofMethod p m).nodes
  ends : ∀ e ∈ g.edges, e.source ∈ g.nodes.keys ∧ e.target ∈ g.nodes.keys
  leaving : (g.nodes.keys.flatMap g.outEdges).Perm g.edges
  entering : (g.nodes.keys.flatMap g.inEdges).Perm g.edges
  plain : ∀ m ∈ calls.reachable, ∀ n ∈ (Cfg.ofMethod p m).nodes, n.callSite? = none →
    n.isExit = false → g.outEdges n = ((Cfg.ofMethod p m).succs n).map (.normal n)
  /-- A call has one edge past it, and for each callee one edge into it and one back. -/
  site : ∀ m ∈ calls.reachable, ∀ s ∈ p.callSites m, ∃ t,
    (Cfg.ofMethod p m).succs (.stmt s.stmt) = [t] ∧
    g.outEdges (.stmt s.stmt) = .callToReturn s t :: (calls.calleesOf s).map (.call s) ∧
    g.edges.filter (Edge.returnsTo s) =
      (calls.calleesOf s).map fun callee => .ret callee t s (p.returnVars callee)
  callees : ∀ s, (calls.calleesOf s).Nodup ∧
    ∀ m, m ∈ calls.calleesOf s ↔ ∃ e ∈ calls.edges, e.site = s ∧ e.callee = m
  returned : ∀ m, p.returnVars m =
    ((((p.body? m).map Body.stmts).getD []).filterMap Stmt.returned?).eraseDups
  /-- Only calls lead to an entry. -/
  entry : ∀ e ∈ g.edges, ∀ m, e.target = .entry m → ∃ s, e = .call s m
  /-- An exit leads behind calls of its method, and nowhere else. -/
  exit : ∀ m, ∀ e ∈ g.outEdges (.exit m), ∃ m' ∈ calls.reachable, ∃ s ∈ p.callSites m', ∃ t,
    (Cfg.ofMethod p m').succs (.stmt s.stmt) = [t] ∧ m ∈ calls.calleesOf s ∧
    e = .ret m t s (p.returnVars m)

section Whole
variable (h : build p calls = .ok g)
include h

theorem ends_mem_nodes (hp : p.Built) (he : e ∈ g.edges) :
    e.source ∈ g.nodes.keys ∧ e.target ∈ g.nodes.keys := by
  have hnode : ∀ {m n}, m ∈ calls.reachable → n ∈ (Cfg.ofMethod p m).nodes → n ∈ g.nodes.keys :=
    fun hm hn => mem_nodes_of_build h hm hn
  have hcallee : ∀ {m s callee}, m ∈ calls.reachable → .stmt s.stmt ∈ (Cfg.ofMethod p m).nodes →
      callee ∈ calls.calleesOf s → callee ∈ calls.reachable :=
    fun hm hs hcalled => reachable_of_call h (call_mem_edges h hm hs hcalled)
  cases (mem_edges_iff h).1 he with
  | normal hm hn _ ht => exact ⟨hnode hm hn, hnode hm (Cfg.mem_nodes_of_mem_succs ht)⟩
  | past hm hs ht => exact ⟨hnode hm hs, hnode hm (Cfg.mem_nodes_of_mem_succs ht)⟩
  | call hm hs hcalled =>
    exact ⟨hnode hm hs, hnode (hcallee hm hs hcalled) (Cfg.entry_mem_ofMethod hp.method)⟩
  | ret hm hs hcalled ht =>
    exact ⟨hnode (hcallee hm hs hcalled) (Cfg.exit_mem_ofMethod hp.method),
      hnode hm (Cfg.mem_nodes_of_mem_succs ht)⟩

theorem call_of_target_entry (he : e ∈ g.edges) (ht : e.target = .entry m) :
    ∃ s, e = .call s m := by
  cases (mem_edges_iff h).1 he with
  | normal _ _ _ hsucc => exact absurd ht (Cfg.not_entry_of_mem_succs hsucc m)
  | past _ _ hsucc => exact absurd ht (Cfg.not_entry_of_mem_succs hsucc m)
  | ret _ _ _ hsucc => exact absurd ht (Cfg.not_entry_of_mem_succs hsucc m)
  | call =>
    obtain rfl := Node.entry.inj ht
    exact ⟨_, rfl⟩

theorem ret_of_source_exit (he : e ∈ g.edges) (hs : e.source = .exit m) :
    ∃ m' ∈ calls.reachable, ∃ s ∈ p.callSites m', ∃ t ∈ (Cfg.ofMethod p m').succs (.stmt s.stmt),
      m ∈ calls.calleesOf s ∧ e = .ret m t s (p.returnVars m) := by
  cases (mem_edges_iff h).1 he with
  | normal _ _ _ ht =>
    obtain rfl : _ = Node.exit m := hs
    rw [Cfg.succs, Cfg.outEdges_exit] at ht
    cases ht
  | past => cases hs
  | call => cases hs
  | ret hm hin hcalled ht =>
    obtain rfl := Node.exit.inj hs
    exact ⟨_, hm, _, site_mem_nodes.1 hin, _, ht, hcalled, rfl⟩

end Whole

/-- A graph that is built from a closed call graph consists of what it should. -/
theorem exact_of_build (hp : p.Built) (hg : calls.Grouped) (h : build p calls = .ok g) :
    Exact p calls g where
  callGraph := callGraph_of_build h
  bodies m _ b hb := (hp.body hb).shaped.whole
  nodes n m := get?_nodes hp h
  ends e he := ends_mem_nodes h hp he
  leaving := flatMap_filter_perm g.nodes.nodup fun e he => (ends_mem_nodes h hp he).1
  entering := flatMap_filter_perm g.nodes.nodup fun e he => (ends_mem_nodes h hp he).2
  plain m hm n hn hc hexit := outEdges_plain hp h hm hn hc hexit
  site m hm s hs := by
    have hin := site_mem_nodes.2 hs
    obtain ⟨b, hb, hstmt⟩ := Program.mem_callSites.1 hs
    obtain ⟨t, -, ht⟩ := Cfg.succs_callSite hp hb hstmt
    exact ⟨_, ht, outEdges_call hp h hm hin ht, returnsTo_call hp h hm hin ht⟩
  callees s := ⟨OrderedSet.nodup _, fun m => CallGraph.mem_calleesOf hg⟩
  returned m := by
    unfold Program.returnVars
    cases p.body? m with
    | none => rfl
    | some b => exact b.returnVars_eq
  entry e he m ht := call_of_target_entry h he ht
  exit m e he := by
    obtain ⟨hin, hsource⟩ := List.mem_filter.1 he
    obtain ⟨m', hm', s, hs, t, ht, hcalled, rfl⟩ :=
      ret_of_source_exit h hin (of_decide_eq_true hsource)
    obtain ⟨b, hb, hstmt⟩ := Program.mem_callSites.1 hs
    obtain ⟨t', -, hsuccs⟩ := Cfg.succs_callSite hp hb hstmt
    rw [hsuccs] at ht
    obtain rfl := List.mem_singleton.1 ht
    exact ⟨m', hm', s, hs, _, hsuccs, hcalled, rfl⟩

/-! ## Call graphs that are made of a program -/

/-- The call graphs that are made of a program: from its class hierarchy, and by merging the contexts
of whatever state an analysis of it has come to. -/
inductive MadeOf (p : Program) : PlainCallGraph → Prop where
  | hierarchy {entries calls} : Cha.build p entries = .ok calls → MadeOf p calls
  | pointsTo {setup st} : PointsTo.Attained p setup st →
      MadeOf p (PointsTo.Findings.ofState st).callGraph

theorem MadeOf.closed (hp : p.Built) (hc : MadeOf p calls) : calls.Closed := by
  cases hc with
  | hierarchy hb => exact (Constants.CallsOf.hierarchy hb).closed hp.hierarchy
  | pointsTo ha =>
    refine ⟨PointsTo.Findings.callGraph_grouped, fun m hm => ?_, fun e he => ?_⟩
    · obtain ⟨c, hentry⟩ := PointsTo.Findings.mem_callGraph_entries.1 hm
      exact PointsTo.Findings.mem_callGraph_reachable.2 (.inl ⟨c, hentry⟩)
    · exact (PointsTo.Findings.callGraph_merges ha).callee e he

/-- Every call graph that is made of a program can be joined, and the joined graph consists of the
nodes and the edges that it should. -/
theorem build_exact (hp : p.Built) (hc : MadeOf p calls) :
    ∃ g, build p calls = .ok g ∧ Exact p calls g := by
  have hclosed := hc.closed hp
  obtain ⟨g, hg⟩ := Constants.build_of_closed (p := p) hclosed
  exact ⟨g, hg, exact_of_build hp hclosed.grouped hg⟩

end Icfg

/-! ### One call -/

namespace Constants.Doubling

open Icfg

/-- The call leads past the callee, into it and back, with the variable that it returns. -/
theorem build_exact_doubling : (program.Built ∧ MadeOf program calls) ∧
    ∃ g, Icfg.build program calls = .ok g ∧ Exact program calls g ∧
      g.outEdges (.stmt site.stmt) = [.callToReturn site (.stmt done), .call site double] ∧
      g.outEdges (.exit double) = [.ret double (.stmt done) site [r]] := by
  have hmade : MadeOf program calls :=
    .hierarchy (show Cha.build program [main] = .ok calls from rfl)
  obtain ⟨g, hg, hexact⟩ := build_exact program_built hmade
  refine ⟨⟨program_built, hmade⟩, g, hg, hexact, ?_⟩
  obtain rfl := Except.ok.inj (hg.symm.trans (show Icfg.build program calls = .ok _ from rfl))
  exact ⟨rfl, rfl⟩

end Constants.Doubling

end ObjectFlow
