import ObjectFlow.Graph.Icfg
import ObjectFlow.Proofs.MethodConstants
import ObjectFlow.Proofs.Rules
/-!
# The edges of a joined graph

Wherever control can go within a body there is an edge of its graph. A joined
graph has all edges of the reachable methods, and for each edge of the call
graph a way into the callee and a way back, and no edges besides these.
-/

namespace ObjectFlow

/-! ## Within a body -/

namespace Cfg

variable {p : Program} {m : Method} {b : Body} {s t : Stmt} {l : List Stmt}

theorem ofMethod_eq (hb : p.body? m = some b) : ofMethod p m = ofBody b := by
  unfold ofMethod
  rw [hb]

theorem ofMethod_eq_withoutBody (hb : p.body? m = none) : ofMethod p m = withoutBody m := by
  unfold ofMethod
  rw [hb]

theorem mem_succs {g : Cfg} {n k : Node} :
    k ∈ g.succs n ↔ ∃ e ∈ g.edges, e.source = n ∧ e.target = k := by
  simp only [succs, outEdges, List.mem_map, List.mem_filter, decide_eq_true_eq, and_assoc]

theorem stmt_mem_nodes (h : s ∈ b.stmts) : .stmt s ∈ (ofBody b).nodes := by
  simp [ofBody, h]

theorem entry_mem_nodes : .entry b.method ∈ (ofBody b).nodes := List.mem_cons_self

theorem exit_mem_nodes : .exit b.method ∈ (ofBody b).nodes := by
  simp [ofBody]

theorem edgesOf_subset_next (h : [s, t] <:+: l) : edgesOf b s (some t) ⊆ edgesOfAll b l := by
  induction l with
  | nil => simp at h
  | cons a l ih =>
    intro e he
    rcases List.infix_cons_iff.1 h with hfirst | hlater
    · obtain ⟨rest, hrest⟩ := hfirst
      obtain ⟨rfl, rfl⟩ := List.cons.inj hrest
      exact List.mem_append_left _ he
    · exact List.mem_append_right _ (ih hlater he)

theorem exists_edgesOf_subset (h : s ∈ l) : ∃ next, edgesOf b s next ⊆ edgesOfAll b l := by
  induction l with
  | nil => cases h
  | cons a l ih =>
    rcases List.mem_cons.1 h with rfl | hin
    · exact ⟨l.head?, List.subset_append_left _ _⟩
    · obtain ⟨next, hnext⟩ := ih hin
      exact ⟨next, fun e he => List.mem_append_right _ (hnext he)⟩

/-- The edges out of a statement of a body are edges of its graph. -/
theorem mem_succs_of_edgesOf {next : Option Stmt} {e : Edge} {k : Node}
    (hsub : edgesOf b s next ⊆ edgesOfAll b b.stmts) (he : e ∈ edgesOf b s next)
    (hs : e.source = .stmt s) (hk : e.target = k) : k ∈ (ofBody b).succs (.stmt s) :=
  mem_succs.2 ⟨e, List.mem_append_right _ (hsub he), hs, hk⟩

theorem head_mem_succs (h : b.stmts.head? = some t) :
    .stmt t ∈ (ofBody b).succs (.entry b.method) :=
  mem_succs.2 ⟨_, List.mem_append_left _ (mem_edgeTo.2 ⟨t, h, rfl⟩), rfl, rfl⟩

/-- Control falls through to the next statement. -/
theorem next_mem_succs (h : [s, t] <:+: b.stmts) (hf : s.command.fallsThrough) :
    .stmt t ∈ (ofBody b).succs (.stmt s) := by
  obtain ⟨kind, he⟩ : ∃ kind, ⟨kind, .stmt s, .stmt t⟩ ∈ edgesOf b s (some t) := by
    unfold edgesOf
    split
    · rename_i hc
      rw [hc] at hf
      cases hf
    · rename_i hc
      rw [hc] at hf
      cases hf
    · exact ⟨.ifFalse, List.mem_append_right _ (mem_edgeTo.2 ⟨t, rfl, rfl⟩)⟩
    · exact ⟨.fallThrough, mem_edgeTo.2 ⟨t, rfl, rfl⟩⟩
  exact mem_succs_of_edgesOf (edgesOf_subset_next h) he rfl rfl

/-- A jump leads to its target. -/
theorem target_mem_succs {i : Nat} (hs : s ∈ b.stmts) (hc : s.command.target? = some i)
    (ht : b.target? i = some t) : .stmt t ∈ (ofBody b).succs (.stmt s) := by
  obtain ⟨next, hnext⟩ := exists_edgesOf_subset (b := b) hs
  obtain ⟨kind, he⟩ : ∃ kind, ⟨kind, .stmt s, .stmt t⟩ ∈ edgesOf b s next := by
    unfold edgesOf
    cases hcmd : s.command with
    | branch op l r j =>
      rw [hcmd] at hc
      obtain rfl : j = i := Option.some.inj hc
      exact ⟨.ifTrue, List.mem_append_left _ (mem_edgeTo.2 ⟨t, ht, rfl⟩)⟩
    | goto j =>
      rw [hcmd] at hc
      obtain rfl : j = i := Option.some.inj hc
      exact ⟨.goto, mem_edgeTo.2 ⟨t, ht, rfl⟩⟩
    | _ =>
      rw [hcmd] at hc
      cases hc
  exact mem_succs_of_edgesOf hnext he rfl rfl

theorem exit_mem_succs {v : Option Var} (hs : s ∈ b.stmts) (hc : s.command = .ret v) :
    .exit b.method ∈ (ofBody b).succs (.stmt s) := by
  obtain ⟨next, hnext⟩ := exists_edgesOf_subset (b := b) hs
  have he : ⟨.ret, .stmt s, .exit b.method⟩ ∈ edgesOf b s next := by
    unfold edgesOf
    rw [hc]
    exact List.mem_singleton.2 rfl
  exact mem_succs_of_edgesOf hnext he rfl rfl

theorem entry_mem_ofMethod (hm : ∀ {b}, p.body? m = some b → b.method = m) :
    .entry m ∈ (ofMethod p m).nodes := by
  cases hb : p.body? m with
  | none =>
    rw [ofMethod_eq_withoutBody hb]
    exact List.mem_cons_self
  | some b =>
    rw [ofMethod_eq hb]
    exact hm hb ▸ entry_mem_nodes

theorem exit_mem_ofMethod (hm : ∀ {b}, p.body? m = some b → b.method = m) :
    .exit m ∈ (ofMethod p m).nodes := by
  cases hb : p.body? m with
  | none =>
    rw [ofMethod_eq_withoutBody hb]
    exact List.mem_cons_of_mem _ List.mem_cons_self
  | some b =>
    rw [ofMethod_eq hb]
    exact hm hb ▸ exit_mem_nodes

/-- Edges do not lead out of the graph of a method. -/
theorem mem_nodes_of_mem_succs {n k : Node} (h : k ∈ (ofMethod p m).succs n) :
    k ∈ (ofMethod p m).nodes := by
  obtain ⟨e, he, -, rfl⟩ := mem_succs.1 h
  cases hb : p.body? m with
  | none =>
    rw [ofMethod_eq_withoutBody hb] at he ⊢
    obtain rfl := List.mem_singleton.1 he
    exact List.mem_cons_of_mem _ List.mem_cons_self
  | some b =>
    rw [ofMethod_eq hb] at he ⊢
    rcases List.mem_append.1 he with he | he
    · obtain ⟨s, hs, rfl⟩ := mem_edgeTo.1 he
      exact stmt_mem_nodes (List.mem_of_head? hs)
    · rcases target_of_mem_edgesOfAll (fun _ => id) he with hexit | ⟨s, hs, hstmt⟩
      · rw [hexit]
        exact exit_mem_nodes
      · rw [hstmt]
        exact stmt_mem_nodes hs

end Cfg

/-! ## Across bodies -/

theorem Node.callSite?_eq_some {n : Node} {s : CallSite} :
    n.callSite? = some s ↔ n = .stmt s.stmt := by
  constructor
  · intro h
    cases n with
    | stmt t =>
      obtain ⟨hplace, hcommand⟩ := PointsTo.callSite?_eq_some.1 h
      rw [← PointsTo.stmt_of_invoke hcommand, hplace]
    | _ => cases h
  · rintro rfl
    rfl

theorem CallSite.stmt_injective : Function.Injective CallSite.stmt := by
  rintro ⟨place, result, call⟩ ⟨place', result', call'⟩ h
  simp only [CallSite.stmt, Stmt.mk.injEq, Command.invoke.injEq] at h
  obtain ⟨rfl, rfl, rfl⟩ := h
  rfl

namespace Icfg

variable {p : Program} {calls : PlainCallGraph} {g : Icfg} {m callee : Method} {n t : Node}
  {s : CallSite} {e : Edge}

/-- What a graph is built of: the nodes and edges of one reachable method after the other, where
every callee is reachable. -/
structure Parts (p : Program) (calls : PlainCallGraph) (g : Icfg) : Prop where
  callGraph : g.callGraph = calls
  nodes : g.nodes = .ofList (calls.reachable.toList.flatMap fun m =>
    (Cfg.ofMethod p m).nodes.map fun n => (n, m))
  edges : g.edges = calls.reachable.toList.flatMap fun m =>
    (Cfg.ofMethod p m).nodes.flatMap (nodeEdges p calls (Cfg.ofMethod p m))
  reached : unreached? calls g.edges = none

theorem parts_of_build (h : build p calls = .ok g) : Parts p calls g := by
  unfold build at h
  dsimp only at h
  split at h
  · cases h
  · rename_i hnone
    rw [← Except.ok.inj h]
    exact ⟨rfl, congrArg _ (List.flatMap_map _ _ _), List.flatMap_map _ _ _, hnone⟩

theorem callGraph_of_build (h : build p calls = .ok g) : g.callGraph = calls :=
  (parts_of_build h).callGraph

/-- The nodes of a graph are those of the reachable methods. -/
theorem mem_nodes_iff (h : build p calls = .ok g) :
    n ∈ g.nodes.keys ↔ ∃ m ∈ calls.reachable, n ∈ (Cfg.ofMethod p m).nodes := by
  rw [(parts_of_build h).nodes]
  constructor
  · intro hn
    obtain ⟨x, hx, rfl⟩ := List.mem_map.1 (OrderedMap.mem_keys_ofList.1 hn)
    obtain ⟨m, hm, hx⟩ := List.mem_flatMap.1 hx
    obtain ⟨k, hk, rfl⟩ := List.mem_map.1 hx
    exact ⟨m, hm, hk⟩
  · rintro ⟨m, hm, hn⟩
    apply OrderedMap.mem_keys_ofList.2
    apply List.mem_map.2
    exact ⟨(n, m), List.mem_flatMap.2 ⟨m, hm, List.mem_map.2 ⟨n, hn, rfl⟩⟩, rfl⟩

theorem mem_nodes_of_build (h : build p calls = .ok g) (hm : m ∈ calls.reachable)
    (hn : n ∈ (Cfg.ofMethod p m).nodes) : n ∈ g.nodes.keys := (mem_nodes_iff h).2 ⟨m, hm, hn⟩

/-! ### Edges -/

/-- The edges of a joined graph: those of reachable methods that leave no call, and for each call of
such a method those past it, into each callee and back. -/
inductive Joins (p : Program) (calls : PlainCallGraph) : Edge → Prop
  | normal {m : Method} {n t : Node} (method : m ∈ calls.reachable)
      (source : n ∈ (Cfg.ofMethod p m).nodes) (plain : n.callSite? = none)
      (target : t ∈ (Cfg.ofMethod p m).succs n) : Joins p calls (.normal n t)
  | past {m : Method} {s : CallSite} {t : Node} (method : m ∈ calls.reachable)
      (site : .stmt s.stmt ∈ (Cfg.ofMethod p m).nodes)
      (target : t ∈ (Cfg.ofMethod p m).succs (.stmt s.stmt)) : Joins p calls (.callToReturn s t)
  | call {m callee : Method} {s : CallSite} (method : m ∈ calls.reachable)
      (site : .stmt s.stmt ∈ (Cfg.ofMethod p m).nodes) (called : callee ∈ calls.calleesOf s) :
      Joins p calls (.call s callee)
  | ret {m callee : Method} {s : CallSite} {t : Node} (method : m ∈ calls.reachable)
      (site : .stmt s.stmt ∈ (Cfg.ofMethod p m).nodes) (called : callee ∈ calls.calleesOf s)
      (target : t ∈ (Cfg.ofMethod p m).succs (.stmt s.stmt)) :
      Joins p calls (.ret callee t s (p.returnVars callee))

theorem mem_nodeEdges {cfg : Cfg} : e ∈ nodeEdges p calls cfg n ↔
    (n.callSite? = none ∧ ∃ t ∈ cfg.succs n, e = .normal n t) ∨
    ∃ s : CallSite, n = .stmt s.stmt ∧ e ∈ callEdges p calls cfg s := by
  unfold nodeEdges
  cases hc : n.callSite? with
  | none =>
    have hno : ∀ s : CallSite, n ≠ .stmt s.stmt := by
      rintro s rfl
      cases hc
    simp [hno, eq_comm]
  | some s =>
    obtain rfl := Node.callSite?_eq_some.1 hc
    constructor
    · exact fun he => .inr ⟨s, rfl, he⟩
    · rintro (⟨hnone, -⟩ | ⟨s', heq, he⟩)
      · cases hnone
      · rwa [CallSite.stmt_injective (Node.stmt.inj heq)]

theorem mem_callEdges {cfg : Cfg} : e ∈ callEdges p calls cfg s ↔
    (∃ t ∈ cfg.succs (.stmt s.stmt), e = .callToReturn s t) ∨
    ∃ callee ∈ calls.calleesOf s, e = .call s callee ∨
      ∃ t ∈ cfg.succs (.stmt s.stmt), e = .ret callee t s (p.returnVars callee) := by
  simp only [callEdges, List.mem_append, List.mem_map, List.mem_flatMap, List.mem_cons,
    eq_comm (a := e)]

theorem joins_iff : Joins p calls e ↔ ∃ m ∈ calls.reachable, ∃ n ∈ (Cfg.ofMethod p m).nodes,
    e ∈ nodeEdges p calls (Cfg.ofMethod p m) n := by
  constructor
  · rintro (⟨hm, hn, hc, ht⟩ | ⟨hm, hs, ht⟩ | ⟨hm, hs, hcallee⟩ | ⟨hm, hs, hcallee, ht⟩)
    · exact ⟨_, hm, _, hn, mem_nodeEdges.2 (.inl ⟨hc, _, ht, rfl⟩)⟩
    · exact ⟨_, hm, _, hs, mem_callEdges.2 (.inl ⟨_, ht, rfl⟩)⟩
    · exact ⟨_, hm, _, hs, mem_callEdges.2 (.inr ⟨_, hcallee, .inl rfl⟩)⟩
    · exact ⟨_, hm, _, hs, mem_callEdges.2 (.inr ⟨_, hcallee, .inr ⟨_, ht, rfl⟩⟩)⟩
  · rintro ⟨m, hm, n, hn, he⟩
    rcases mem_nodeEdges.1 he with ⟨hc, t, ht, rfl⟩ | ⟨s, rfl, he⟩
    · exact .normal hm hn hc ht
    · rcases mem_callEdges.1 he with ⟨t, ht, rfl⟩ | ⟨callee, hcallee, rfl | ⟨t, ht, rfl⟩⟩
      · exact .past hm hn ht
      · exact .call hm hn hcallee
      · exact .ret hm hn hcallee ht

theorem mem_joined : e ∈ (calls.reachable.toList.flatMap fun m =>
    (Cfg.ofMethod p m).nodes.flatMap (nodeEdges p calls (Cfg.ofMethod p m))) ↔
      Joins p calls e := by
  simp only [List.mem_flatMap, joins_iff]
  rfl

theorem mem_edges_iff (h : build p calls = .ok g) : e ∈ g.edges ↔ Joins p calls e := by
  rw [(parts_of_build h).edges]
  exact mem_joined

/-- A graph is only built if it can enter what it calls. -/
theorem reachable_of_call (h : build p calls = .ok g) (he : .call s m ∈ g.edges) :
    m ∈ calls.reachable := by
  have hone := List.findSome?_eq_none_iff.1 (parts_of_build h).reached _ he
  dsimp only at hone
  split at hone
  · rename_i hreach
    exact of_decide_eq_true hreach
  · cases hone

/-- A graph that can enter what it calls is built. -/
theorem build_ok (h : ∀ {s m}, Joins p calls (.call s m) → m ∈ calls.reachable) :
    ∃ g, build p calls = .ok g := by
  unfold build
  dsimp only
  rw [List.flatMap_map]
  split
  · rename_i m hm
    obtain ⟨e, he, hunreached⟩ := List.exists_of_findSome?_eq_some hm
    split at hunreached
    · have hreach := decide_eq_true (h (mem_joined.1 he))
      rw [CallGraph.isReachable, if_pos hreach] at hunreached
      cases hunreached
    · cases hunreached
  · exact ⟨_, rfl⟩

section Edges
variable (h : build p calls = .ok g) (hm : m ∈ calls.reachable)
include h hm

theorem normal_mem_edges (hn : n ∈ (Cfg.ofMethod p m).nodes) (hc : n.callSite? = none)
    (ht : t ∈ (Cfg.ofMethod p m).succs n) : .normal n t ∈ g.edges :=
  (mem_edges_iff h).2 (.normal hm hn hc ht)

theorem past_mem_edges (hn : .stmt s.stmt ∈ (Cfg.ofMethod p m).nodes)
    (ht : t ∈ (Cfg.ofMethod p m).succs (.stmt s.stmt)) : .callToReturn s t ∈ g.edges :=
  (mem_edges_iff h).2 (.past hm hn ht)

theorem call_mem_edges (hn : .stmt s.stmt ∈ (Cfg.ofMethod p m).nodes)
    (hcallee : callee ∈ calls.calleesOf s) : .call s callee ∈ g.edges :=
  (mem_edges_iff h).2 (.call hm hn hcallee)

theorem ret_mem_edges (hn : .stmt s.stmt ∈ (Cfg.ofMethod p m).nodes)
    (hcallee : callee ∈ calls.calleesOf s)
    (ht : t ∈ (Cfg.ofMethod p m).succs (.stmt s.stmt)) :
    .ret callee t s (p.returnVars callee) ∈ g.edges :=
  (mem_edges_iff h).2 (.ret hm hn hcallee ht)

end Edges

end Icfg

end ObjectFlow
