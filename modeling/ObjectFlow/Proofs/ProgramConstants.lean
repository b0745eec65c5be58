import ObjectFlow.Proofs.JoinedGraph
/-!
# Constants across methods

Facts flow along the edges of a joined graph as they flow within a method: a
higher fact flows on as a higher one. An edge can only fail where a call passes
another number of arguments than its callee has parameters.
-/

namespace ObjectFlow.Constants

open Dataflow

/-! ## What flows along an edge -/

section Edges
variable {p : Program} {f g : ConstFact}

/-- The variables that an edge gives values to. -/
def edgeVars (p : Program) : Icfg.Edge → List Var
  | .call _ m => ((p.body? m).map Body.params).getD []
  | .ret _ _ s _ => s.result.toList
  | _ => []

theorem returnedValue_mono (m : Method) (returned : List Var) (h : f ≤ g) :
    returnedValue p m returned f ≤ returnedValue p m returned g := by
  have fold : ∀ (l : List Var) (v w : Value), v ≤ w →
      l.foldl (fun v x => v.meet (x.value f)) v ≤ l.foldl (fun v x => v.meet (x.value g)) w := by
    intro l
    induction l with
    | nil => exact fun v w hvw => hvw
    | cons x l ih => exact fun v w hvw => ih _ _ (Value.meet_mono hvw (x.value_mono h))
  unfold returnedValue
  split
  · exact fold returned _ _ (le_refl _)
  · exact le_refl _

theorem behindCall_mono (s : CallSite) (m : Method) (returned : List Var) (h : f ≤ g) :
    behindCall p s m returned f ≤ behindCall p s m returned g := by
  unfold behindCall
  split
  · split
    · exact ConstFact.update_mono (le_refl _) (returnedValue_mono m returned h) _
    · exact le_refl _
  · exact le_refl _

theorem pastCall_mono (s : CallSite) (h : f ≤ g) : pastCall s f ≤ pastCall s g := by
  unfold pastCall
  split
  · exact ConstFact.remove_mono h _
  · exact h

theorem parameterFact_mono (args params : List Var) (h : f ≤ g) :
    parameterFact f args params ≤ parameterFact g args params :=
  ConstFact.updateAll_mono _ (le_refl _) fun e _ => e.1.value_mono h

/-- A higher fact flows on as a higher one, and flows if and only if the lower one does. -/
theorem alongEdge_mono {e : Icfg.Edge} {b' : ConstFact} (h : f ≤ g)
    (hb' : alongEdge p e g = .ok b') : ∃ b, alongEdge p e f = .ok b ∧ b ≤ b' := by
  cases e with
  | normal s t =>
    obtain rfl := Except.ok.inj hb'
    exact ⟨f, rfl, h⟩
  | callToReturn s t =>
    obtain rfl := Except.ok.inj hb'
    exact ⟨_, rfl, pastCall_mono s h⟩
  | call s m =>
    simp only [alongEdge, intoCallee] at hb' ⊢
    split at hb'
    · obtain rfl := Except.ok.inj hb'
      exact ⟨∅, rfl, le_refl _⟩
    · split at hb'
      · cases hb'
      · rename_i hl
        obtain rfl := Except.ok.inj hb'
        exact ⟨_, by rw [if_neg hl], parameterFact_mono _ _ h⟩
  | ret m t s returned =>
    obtain rfl := Except.ok.inj hb'
    exact ⟨_, rfl, behindCall_mono s m returned h⟩
  | foreign s t => cases hb'

theorem alongEdge_tidy {e : Icfg.Edge} {b : ConstFact} {V : List Var}
    (hV : ∀ v ∈ edgeVars p e, v ∈ V) (h : ConstFact.Tidy V f) (hb : alongEdge p e f = .ok b) :
    ConstFact.Tidy V b := by
  cases e with
  | normal s t =>
    obtain rfl := Except.ok.inj hb
    exact h
  | callToReturn s t =>
    obtain rfl := Except.ok.inj hb
    unfold pastCall
    split
    · exact h.remove _
    · exact h
  | call s m =>
    simp only [alongEdge, intoCallee] at hb
    split at hb
    · obtain rfl := Except.ok.inj hb
      exact .empty
    · rename_i body hbody
      split at hb
      · cases hb
      · obtain rfl := Except.ok.inj hb
        refine ConstFact.Tidy.empty.updateAll fun x hx => hV x.1 ?_
        obtain ⟨e, he, rfl⟩ := List.mem_map.1 hx
        have hin := List.of_mem_zip (List.mem_of_mem_filter he)
        simpa [edgeVars, hbody] using hin.2
  | ret m t s returned =>
    obtain rfl := Except.ok.inj hb
    unfold behindCall
    split
    · rename_i v hv
      split
      · exact ConstFact.Tidy.empty.update (hV v (by simp [edgeVars, hv])) _
      · exact .empty
    · exact .empty
  | foreign s t => cases hb

theorem error_alongEdge {e : Icfg.Edge} {err : AnalysisError}
    (he : ∀ s t, e ≠ .foreign s t) (h : alongEdge p e f = .error err) :
    ∃ s m given expected, err = .arity s m given expected := by
  cases e with
  | call s m =>
    simp only [alongEdge, intoCallee] at h
    split at h
    · cases h
    · split at h
      · exact ⟨_, _, _, _, (Except.error.inj h).symm⟩
      · cases h
  | foreign s t => exact absurd rfl (he s t)
  | _ => cases h

end Edges

/-! ## Graphs as they are built -/

section Program
variable {p : Program} {calls : PlainCallGraph} {g : Icfg}

/-- The nodes that can come into the queue. -/
def programNodes (g : Icfg) : List Node := g.nodes.keys ++ g.edges.map Icfg.Edge.target

theorem not_foreign (h : Icfg.build p calls = .ok g) {e : Icfg.Edge} (he : e ∈ g.edges) (s t : Node) :
    e ≠ .foreign s t := by
  rintro rfl
  cases (Icfg.mem_edges_iff h).1 he

/-- Whatever can come into the queue is an entry or a node of a reachable method. -/
theorem node_of_mem_programNodes (h : Icfg.build p calls = .ok g) {n : Node}
    (hn : n ∈ programNodes g) : (∃ m ∈ calls.reachable, n = .entry m) ∨
      ∃ m ∈ calls.reachable, n ∈ (Cfg.ofMethod p m).nodes := by
  rcases List.mem_append.1 hn with hn | hn
  · exact .inr ((Icfg.mem_nodes_iff h).1 hn)
  · obtain ⟨e, he, rfl⟩ := List.mem_map.1 hn
    have hjoins := (Icfg.mem_edges_iff h).1 he
    cases hjoins with
    | normal hm _ _ ht => exact .inr ⟨_, hm, Cfg.mem_nodes_of_mem_succs ht⟩
    | past hm _ ht => exact .inr ⟨_, hm, Cfg.mem_nodes_of_mem_succs ht⟩
    | call => exact .inl ⟨_, Icfg.reachable_of_call h he, rfl⟩
    | ret hm _ _ ht => exact .inr ⟨_, hm, Cfg.mem_nodes_of_mem_succs ht⟩

/-- The statements that can come into the queue stand in bodies of reachable methods. -/
theorem stmt_of_mem_programNodes (h : Icfg.build p calls = .ok g) {s : Stmt}
    (hs : .stmt s ∈ programNodes g) :
    ∃ m ∈ calls.reachable, ∃ b, p.body? m = some b ∧ s ∈ b.stmts := by
  rcases node_of_mem_programNodes h hs with ⟨m, -, heq⟩ | ⟨m, hm, hn⟩
  · cases heq
  · exact ⟨m, hm, Cfg.stmt_of_mem_nodes hn⟩

/-! ## The equations of a program -/

/-- The state in which the solver starts on a joined graph. -/
def programStart (p : Program) (g : Icfg) : State Node ConstFact :=
  .start (programEquations p g) g.nodes.keys (boundaries p g).entries (boundaries p g).entries
    g.nodes.keys

def programVars (p : Program) (g : Icfg) : List Var :=
  (programNodes g).flatMap nodeVars ++ g.edges.flatMap (edgeVars p) ++
    (boundaries p g).values.flatMap Fact.keys

theorem programStart_after (n : Node) :
    (programStart p g).after (programEquations p g) n = (boundaries p g).getD n ∅ := by
  show ((OrderedMap.ofList _).insertAll (boundaries p g).entries).getD n ∅ = _
  rw [OrderedMap.getD_insertAll_entries]
  exact congrArg _ (OrderedMap.getD_ofList_const _ n ∅)

theorem entry_of_boundaries {n : Node} {f : ConstFact} (h : (boundaries p g).get? n = some f) :
    ∃ m ∈ g.callGraph.entries, n = .entry m ∧ f = boundary p m := by
  obtain ⟨m, hm, heq⟩ := List.mem_map.1 (OrderedMap.mem_of_get?_ofList h)
  obtain ⟨rfl, rfl⟩ := Prod.mk.inj heq
  exact ⟨m, hm, rfl, rfl⟩

theorem boundaries_get? {m : Method} (hm : m ∈ g.callGraph.entries) :
    (boundaries p g).get? (.entry m) = some (boundary p m) := by
  have hkey : .entry m ∈ (boundaries p g).keys :=
    OrderedMap.mem_keys_ofList.2 (List.mem_map.2 ⟨_, List.mem_map.2 ⟨m, hm, rfl⟩, rfl⟩)
  obtain ⟨f, hf⟩ := OrderedMap.mem_keys_iff.1 hkey
  obtain ⟨m', -, heq, rfl⟩ := entry_of_boundaries hf
  obtain rfl := Node.entry.inj heq
  exact hf

/-- Only entries have a boundary. -/
theorem boundaries_cases (n : Node) :
    (boundaries p g).getD n ∅ = ∅ ∨ ∃ m, n = .entry m ∧
      (boundaries p g).get? n = some (boundary p m) := by
  cases h : (boundaries p g).get? n with
  | none => exact .inl (by rw [OrderedMap.getD, h]; rfl)
  | some f =>
    obtain ⟨m, -, rfl, rfl⟩ := entry_of_boundaries h
    exact .inr ⟨m, rfl, rfl⟩

theorem boundaries_tidy (n : Node) :
    ConstFact.Tidy (programVars p g) ((boundaries p g).getD n ∅) := by
  rcases boundaries_cases (p := p) (g := g) n with h | ⟨m, -, h⟩
  · rw [h]
    exact .empty
  · rw [OrderedMap.getD_of_get? h]
    refine boundary_tidy fun k hk => List.mem_append_right _ (List.mem_flatMap.2 ⟨_, ?_, hk⟩)
    exact OrderedMap.mem_values_iff.2 ⟨n, h⟩

/-- What enters a node, computed or not. -/
theorem entering_eq_ok {l : Node → ConstFact} {n : Node} {b : ConstFact}
    (h : (programEquations p g).entering l n = .ok b) :
    ∃ flows, (g.inEdges n).mapM (fun e => alongEdge p e (l e.source)) = .ok flows ∧
      b = flows.foldl (fun t f => meetFact f t) ((boundaries p g).getD n ∅) := by
  simp only [programEquations] at h
  cases hf : (g.inEdges n).mapM (fun e => alongEdge p e (l e.source)) with
  | error e =>
    rw [hf] at h
    cases h
  | ok flows =>
    rw [hf] at h
    exact ⟨flows, rfl, (Except.ok.inj h).symm⟩

/-- What flows into a node speaks of variables of the program alone, if what leaves nodes does. -/
theorem flows_tidy {l : Node → ConstFact} {n : Node} {flows : List ConstFact}
    (hl : ∀ k, ConstFact.Tidy (programVars p g) (l k))
    (hf : (g.inEdges n).mapM (fun e => alongEdge p e (l e.source)) = .ok flows) :
    ∀ f ∈ flows, ConstFact.Tidy (programVars p g) f := by
  intro f hin
  obtain ⟨e, he, hfe⟩ := exists_of_mem_mapM hf hin
  refine alongEdge_tidy (fun v hv => ?_) (hl e.source) hfe
  exact List.mem_append_left _ (List.mem_append_right _
    (List.mem_flatMap.2 ⟨e, List.mem_of_mem_filter he, hv⟩))

theorem programEquations_bounded : Bounded (programEquations p g) (programNodes g)
    (ConstFact.Tidy (programVars p g)) (ConstFact.room (programVars p g)) where
  dependents n _ k hk := by
    obtain ⟨e, he, rfl⟩ := List.mem_map.1 hk
    exact List.mem_append_right _ (List.mem_map.2 ⟨e, List.mem_of_mem_filter he, rfl⟩)
  leaving n hn l b hl hb := by
    obtain ⟨flows, hf, rfl⟩ := entering_eq_ok hb
    have htidy := ConstFact.Tidy.foldl_meetFact flows (flows_tidy hl hf)
      (boundaries_tidy (p := p) (g := g) n)
    simp only [programEquations, afterInterNode]
    split
    · exact htidy
    · refine afterNode_tidy (fun v hv => ?_) htidy
      exact List.mem_append_left _ (List.mem_append_left _ (List.mem_flatMap.2 ⟨n, hn, hv⟩))
  room_le := ConstFact.room_le
  room_lt hf hg h hne := ConstFact.room_lt hf hg h hne

theorem programStart_inside : Inside (programEquations p g) (programNodes g)
    (ConstFact.Tidy (programVars p g)) (programStart p g) where
  queue n hn := by
    have hin := (OrderedSet.mem_insertAll.1 hn).resolve_left (OrderedSet.not_mem_empty n)
    exact List.mem_append_left _ hin
  good n := by
    rw [programStart_after]
    exact boundaries_tidy n

theorem programEquations_monotone (h : ∀ s, .stmt s ∈ programNodes g → Steady s.command) :
    Dataflow.Monotone (programEquations p g) (programNodes g) where
  entering n _ l l' b' hl hb' := by
    obtain ⟨flows', hf', rfl⟩ := entering_eq_ok hb'
    obtain ⟨flows, hf, hle⟩ := forall₂_of_mapM
      (x := fun e : Icfg.Edge => alongEdge p e (l e.source))
      (fun e b' hb' => alongEdge_mono (hl e.source) hb') hf'
    refine ⟨flows.foldl (fun t f => meetFact f t) ((boundaries p g).getD n ∅), ?_,
      ConstFact.foldl_meetFact_mono hle (le_refl _)⟩
    simp only [programEquations]
    rw [hf]
    rfl
  leaving n hn f g hfg := by
    simp only [programEquations, afterInterNode]
    split
    · exact hfg
    · refine afterNode_mono (fun s hs => ?_) hfg
      subst hs
      exact h s hn

/-- Only entries start with a fact, which flows into them again whenever they are recomputed. -/
theorem programStart_rising :
    Rising (programEquations p g) (programNodes g) (programStart p g) := by
  intro n _ b hb
  obtain ⟨flows, -, rfl⟩ := entering_eq_ok hb
  rw [programStart_after]
  rcases boundaries_cases (p := p) (g := g) n with h | ⟨m, rfl, -⟩
  · rw [h]
    exact ConstFact.empty_le _
  · exact ConstFact.le_foldl_meetFact _ _

theorem edge_of_entering_error {l : Node → ConstFact} {n : Node} {e : AnalysisError}
    (he : (programEquations p g).entering l n = .error e) :
    ∃ edge ∈ g.edges, alongEdge p edge (l edge.source) = .error e := by
  simp only [programEquations] at he
  cases hf : (g.inEdges n).mapM (fun e => alongEdge p e (l e.source)) with
  | ok flows =>
    rw [hf] at he
    cases he
  | error e' =>
    rw [hf] at he
    obtain rfl := Except.error.inj he
    obtain ⟨edge, hedge, herr⟩ := exists_of_mapM_error hf
    exact ⟨edge, List.mem_of_mem_filter hedge, herr⟩

theorem entering_error (h : Icfg.build p calls = .ok g) {l : Node → ConstFact} {n : Node}
    {e : AnalysisError} (he : (programEquations p g).entering l n = .error e) :
    ∃ s m given expected, e = .arity s m given expected := by
  obtain ⟨edge, hedge, herr⟩ := edge_of_entering_error he
  exact error_alongEdge (not_foreign h hedge) herr

theorem ofIcfg_ends_iff (h : Icfg.build p calls = .ok g) :
    (∃ bound r, (∀ fuel, bound ≤ fuel → ofIcfg fuel p g = r) ∧
      ((∃ sol, r = .ok sol) ∨ ∃ s m given expected, r = .error (.arity s m given expected))) ↔
      Settles (programEquations p g) (programStart p g) := by
  have hne : ∀ l n, (programEquations p g).entering l n ≠ .error .outOfFuel := fun l n he => by
    obtain ⟨s, m, given, expected, heq⟩ := entering_error h he
    cases heq
  rw [← finishes_iff_settles programEquations_bounded programStart_inside, finishes_iff_solve hne]
  constructor
  · rintro ⟨bound, r, hr, hkind⟩
    refine ⟨bound, r, fun heq => ?_, hr⟩
    rcases hkind with ⟨sol, rfl⟩ | ⟨s, m, given, expected, rfl⟩ <;> cases heq
  · rintro ⟨bound, r, hr, hsolve⟩
    refine ⟨bound, r, hsolve, ?_⟩
    cases r with
    | ok sol => exact .inl ⟨sol, rfl⟩
    | error e =>
      have hfuel : e ≠ .outOfFuel := fun heq => hr (congrArg Except.error heq)
      obtain ⟨l, n, he⟩ := entering_of_solve (hsolve bound (Nat.le_refl bound)) hfuel
      obtain ⟨s, m, given, expected, rfl⟩ := entering_error h he
      exact .inr ⟨s, m, given, expected, rfl⟩

theorem program_settles (h : Icfg.build p calls = .ok g) (hs : ∀ s, p.Has s → Steady s.command) :
    Settles (programEquations p g) (programStart p g) := by
  have hsteady : ∀ s, .stmt s ∈ programNodes g → Steady s.command := by
    intro s hin
    obtain ⟨m, -, hbody⟩ := stmt_of_mem_programNodes h hin
    exact hs s ⟨m, hbody⟩
  exact programStart_rising.settles programEquations_bounded (programEquations_monotone hsteady)
    programStart_inside

end Program

end ObjectFlow.Constants
