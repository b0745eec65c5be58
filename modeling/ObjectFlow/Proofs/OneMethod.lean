import ObjectFlow.Proofs.BodyConstants
import ObjectFlow.Proofs.JoinedEdges
/-!
# A graph of one method

If nothing but one entry method without calls is reachable, the solver of the joined
graph takes the entry once, which changes nothing, and from then on does what the
solver of the method does, node by node. So both come to an end or neither does, and
they end with the same facts.
-/

namespace ObjectFlow

/-! ## Two solvers side by side -/

namespace Dataflow

section
variable {ν φ ε : Type} [DecidableEq ν] {eqs eqs' : Equations ν φ ε} {nodes known : List ν}
  {st st' : State ν φ} {n : ν}

/-- Two systems of equations that say the same of some nodes, where only known facts are read. -/
structure Agree (eqs eqs' : Equations ν φ ε) (nodes known : List ν) : Prop where
  subset : ∀ n ∈ nodes, n ∈ known
  entering : ∀ n ∈ nodes, ∀ l l', (∀ k ∈ known, l k = l' k) →
    eqs.entering l n = eqs'.entering l' n
  leaving : ∀ n ∈ nodes, ∀ f, eqs.leaving n f = eqs'.leaving n f
  dependents : ∀ n ∈ nodes, eqs.dependents n = eqs'.dependents n
  closed : ∀ n ∈ nodes, ∀ k ∈ eqs.dependents n, k ∈ nodes
  same : eqs.same = eqs'.same

/-- Two states in which the same nodes wait, with the same facts. -/
structure Alike (eqs eqs' : Equations ν φ ε) (nodes known : List ν) (st st' : State ν φ) :
    Prop where
  queue : st.queue = st'.queue
  waits : ∀ n ∈ st.queue.toList, n ∈ nodes
  after : ∀ n ∈ known, st.after eqs n = st'.after eqs' n
  before : ∀ n ∈ nodes, (st.solution eqs).factBefore n = (st'.solution eqs').factBefore n

/-- Two results that both are values, related ones, or both the same error. -/
def Both {α β : Type} (R : α → β → Prop) : Except ε α → Except ε β → Prop
  | .ok a, .ok b => R a b
  | .error e, .error e' => e = e'
  | _, _ => False

section
variable {α β : Type} {R : α → β → Prop}

theorem Both.ok_left {a : α} {y : Except ε β} (h : Both R (.ok a) y) : ∃ b, y = .ok b ∧ R a b := by
  cases y with
  | error e => exact h.elim
  | ok b => exact ⟨b, rfl, h⟩

theorem Both.ok_right {x : Except ε α} {b : β} (h : Both R x (.ok b)) : ∃ a, x = .ok a ∧ R a b := by
  cases x with
  | error e => exact h.elim
  | ok a => exact ⟨a, rfl, h⟩

theorem Both.of_eq {x y : Except ε α} (h : x = y) : Both Eq x y := by
  subst h
  cases x <;> rfl

theorem Both.map {γ δ : Type} {S : γ → δ → Prop} {x : Except ε α} {y : Except ε β} {f : α → γ}
    {g : β → δ} (h : Both R x y) (hfg : ∀ a b, R a b → S (f a) (g b)) :
    Both S (x.map f) (y.map g) := by
  cases x with
  | error e =>
    cases y with
    | error e' => exact h
    | ok b => exact h.elim
  | ok a =>
    obtain ⟨b, rfl, hab⟩ := h.ok_left
    exact hfg a b hab

theorem Both.bind {γ δ : Type} {S : γ → δ → Prop} {x : Except ε α}
    {y : Except ε β} {f : α → Except ε γ} {g : β → Except ε δ} (h : Both R x y)
    (hfg : ∀ a b, R a b → Both S (f a) (g b)) : Both S (x >>= f) (y >>= g) := by
  cases x with
  | error e =>
    cases y with
    | error e' => exact h
    | ok b => exact h.elim
  | ok a =>
    obtain ⟨b, rfl, hab⟩ := h.ok_left
    exact hfg a b hab

end

/-- Taking a node from two states that are alike fails in both or leads to states that are. -/
theorem Alike.visit (ha : Agree eqs eqs' nodes known) (h : Alike eqs eqs' nodes known st st')
    (hn : n ∈ nodes) : Both (Alike eqs eqs' nodes known) (visit eqs st n) (visit eqs' st' n) := by
  refine (Both.of_eq (ha.entering n hn _ _ h.after)).bind fun fact fact' heq => ?_
  subst heq
  have hbefore : ∀ k ∈ nodes, (st.entering.insert n fact).getD k eqs.initial =
      (st'.entering.insert n fact).getD k eqs'.initial := by
    intro k hk
    rw [OrderedMap.getD_insert, OrderedMap.getD_insert]
    split
    · rfl
    · exact h.before k hk
  have hafter : st.leaving.getD n eqs.initial = st'.leaving.getD n eqs'.initial :=
    h.after n (ha.subset n hn)
  have hsame : eqs.same (st.leaving.getD n eqs.initial) (eqs.leaving n fact) =
      eqs'.same (st'.leaving.getD n eqs'.initial) (eqs'.leaving n fact) := by
    rw [ha.same, ha.leaving n hn, hafter]
  dsimp only
  by_cases hs : eqs.same (st.leaving.getD n eqs.initial) (eqs.leaving n fact)
  · rw [if_pos hs, if_pos (hsame ▸ hs)]
    exact ⟨h.queue, h.waits, h.after, hbefore⟩
  · rw [if_neg hs, if_neg (hsame ▸ hs)]
    refine ⟨?_, fun k hk => ?_, fun k hk => ?_, hbefore⟩
    · show st.queue.pushAll _ = st'.queue.pushAll _
      rw [h.queue, ha.dependents n hn]
    · rcases OrderedSet.mem_insertAll.1 hk with hk | hk
      · exact h.waits k hk
      · exact ha.closed n hn k hk
    · show (st.leaving.insert n _).getD k _ = (st'.leaving.insert n _).getD k _
      rw [OrderedMap.getD_insert, OrderedMap.getD_insert, ha.leaving n hn]
      split
      · rfl
      · exact h.after k hk

/-- From two states that are alike, both runs use up their fuel, or both fail, or they end in states
that are alike. -/
theorem Alike.run (ha : Agree eqs eqs' nodes known) (outOfFuel : ε) (fuel : Nat)
    (h : Alike eqs eqs' nodes known st st') : Both (Alike eqs eqs' nodes known)
      (run eqs outOfFuel fuel st) (run eqs' outOfFuel fuel st') := by
  induction fuel generalizing st st' with
  | zero =>
    unfold Dataflow.run
    rw [← h.queue]
    cases st.queue.pop? with
    | none => exact h
    | some x => exact rfl
  | succ fuel ih =>
    unfold Dataflow.run
    rw [← h.queue]
    cases hq : st.queue.pop? with
    | none => exact h
    | some x =>
      obtain ⟨n, queue⟩ := x
      have hlist := WorkQueue.toList_eq_of_pop? hq
      have hn : n ∈ nodes := h.waits n (hlist ▸ List.mem_cons_self)
      have hrest : Alike eqs eqs' nodes known { st with queue := queue }
          { st' with queue := queue } :=
        ⟨rfl, fun k hk => h.waits k (hlist ▸ List.mem_cons_of_mem _ hk), h.after, h.before⟩
      have hvisit := hrest.visit ha hn
      exact hvisit.bind fun t t' ht => ih ht

/-- Two solutions with the same facts after all known nodes and before those that were solved. -/
structure SameFacts (nodes known : List ν) (sol sol' : Solution ν φ) : Prop where
  after : ∀ n ∈ known, sol.factAfter n = sol'.factAfter n
  before : ∀ n ∈ nodes, sol.factBefore n = sol'.factBefore n

theorem Alike.solve (ha : Agree eqs eqs' nodes known) (h : Alike eqs eqs' nodes known st st')
    (outOfFuel : ε) (fuel : Nat) : Both (SameFacts nodes known)
      (solve eqs outOfFuel fuel st) (solve eqs' outOfFuel fuel st') :=
  (h.run ha outOfFuel fuel).map fun _ _ ht => ⟨ht.after, ht.before⟩

end

end Dataflow

/-! ## The graph of one method -/

section Graph
variable {p : Program} {calls : PlainCallGraph} {g : Icfg} {m : Method}

/-- A call graph in which one method is reachable, which starts the run and calls nothing. -/
structure Alone (p : Program) (calls : PlainCallGraph) (m : Method) : Prop where
  entry : m ∈ calls.entries
  reachable : ∀ m', m' ∈ calls.reachable ↔ m' = m
  callless : p.callSites m = []

namespace Alone

variable (h : Alone p calls m)
include h

theorem nodesOf_eq : Icfg.nodesOf p calls = (Cfg.ofMethod p m).nodes := by
  rw [Icfg.nodesOf, OrderedSet.toList_eq_singleton h.reachable, List.flatMap_singleton]

theorem not_call {n : Node} (hn : n ∈ (Cfg.ofMethod p m).nodes) : n.callSite? = none := by
  cases hc : n.callSite? with
  | none => rfl
  | some s =>
    obtain rfl := Node.callSite?_eq_some.1 hc
    have hs := Icfg.site_mem_nodes.1 hn
    rw [h.callless] at hs
    cases hs

theorem exists_joined : ∃ g, Icfg.build p calls = .ok g := by
  apply Icfg.build_ok
  intro s callee hj
  cases hj with
  | call hm hs =>
    obtain rfl := (h.reachable _).1 hm
    cases h.not_call hs

section Built
variable (hp : p.Built) (hg : Icfg.build p calls = .ok g)
include hp hg

/-- The joined graph has the edges of the method, in the same order. -/
theorem edges_eq : g.edges =
    (Cfg.ofMethod p m).edges.map fun e => .normal e.source e.target := by
  rw [Icfg.edges_eq hp hg, h.nodesOf_eq, ← Cfg.flatMap_outEdges hp m, List.map_flatMap]
  refine List.flatMap_congr fun n hn => ?_
  rw [Icfg.nodeEdges, h.not_call hn, Cfg.method_of_mem_nodes hp hn, Cfg.succs, List.map_map]
  refine List.map_congr_left fun e he => ?_
  rw [← of_decide_eq_true (List.mem_filter.1 he).2]
  rfl

theorem inEdges_eq (n : Node) : g.inEdges n =
    ((Cfg.ofMethod p m).inEdges n).map fun e => .normal e.source e.target := by
  rw [Icfg.inEdges, h.edges_eq hp hg, List.filter_map]
  rfl

theorem succs_eq (n : Node) : g.succs n = (Cfg.ofMethod p m).succs n := by
  rw [Icfg.succs, Icfg.outEdges, h.edges_eq hp hg, List.filter_map, List.map_map]
  rfl

theorem keys_eq : g.nodes.keys = (Cfg.ofMethod p m).nodes :=
  (Icfg.keys_nodes hp hg).trans h.nodesOf_eq

end Built

end Alone

end Graph

/-! ## The equations of both solvers -/

namespace Constants

open Dataflow

section
variable {p : Program} {calls : PlainCallGraph} {g : Icfg} {m : Method}

/-- The nodes of a method that the solver of the method takes. -/
def takenNodes (p : Program) (m : Method) : List Node :=
  (Cfg.ofMethod p m).nodes.filter fun n => decide (n ≠ (Cfg.ofMethod p m).entry)

/-- No other node of a method than its entry has a boundary. -/
theorem boundaries_taken (hp : p.Built) {n : Node} (hn : n ∈ takenNodes p m) :
    (boundaries p g).getD n ∅ = ∅ := by
  obtain ⟨hin, hne⟩ := List.mem_filter.1 hn
  rcases boundaries_cases (p := p) (g := g) n with h | ⟨m', rfl, -⟩
  · exact h
  · obtain rfl : m' = m := Cfg.method_of_mem_nodes hp hin
    exact absurd (Cfg.entry_ofMethod hp.method).symm (of_decide_eq_true hne)

variable (h : Alone p calls m) (hp : p.Built) (hg : Icfg.build p calls = .ok g)
include h hp hg

/-- Except at the entry, the equations of the joined graph are those of the method. -/
theorem equations_agree : Agree (methodEquations (Cfg.ofMethod p m)) (programEquations p g)
    (takenNodes p m) (Cfg.ofMethod p m).nodes where
  subset n hn := List.mem_of_mem_filter hn
  entering n hn l l' hl := by
    have hflows : (g.inEdges n).mapM (fun e => alongEdge p e (l' e.source)) =
        .ok (((Cfg.ofMethod p m).preds n).map l) := by
      rw [h.inEdges_eq hp hg, List.mapM_map, Cfg.preds, List.map_map]
      refine (mapM_congr fun e he => ?_).trans List.mapM_pure
      have hsource := Cfg.source_mem_nodes hp (List.mem_of_mem_filter he)
      exact congrArg Except.ok (hl _ hsource).symm
    show Except.ok (meetAll (((Cfg.ofMethod p m).preds n).map l)) = do
      let flows ← (g.inEdges n).mapM fun e => alongEdge p e (l' e.source)
      pure (flows.foldl (fun t f => meetFact f t) ((boundaries p g).getD n ∅))
    rw [hflows, boundaries_taken hp hn]
    rfl
  leaving n hn f := by
    show afterNode n f = afterInterNode n f
    rw [afterInterNode, h.not_call (List.mem_of_mem_filter hn)]
  dependents n _ := (h.succs_eq hp hg n).symm
  closed n _ k hk := by
    refine List.mem_filter.2 ⟨Cfg.mem_nodes_of_mem_succs hk, decide_eq_true ?_⟩
    rw [Cfg.entry_ofMethod hp.method]
    exact Cfg.not_entry_of_mem_succs hk m
  same := rfl

/-- Nothing flows into the entry, so recomputing it gives its boundary again. -/
theorem entering_entry (l : Node → ConstFact) :
    (programEquations p g).entering l (.entry m) = .ok (boundary p m) := by
  have hnone : (Cfg.ofMethod p m).inEdges (.entry m) = [] := by
    refine List.filter_eq_nil_iff.2 fun e he => ?_
    rw [decide_eq_true_eq]
    exact Cfg.not_entry_of_mem_succs (Cfg.mem_succs.2 ⟨e, he, rfl, rfl⟩) m
  have hentry : m ∈ g.callGraph.entries := by
    rw [Icfg.callGraph_of_build hg]
    exact h.entry
  simp only [programEquations, h.inEdges_eq hp hg, hnone, List.map_nil, List.mapM_nil]
  exact congrArg Except.ok (OrderedMap.getD_of_get? (boundaries_get? hentry))

omit h hg in
theorem nodes_eq_cons : (Cfg.ofMethod p m).nodes = .entry m :: takenNodes p m := by
  have hnodup := Cfg.nodes_nodup hp m
  obtain ⟨rest, hrest⟩ : ∃ rest, (Cfg.ofMethod p m).nodes = .entry m :: rest := by
    cases hb : p.body? m with
    | none =>
      rw [Cfg.ofMethod_eq_withoutBody hb]
      exact ⟨_, rfl⟩
    | some b =>
      rw [Cfg.ofMethod_eq hb, ← hp.method hb]
      exact ⟨_, rfl⟩
  rw [hrest] at hnodup
  rw [takenNodes, Cfg.entry_ofMethod hp.method, hrest, List.filter_cons_of_neg (by simp),
    List.filter_eq_self.2 fun n hn => ?_]
  refine decide_eq_true fun heq => ?_
  exact (List.nodup_cons.1 hnodup).1 (heq ▸ hn)

/-- The entry is taken first. -/
theorem programStart_pop : (programStart p g).queue.pop? =
    some (.entry m, (methodStart p m).queue) := by
  show (WorkQueue.ofList g.nodes.keys).pop? = some (.entry m, WorkQueue.ofList (takenNodes p m))
  have hnodup := Cfg.nodes_nodup hp m
  rw [nodes_eq_cons hp] at hnodup
  rw [h.keys_eq hp hg, nodes_eq_cons hp]
  exact WorkQueue.pop?_ofList_cons hnodup

/-- Taking the entry changes nothing, so that the other nodes wait with the facts with which the
solver of the method starts. -/
theorem alike_of_visit {st : State Node ConstFact} (hv : visit (programEquations p g)
    { programStart p g with queue := (methodStart p m).queue } (.entry m) = .ok st) :
    Alike (methodEquations (Cfg.ofMethod p m)) (programEquations p g) (takenNodes p m)
      (Cfg.ofMethod p m).nodes (methodStart p m) st := by
  have hentry : (Cfg.ofMethod p m).entry = .entry m := Cfg.entry_ofMethod hp.method
  have hstart : ∀ n ∈ (Cfg.ofMethod p m).nodes,
      (programStart p g).after (programEquations p g) n =
        if n = .entry m then boundary p m else ∅ := by
    intro n hn
    rw [programStart_after]
    split
    · rename_i heq
      rw [heq, OrderedMap.getD_of_get? (boundaries_get? _)]
      rw [Icfg.callGraph_of_build hg]
      exact h.entry
    · rename_i hne
      exact boundaries_taken hp (List.mem_filter.2 ⟨hn, decide_eq_true (hentry ▸ hne)⟩)
  have hin : .entry m ∈ (Cfg.ofMethod p m).nodes := nodes_eq_cons hp ▸ List.mem_cons_self
  obtain ⟨b, hb, hcase⟩ := visit_eq_ok hv
  obtain rfl := Except.ok.inj (hb.symm.trans (entering_entry h hp hg _))
  have hsame : (programStart p g).after (programEquations p g) (.entry m) = boundary p m := by
    rw [hstart _ hin, if_pos rfl]
  rcases hcase with ⟨-, hl, hq⟩ | ⟨hdiff, -, -⟩
  · refine ⟨hq.symm, fun n hn => ?_, fun n hn => ?_, fun n hn => ?_⟩
    · exact (OrderedSet.mem_insertAll.1 hn).resolve_left (OrderedSet.not_mem_empty n)
    · rw [methodStart_after, hentry, ← hstart n hn, State.after, State.after, hl]
    · have hne : n ≠ .entry m := hentry ▸ of_decide_eq_true (List.mem_filter.1 hn).2
      show (OrderedMap.ofList _).getD n ∅ = st.entering.getD n ∅
      rw [entering_of_visit hv hb, OrderedMap.getD_insert, if_neg hne]
      show _ = ((OrderedMap.ofList _).insertAll (boundaries p g).entries).getD n ∅
      rw [OrderedMap.getD_insertAll_entries]
      have hempty : ∀ l : List Node,
          (OrderedMap.ofList (l.map fun k => (k, (∅ : ConstFact)))).getD n ∅ = ∅ :=
        fun l => OrderedMap.getD_ofList_const l n ∅
      exact (hempty _).trans ((congrArg _ (hempty _)).trans (boundaries_taken hp hn)).symm
  · refine absurd ?_ hdiff
    show ((programStart p g).after (programEquations p g) (.entry m)).sameAs (boundary p m) = true
    rw [hsame]
    exact Fact.sameAs_refl _

/-- With one more node granted, the solver of the joined graph does what that of the method does. -/
theorem solves_alike (fuel : Nat) : Both (SameFacts (takenNodes p m) (Cfg.ofMethod p m).nodes)
    (ofMethod fuel p m) (ofIcfg (fuel + 1) p g) := by
  have hpop := programStart_pop h hp hg
  cases hv : visit (programEquations p g)
      { programStart p g with queue := (methodStart p m).queue } (.entry m) with
  | error e =>
    have herror := visit_eq_error hv
    rw [entering_entry h hp hg] at herror
    cases herror
  | ok st =>
    have hsolve := (alike_of_visit h hp hg hv).solve (equations_agree h hp hg) .outOfFuel fuel
    have hfirst : ofIcfg (fuel + 1) p g = solve (programEquations p g) .outOfFuel fuel st := by
      show (run _ _ (fuel + 1) (programStart p g)).map _ = (run _ _ fuel st).map _
      rw [run, hpop]
      dsimp only
      rw [hv]
      rfl
    rw [hfirst]
    exact hsolve

/-- No edge of the joined graph is a call, so none can fail. -/
theorem outOfFuel_of_error {fuel : Nat} {e : AnalysisError}
    (he : ofIcfg fuel p g = .error e) : e = .outOfFuel := by
  by_contra hne
  obtain ⟨l, n, hentering⟩ := entering_of_solve he hne
  obtain ⟨edge, hedge, herror⟩ := edge_of_entering_error hentering
  rw [h.edges_eq hp hg] at hedge
  obtain ⟨e', -, rfl⟩ := List.mem_map.1 hedge
  cases herror

end

section
variable {p : Program} {calls : PlainCallGraph} {m : Method}

/-- If only one entry method is reachable and calls nothing, the joined graph can be built. The
solver returns on it exactly if it returns on the method, and fails on neither. The facts are the
same, but for the one before the entry, which only the joined graph has. -/
theorem across_eq_within (hp : p.Built) (h : Alone p calls m) : ∃ g, Icfg.build p calls = .ok g ∧
    ((∃ fuel sol, ofIcfg fuel p g = .ok sol) ↔ ∃ fuel alone, ofMethod fuel p m = .ok alone) ∧
    (∀ fuel e, ofIcfg fuel p g = .error e → e = .outOfFuel) ∧
    ∀ fuel fuel' sol alone, ofIcfg fuel p g = .ok sol → ofMethod fuel' p m = .ok alone →
      ∀ n ∈ (Cfg.ofMethod p m).nodes, sol.factAfter n = alone.factAfter n ∧
        (n ≠ .entry m → sol.factBefore n = alone.factBefore n) := by
  obtain ⟨g, hg⟩ := h.exists_joined
  have hlock := solves_alike h hp hg
  refine ⟨g, hg, ⟨?_, ?_⟩, fun fuel e he => outOfFuel_of_error h hp hg he, ?_⟩
  · rintro ⟨fuel, sol, hsol⟩
    obtain ⟨bound, hstays⟩ := solve_stays hsol
    have hboth := hlock bound
    have hmore : ofIcfg (bound + 1) p g = .ok sol := hstays _ (Nat.le_succ bound)
    rw [hmore] at hboth
    obtain ⟨alone, halone, -⟩ := hboth.ok_right
    exact ⟨bound, alone, halone⟩
  · rintro ⟨fuel, alone, halone⟩
    have hboth := hlock fuel
    rw [halone] at hboth
    obtain ⟨sol, hsol, -⟩ := hboth.ok_left
    exact ⟨fuel + 1, sol, hsol⟩
  · intro fuel fuel' sol alone hsol halone n hn
    obtain ⟨bound, hstays⟩ := solve_stays hsol
    obtain ⟨bound', hstays'⟩ := solve_stays halone
    -- both have returned when so many nodes are granted
    have hboth := hlock (max bound bound')
    have hacross : ofIcfg (max bound bound' + 1) p g = .ok sol :=
      hstays _ ((Nat.le_max_left _ _).trans (Nat.le_succ _))
    have hwithin : ofMethod (max bound bound') p m = .ok alone := hstays' _ (Nat.le_max_right _ _)
    rw [hacross, hwithin] at hboth
    refine ⟨(hboth.after n hn).symm, fun hne => (hboth.before n ?_).symm⟩
    rw [nodes_eq_cons hp] at hn
    exact (List.mem_cons.1 hn).resolve_left hne

end

/-! ### Counting down -/

namespace Countdown

def draft : Draft := ⟨main, none, [n], [n, k], [.literal k 2, .binary n .sub (.var n) (.var k),
  .branch .gt (.var n) (.literal 0) "lower", .ret none], OrderedMap.ofList [("lower", 1)], false⟩

theorem draft_built : draft.Built := by
  have hstart : Draft.Built ⟨main, none, [n], [n], [], ∅, false⟩ :=
    .start (show Draft.start main (some ["n"]) = .ok _ from rfl)
  have hk : Draft.Built ⟨main, none, [n], [n, k], [], ∅, false⟩ := hstart.addVar
  have hset : Draft.Built ⟨main, none, [n], [n, k], [.literal k 2], ∅, false⟩ :=
    hk.append (show Draft.append _ _ = .ok _ from rfl)
  have hmark : Draft.Built
      ⟨main, none, [n], [n, k], [.literal k 2], OrderedMap.ofList [("lower", 1)], false⟩ :=
    hset.mark (show Draft.mark _ "lower" = .ok _ from rfl)
  exact hmark.appendAll rfl

theorem program_built : program.Built where
  hierarchy := .empty
  body hb := by
    obtain ⟨-, rfl⟩ := Prod.mk.inj (List.mem_singleton.1 (OrderedMap.mem_entries_iff.2 hb))
    exact .finish draft_built rfl
  method hb := by
    obtain ⟨rfl, rfl⟩ := Prod.mk.inj (List.mem_singleton.1 (OrderedMap.mem_entries_iff.2 hb))
    rfl

theorem alone : Alone program (CallGraph.empty.addEntry main) main where
  entry := by decide
  reachable m' := by simp [CallGraph.addEntry, CallGraph.empty]
  callless := rfl

/-- The loop is solved alike on both graphs, and its step is known to be two. -/
theorem across_eq_within_countdown :
    (program.Built ∧ Alone program (CallGraph.empty.addEntry main) main) ∧
    ∃ g sol within, Icfg.build program (CallGraph.empty.addEntry main) = .ok g ∧
      ofIcfg 20 program g = .ok sol ∧ ofMethod 20 program main = .ok within ∧
      sol.factBefore (.stmt test) = within.factBefore (.stmt test) ∧
      (within.factBefore (.stmt test)).get k = .const 2 := by
  obtain ⟨g, hg, -, -, hfacts⟩ := across_eq_within program_built alone
  obtain ⟨g', sol, hg', hsol⟩ : ∃ g sol,
      Icfg.build program (CallGraph.empty.addEntry main) = .ok g ∧ ofIcfg 20 program g = .ok sol :=
    ⟨_, _, rfl, rfl⟩
  obtain rfl := Except.ok.inj (hg.symm.trans hg')
  obtain ⟨within, hwithin, hk⟩ : ∃ within, ofMethod 20 program main = .ok within ∧
      (within.factBefore (.stmt test)).get k = .const 2 := ⟨_, rfl, rfl⟩
  have htest := (hfacts 20 20 sol within hsol hwithin (.stmt test) (by decide)).2 (by decide)
  exact ⟨⟨program_built, alone⟩, g, sol, within, hg, hsol, hwithin, htest, hk⟩

end Countdown

end Constants

end ObjectFlow
