import ObjectFlow.Proofs.JoinedEdges
/-!
# Calls that do not fit

In the solver of a joined graph only a call can fail, and only by the number of its
arguments. Each node waits at the start, and what waits is taken in order, so a call
that does not fit fails before the nodes of the graph have all been taken once,
whatever else happens.
-/

namespace ObjectFlow

/-! ## Nodes that cannot be computed -/

namespace Dataflow

variable {ν φ ε : Type} [DecidableEq ν] {eqs : Equations ν φ ε} {st : State ν φ} {n : ν}

theorem run_of_pop {outOfFuel : ε} {fuel : Nat} {queue : WorkQueue ν}
    (h : st.queue.pop? = some (n, queue)) : run eqs outOfFuel (fuel + 1) st =
      visit eqs { st with queue := queue } n >>= run eqs outOfFuel fuel := by
  rw [run, h]

theorem visit_of_error {e : ε} (h : eqs.entering (st.after eqs) n = .error e) :
    visit eqs st n = .error e := by
  unfold visit
  show (eqs.entering (st.after eqs) n >>= _) = _
  rw [h]
  rfl

/-- Taking a node lets others join the queue behind those that wait. -/
theorem queue_of_visit {st' : State ν φ} (h : visit eqs st n = .ok st') :
    ∃ new, st'.queue.toList = st.queue.toList ++ new := by
  obtain ⟨before, -, ⟨-, -, hq⟩ | ⟨-, -, hq⟩⟩ := visit_eq_ok h
  · exact ⟨[], by rw [hq, List.append_nil]⟩
  · exact ⟨_, by rw [hq]; exact OrderedSet.toList_insertAll_eq _ _⟩

/-- If a waiting node can never be computed, the run fails there at the latest. -/
theorem run_fails {before rest : List ν} {fuel : Nat} (outOfFuel : ε)
    (hfail : ∀ l, ∃ e, eqs.entering l n = .error e)
    (hq : st.queue.toList = before ++ n :: rest) (hf : before.length < fuel) :
    ∃ l k e, eqs.entering l k = .error e ∧ run eqs outOfFuel fuel st = .error e := by
  induction before generalizing st rest fuel with
  | nil =>
    obtain ⟨fuel, rfl⟩ := Nat.exists_eq_succ_of_ne_zero (Nat.ne_of_gt hf)
    obtain ⟨queue, hpop, -⟩ := WorkQueue.pop?_of_toList hq
    obtain ⟨e, he⟩ := hfail (State.after eqs { st with queue := queue })
    refine ⟨_, n, e, he, ?_⟩
    rw [run_of_pop hpop, visit_of_error he]
    rfl
  | cons b before ih =>
    obtain ⟨fuel, rfl⟩ := Nat.exists_eq_succ_of_ne_zero (Nat.ne_of_gt (Nat.zero_lt_of_lt hf))
    obtain ⟨queue, hpop, hqueue⟩ := WorkQueue.pop?_of_toList hq
    rw [run_of_pop hpop]
    cases hv : visit eqs { st with queue := queue } b with
    | error e => exact ⟨_, b, e, visit_eq_error hv, rfl⟩
    | ok st' =>
      obtain ⟨new, hnew⟩ := queue_of_visit hv
      have hrest : st'.queue.toList = before ++ n :: (rest ++ new) := by
        rw [hnew, ← List.cons_append, ← List.append_assoc]
        exact congrArg (· ++ new) hqueue
      exact ih hrest (Nat.lt_of_succ_lt_succ hf)

end Dataflow

/-! ## Calls -/

/-- A call of a reachable method leads to a method whose body has another number of parameters than
there are arguments. -/
structure Mismatch (p : Program) (calls : PlainCallGraph) (s : CallSite) (callee : Method)
    (b : Body) : Prop where
  site : ∃ m ∈ calls.reachable, s ∈ p.callSites m
  edge : ∃ e ∈ calls.edges, e.site = s ∧ e.callee = callee
  body : p.body? callee = some b
  differ : s.call.args.length ≠ b.params.length

variable {p : Program} {calls : PlainCallGraph} {g : Icfg} {s : CallSite} {callee : Method}
  {b : Body}

theorem Mismatch.joins (h : Mismatch p calls s callee b) (hc : calls.Grouped) :
    Icfg.Joins p calls (.call s callee) := by
  obtain ⟨m, hm, hs⟩ := h.site
  exact .call hm (Icfg.site_mem_nodes.2 hs) ((CallGraph.mem_calleesOf hc).2 h.edge)

namespace Constants

open Dataflow

/-- Nothing can flow into the callee, whatever leaves the call. -/
theorem alongEdge_of_mismatch (h : Mismatch p calls s callee b) (f : ConstFact) :
    alongEdge p (.call s callee) f =
      .error (.arity s callee s.call.args.length b.params.length) := by
  simp only [alongEdge, intoCallee, h.body]
  exact if_pos h.differ

/-- Where nothing can flow along an edge, it is a call that does not fit. -/
theorem mismatch_of_alongEdge {e : Icfg.Edge} {f : ConstFact} {err : AnalysisError}
    (hc : calls.Grouped) (he : Icfg.Joins p calls e) (h : alongEdge p e f = .error err) :
    ∃ s callee b, Mismatch p calls s callee b ∧
      err = .arity s callee s.call.args.length b.params.length := by
  cases he with
  | normal => cases h
  | past => cases h
  | ret => cases h
  | @call m callee s hm hs hcalled =>
    simp only [alongEdge, intoCallee] at h
    cases hb : p.body? callee with
    | none =>
      rw [hb] at h
      cases h
    | some b =>
      rw [hb] at h
      dsimp only at h
      split at h
      · rename_i hdiffer
        exact ⟨s, callee, b, ⟨⟨m, hm, Icfg.site_mem_nodes.1 hs⟩,
          (CallGraph.mem_calleesOf hc).1 hcalled, hb, hdiffer⟩, (Except.error.inj h).symm⟩
      · cases h

section
variable (hc : calls.Grouped) (hg : Icfg.build p calls = .ok g)
include hc hg

theorem mismatch_of_entering {l : Node → ConstFact} {n : Node} {err : AnalysisError}
    (h : (programEquations p g).entering l n = .error err) :
    ∃ s callee b, Mismatch p calls s callee b ∧
      err = .arity s callee s.call.args.length b.params.length := by
  obtain ⟨e, he, herr⟩ := edge_of_entering_error h
  exact mismatch_of_alongEdge hc ((Icfg.mem_edges_iff hg).1 he) herr

/-- The entry of a method that is called with the wrong number of arguments can never be
computed. -/
theorem entering_of_mismatch (h : Mismatch p calls s callee b) (l : Node → ConstFact) :
    ∃ err, (programEquations p g).entering l (.entry callee) = .error err := by
  have hin : .call s callee ∈ g.inEdges (.entry callee) :=
    List.mem_filter.2 ⟨(Icfg.mem_edges_iff hg).2 (h.joins hc), decide_eq_true rfl⟩
  cases hm : (g.inEdges (.entry callee)).mapM (fun e => alongEdge p e (l e.source)) with
  | error err => exact ⟨err, by simp only [programEquations, hm]; rfl⟩
  | ok flows =>
    obtain ⟨f, -, hf⟩ := exists_mem_of_mapM hm hin
    rw [alongEdge_of_mismatch h] at hf
    cases hf

/-- The solver fails only by a call that does not fit. -/
theorem mismatch_of_ofIcfg {fuel : Nat} {err : AnalysisError} (h : ofIcfg fuel p g = .error err)
    (hne : err ≠ .outOfFuel) : ∃ s callee b, Mismatch p calls s callee b ∧
      err = .arity s callee s.call.args.length b.params.length := by
  obtain ⟨l, n, hentering⟩ := entering_of_solve h hne
  exact mismatch_of_entering hc hg hentering

/-- With a call that does not fit, the solver fails before it has taken more nodes than there
are. -/
theorem ofIcfg_fails (hp : p.Built) (h : Mismatch p calls s callee b) {fuel : Nat}
    (hf : g.nodes.size ≤ fuel) : ∃ s callee b, Mismatch p calls s callee b ∧
      ofIcfg fuel p g = .error (.arity s callee s.call.args.length b.params.length) := by
  have hqueue : (programStart p g).queue.toList = g.nodes.keys :=
    WorkQueue.toList_ofList g.nodes.nodup
  have hentry : .entry callee ∈ g.nodes.keys :=
    (Icfg.ends_mem_nodes hg hp ((Icfg.mem_edges_iff hg).2 (h.joins hc))).2
  obtain ⟨before, rest, hsplit⟩ := List.append_of_mem hentry
  have hlt : before.length < fuel := by
    have hlen : g.nodes.keys.length = g.nodes.size := List.length_map _
    rw [hsplit, List.length_append, List.length_cons] at hlen
    omega
  obtain ⟨l, n, err, hentering, hrun⟩ := run_fails AnalysisError.outOfFuel
    (entering_of_mismatch hc hg h) (hqueue.trans hsplit) hlt
  obtain ⟨s, callee, b, hmis, rfl⟩ := mismatch_of_entering hc hg hentering
  refine ⟨s, callee, b, hmis, ?_⟩
  show (run _ _ fuel (programStart p g)).map _ = _
  rw [hrun]
  rfl

end

end Constants

end ObjectFlow
