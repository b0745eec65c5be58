import ObjectFlow.Proofs.Schedules
/-!
# The least constants

If nothing is divided and all calls pass what their callees expect, the facts of
a joined graph only rise. Then the solver returns the least solution of the
equations, and would return the same in whatever order it took the nodes.
-/

namespace ObjectFlow

/-- No statement of a reachable method divides. -/
def NoDivision (p : Program) (calls : PlainCallGraph) : Prop :=
  ∀ m ∈ calls.reachable, ∀ b, p.body? m = some b → ∀ s ∈ b.stmts, s.command.divides = false

/-- Along every edge as many arguments are passed as the body of the callee has parameters. -/
def ArgumentsMatch (p : Program) (calls : PlainCallGraph) : Prop :=
  ∀ e ∈ calls.edges, ∀ b, p.body? e.callee = some b →
    e.site.call.args.length = b.params.length

/-- Each call of a reachable method passes as many arguments as the bodies of its callees have
parameters. -/
def CallsFit (p : Program) (calls : PlainCallGraph) : Prop :=
  ∀ s callee, Icfg.Joins p calls (.call s callee) → ∀ b, p.body? callee = some b →
    s.call.args.length = b.params.length

theorem ArgumentsMatch.callsFit {p : Program} {calls : PlainCallGraph} (hg : calls.Grouped)
    (ha : ArgumentsMatch p calls) : CallsFit p calls := by
  intro s callee hj b hb
  cases hj with
  | call _ _ hcalled =>
    obtain ⟨e, he, rfl, rfl⟩ := (CallGraph.mem_calleesOf hg).1 hcalled
    exact ha e he b hb

namespace Constants

open Dataflow

/-- At some nodes the facts of one solution lie below those of another. -/
def BelowAt (nodes : List Node) (sol other : Solution Node ConstFact) : Prop :=
  ∀ n ∈ nodes, sol.factBefore n ≤ other.factBefore n ∧ sol.factAfter n ≤ other.factAfter n

/-- At some nodes two solutions have the same facts. -/
def AgreeAt (nodes : List Node) (sol other : Solution Node ConstFact) : Prop :=
  ∀ n ∈ nodes, (sol.factBefore n).sameAs (other.factBefore n) ∧
    (sol.factAfter n).sameAs (other.factAfter n)

/-- The state in which the solver starts if the nodes wait in another order. -/
def startInOrder (p : Program) (g : Icfg) (order : List Node) : State Node ConstFact :=
  .start (programEquations p g) g.nodes.keys (boundaries p g).entries (boundaries p g).entries order

section
variable {p : Program} {calls : PlainCallGraph} {g : Icfg} {sol : Solution Node ConstFact}

theorem alongEdge_ok {e : Icfg.Edge} (hf : CallsFit p calls) (he : Icfg.Joins p calls e)
    (f : ConstFact) : ∃ b, alongEdge p e f = .ok b := by
  cases he with
  | normal => exact ⟨_, rfl⟩
  | past => exact ⟨_, rfl⟩
  | ret => exact ⟨_, rfl⟩
  | call hm hs hcalled =>
    simp only [alongEdge, intoCallee]
    split
    · exact ⟨_, rfl⟩
    · rename_i b hb
      rw [if_neg (not_not.2 (hf _ _ (.call hm hs hcalled) b hb))]
      exact ⟨_, rfl⟩

theorem build_of_callees (hg : calls.Grouped) (hc : ∀ e ∈ calls.edges, e.callee ∈ calls.reachable) :
    ∃ g, Icfg.build p calls = .ok g := by
  apply Icfg.build_ok
  intro s m hj
  cases hj with
  | call _ _ hcalled =>
    obtain ⟨e, he, -, rfl⟩ := (CallGraph.mem_calleesOf hg).1 hcalled
    exact hc e he

theorem build_of_closed (hc : calls.Closed) : ∃ g, Icfg.build p calls = .ok g :=
  build_of_callees hc.grouped hc.callee

section Built
variable (hg : Icfg.build p calls = .ok g)
include hg

/-- Only nodes of the graph ever wait. -/
theorem mem_nodes_of_mem_programNodes (hm : ∀ {m b}, p.body? m = some b → b.method = m) {n : Node}
    (hn : n ∈ programNodes g) : n ∈ g.nodes.keys := by
  rcases node_of_mem_programNodes hg hn with ⟨m, hreach, rfl⟩ | hin
  · exact Icfg.mem_nodes_of_build hg hreach (Cfg.entry_mem_ofMethod hm)
  · exact (Icfg.mem_nodes_iff hg).2 hin

theorem monotone_of_noDivision (hd : NoDivision p calls) :
    Dataflow.Monotone (programEquations p g) (programNodes g) := by
  apply programEquations_monotone
  intro s hs
  obtain ⟨m, hm, b, hb, hin⟩ := stmt_of_mem_programNodes hg hs
  exact steady_of_not_divides (hd m hm b hb s hin)

theorem entering_ok (hf : CallsFit p calls) (l : Node → ConstFact) (n : Node) :
    ∃ b, (programEquations p g).entering l n = .ok b := by
  cases he : (programEquations p g).entering l n with
  | ok b => exact ⟨b, rfl⟩
  | error e =>
    obtain ⟨edge, hedge, herr⟩ := edge_of_entering_error he
    obtain ⟨b, hok⟩ := alongEdge_ok hf ((Icfg.mem_edges_iff hg).1 hedge) (l edge.source)
    rw [hok] at herr
    cases herr

end Built

/-- A solution lies above what its nodes start with. -/
theorem SolvesProgram.startFact_le (hsol : SolvesProgram p g sol) {n : Node}
    (hn : n ∈ g.nodes.keys) : startFact p g n ≤ sol.factAfter n := by
  cases n with
  | entry m =>
    obtain ⟨flows, -, hmeet⟩ := hsol.entering _ hn
    calc startFact p g (.entry m) ≤ sol.factBefore (.entry m) := hmeet.le List.mem_cons_self
      _ ≤ sol.factAfter (.entry m) := fun v =>
          le_of_eq (Fact.get_eq_of_sameAs (hsol.leaving _ hn) v).symm
  | _ => exact ConstFact.empty_le _

theorem startFact_mono {g' : Icfg}
    (h : ∀ m ∈ g.callGraph.entries, m ∈ g'.callGraph.entries) (n : Node) :
    startFact p g n ≤ startFact p g' n := by
  cases n with
  | entry m =>
    simp only [startFact]
    split
    · rename_i hm
      rw [if_pos (h m hm)]
    · exact ConstFact.empty_le _
  | _ => exact le_refl _

/-- The equations of a graph do not lead above the solutions of a graph that has all its edges. -/
theorem bounds_of_solution {g' : Icfg} (hnodes : ∀ n ∈ programNodes g, n ∈ g'.nodes.keys)
    (hedges : ∀ e ∈ g.edges, e ∈ g'.edges)
    (hentries : ∀ m ∈ g.callGraph.entries, m ∈ g'.callGraph.entries)
    (hsol : SolvesProgram p g' sol) :
    Bounds (programEquations p g) (programNodes g) sol.factBefore sol.factAfter := by
  constructor
  · intro n hn
    obtain ⟨flows', hflows', hmeet⟩ := hsol.entering n (hnodes n hn)
    -- what flows in along an edge of the one graph flows in along the same edge of the other
    have hin : ∀ e ∈ g.inEdges n, ∃ f ∈ flows', alongEdge p e (sol.factAfter e.source) = .ok f := by
      intro e he
      obtain ⟨hedge, htarget⟩ := List.mem_filter.1 he
      have he' : e ∈ g'.inEdges n := List.mem_filter.2 ⟨hedges e hedge, htarget⟩
      obtain ⟨f, hf, hflow⟩ := exists_mem_of_mapM hflows' he'
      exact ⟨f, hf, hflow⟩
    simp only [programEquations]
    cases hflows : (g.inEdges n).mapM (fun e => alongEdge p e (sol.factAfter e.source)) with
    | error e =>
      obtain ⟨edge, hedge, herr⟩ := exists_of_mapM_error hflows
      obtain ⟨f, -, hok⟩ := hin edge hedge
      rw [herr] at hok
      cases hok
    | ok flows =>
      refine ⟨_, rfl, ?_⟩
      rw [boundaries_getD]
      apply ConstFact.foldl_meetFact_le
      · exact (startFact_mono hentries n).trans (hmeet.le List.mem_cons_self)
      · intro f hf
        obtain ⟨e, he, hflow⟩ := exists_of_mem_mapM hflows hf
        obtain ⟨f', hf', hflow'⟩ := hin e he
        obtain rfl := Except.ok.inj (hflow.symm.trans hflow')
        exact hmeet.le (List.mem_cons_of_mem _ hf')
  · intro n hn v
    exact le_of_eq (Fact.get_eq_of_sameAs (hsol.leaving n (hnodes n hn)) v).symm

/-! ## Graphs with rising facts -/

/-- A joined graph in which nothing is divided and all calls fit. -/
structure Tame (p : Program) (calls : PlainCallGraph) (g : Icfg) : Prop where
  built : Icfg.build p calls = .ok g
  closed : calls.Closed
  method : ∀ {m b}, p.body? m = some b → b.method = m
  undivided : NoDivision p calls
  matching : ArgumentsMatch p calls

namespace Tame

variable (h : Tame p calls g)
include h

theorem entries : g.callGraph.entries = calls.entries := by rw [Icfg.callGraph_of_build h.built]

theorem entry_mem_nodes {m : Method} (hm : m ∈ calls.reachable) : .entry m ∈ g.nodes.keys :=
  Icfg.mem_nodes_of_build h.built hm (Cfg.entry_mem_ofMethod h.method)

theorem mem_nodes {n : Node} (hn : n ∈ programNodes g) : n ∈ g.nodes.keys :=
  mem_nodes_of_mem_programNodes h.built h.method hn

theorem monotone : Dataflow.Monotone (programEquations p g) (programNodes g) :=
  monotone_of_noDivision h.built h.undivided

theorem total : Total (programEquations p g) (programNodes g) := fun l n _ =>
  entering_ok h.built (h.matching.callsFit h.closed.grouped) l n

section Run
variable {order : List Node} (horder : order.Perm g.nodes.keys)
include horder

theorem onCourse : OnCourse (programEquations p g) (programNodes g)
    (ConstFact.Tidy (programVars p g)) (startInOrder p g order) := by
  have hqueue : ∀ n, n ∈ (startInOrder p g order).queue.toList ↔ n ∈ g.nodes.keys := by
    intro n
    rw [← horder.mem_iff]
    exact OrderedSet.mem_insertAll.trans (or_iff_right (OrderedSet.not_mem_empty n))
  constructor
  · constructor
    · intro n hn
      exact List.mem_append_left _ ((hqueue n).1 hn)
    · exact programStart_inside.good
  · exact programStart_rising
  · intro n hn
    exact .inl ((hqueue n).2 (h.mem_nodes hn))

variable {last : State Node ConstFact}
  (hs : Scheduled (programEquations p g) (startInOrder p g order) last)
include hs

theorem reached : OnCourse (programEquations p g) (programNodes g)
    (ConstFact.Tidy (programVars p g)) last :=
  (h.onCourse horder).scheduled programEquations_bounded h.monotone programEquations_local hs

variable (hq : last.queue.toList = [])
include hq

theorem holds {n : Node} (hn : n ∈ g.nodes.keys) :
    Holds (programEquations p g) (last.solution (programEquations p g)) n :=
  (h.reached horder hs).holds hq (List.mem_append_left _ hn)

/-- Where no node waits any more, the equations are solved. -/
theorem solves : SolvesProgram p g (last.solution (programEquations p g)) :=
  solvesProgram_of_holds (h.reached horder hs).inside.good fun _ hn => h.holds horder hs hq hn

/-- The facts there lie below all that the equations do not lead above. -/
theorem below {before after : Node → ConstFact}
    (hB : Bounds (programEquations p g) (programNodes g) before after)
    (hentry : ∀ m ∈ calls.entries, boundary p m ≤ after (.entry m)) {n : Node}
    (hn : n ∈ g.nodes.keys) :
    (last.solution (programEquations p g)).factBefore n ≤ before n ∧
      (last.solution (programEquations p g)).factAfter n ≤ after n := by
  have hstart : ∀ k, (startInOrder p g order).after (programEquations p g) k ≤ after k := by
    intro k
    have hk : (startInOrder p g order).after (programEquations p g) k =
        (boundaries p g).getD k ∅ := programStart_after k
    -- only entries start with a fact
    rw [hk, boundaries_getD]
    unfold startFact
    split
    · rename_i m
      split
      · rename_i hm
        rw [h.entries] at hm
        exact hentry m hm
      · exact ConstFact.empty_le _
    · exact ConstFact.empty_le _
  have hafter := hB.scheduled programEquations_bounded h.monotone programEquations_local
    (h.onCourse horder) hstart hs
  exact ⟨hB.factBefore_le h.monotone hafter (List.mem_append_left _ hn)
    (h.holds horder hs hq hn), hafter n⟩

theorem tidy_before {n : Node} (hn : n ∈ g.nodes.keys) : ConstFact.Tidy (programVars p g)
    ((last.solution (programEquations p g)).factBefore n) := by
  obtain ⟨flows, hflows, hbefore⟩ := entering_eq_ok (h.holds horder hs hq hn).entering
  rw [hbefore]
  exact ConstFact.Tidy.foldl_meetFact flows
    (flows_tidy (h.reached horder hs).inside.good hflows) (boundaries_tidy n)

end Run

/-- The equations do not lead above their solutions. -/
theorem bounds (hsol : SolvesProgram p g sol) :
    Bounds (programEquations p g) (programNodes g) sol.factBefore sol.factAfter :=
  bounds_of_solution (fun _ => h.mem_nodes) (fun _ he => he) (fun _ hm => hm) hsol

theorem boundary_le_after (hsol : SolvesProgram p g sol) {m : Method} (hm : m ∈ calls.entries) :
    boundary p m ≤ sol.factAfter (.entry m) := by
  have hstart : startFact p g (.entry m) = boundary p m := if_pos (h.entries ▸ hm)
  rw [← hstart]
  exact hsol.startFact_le (h.entry_mem_nodes (h.closed.entry m hm))

/-- Where no node waits any more, the least solution is found. -/
theorem below_solution {order : List Node} {last : State Node ConstFact}
    (horder : order.Perm g.nodes.keys)
    (hs : Scheduled (programEquations p g) (startInOrder p g order) last)
    (hq : last.queue.toList = []) (hsol : SolvesProgram p g sol) :
    BelowAt g.nodes.keys (last.solution (programEquations p g)) sol := by
  intro n hn
  exact h.below horder hs hq (h.bounds hsol) (fun m hm => h.boundary_le_after hsol hm) hn

/-- Two orders of work end with the same facts. -/
theorem agree {order order' : List Node} {last last' : State Node ConstFact}
    (horder : order.Perm g.nodes.keys) (horder' : order'.Perm g.nodes.keys)
    (hs : Scheduled (programEquations p g) (startInOrder p g order) last)
    (hs' : Scheduled (programEquations p g) (startInOrder p g order') last')
    (hq : last.queue.toList = []) (hq' : last'.queue.toList = []) :
    AgreeAt g.nodes.keys (last.solution (programEquations p g))
      (last'.solution (programEquations p g)) := by
  intro n hn
  obtain ⟨hbefore, hafter⟩ := h.below_solution horder hs hq (h.solves horder' hs' hq') n hn
  obtain ⟨hbefore', hafter'⟩ := h.below_solution horder' hs' hq' (h.solves horder hs hq) n hn
  constructor
  · apply ConstFact.sameAs_of_get_eq (h.tidy_before horder hs hq hn)
      (h.tidy_before horder' hs' hq' hn)
    intro v
    exact le_antisymm (hbefore v) (hbefore' v)
  · apply ConstFact.sameAs_of_get_eq ((h.reached horder hs).inside.good n)
      ((h.reached horder' hs').inside.good n)
    intro v
    exact le_antisymm (hafter v) (hafter' v)

/-- The solver returns what it finds where no node waits any more. -/
theorem solver_returns : ∃ last,
    Scheduled (programEquations p g) (startInOrder p g g.nodes.keys) last ∧
    last.queue.toList = [] ∧
    ∃ bound, ∀ fuel, bound ≤ fuel → ofIcfg fuel p g = .ok (last.solution (programEquations p g)) :=
  (h.onCourse (.refl _)).solve_eq_ok programEquations_bounded h.monotone programEquations_local
    h.total .outOfFuel

end Tame

/-- The solver returns the least solution of the equations. Whatever order the nodes wait in at the
start and are taken in, the work comes to an end, never fails, and ends with the same facts. -/
theorem least_constants (hh : p.hierarchy.Built)
    (hm : ∀ {m b}, p.body? m = some b → b.method = m) (hc : CallsOf p calls)
    (hd : NoDivision p calls) (ha : ArgumentsMatch p calls) :
    ∃ g sol, Icfg.build p calls = .ok g ∧
      (∃ bound, ∀ fuel, bound ≤ fuel → ofIcfg fuel p g = .ok sol) ∧
      SolvesProgram p g sol ∧
      (∀ other, SolvesProgram p g other → BelowAt g.nodes.keys sol other) ∧
      ∀ order, order.Perm g.nodes.keys →
        Acc (fun s' s => Works (programEquations p g) s s') (startInOrder p g order) ∧
        ∀ st, Scheduled (programEquations p g) (startInOrder p g order) st →
          (∀ n ∈ st.queue.toList, ∃ st', Takes (programEquations p g) n st st') ∧
          (st.queue.toList = [] →
            AgreeAt g.nodes.keys (st.solution (programEquations p g)) sol) := by
  have hclosed := hc.closed hh
  obtain ⟨g, hg⟩ := build_of_closed (p := p) hclosed
  have h : Tame p calls g := ⟨hg, hclosed, hm, hd, ha⟩
  obtain ⟨last, hlast, hempty, hreturns⟩ := h.solver_returns
  refine ⟨g, _, hg, hreturns, h.solves (.refl _) hlast hempty, fun other hother =>
    h.below_solution (.refl _) hlast hempty hother, fun order horder => ⟨?_, fun st hst => ⟨?_, ?_⟩⟩⟩
  · exact (h.onCourse horder).acc programEquations_bounded h.monotone programEquations_local
  · intro n hn
    have hnode := (h.reached horder hst).inside.queue n hn
    obtain ⟨b, hb⟩ := h.total (st.after (programEquations p g)) n hnode
    exact takes_of_waits hn hb
  · intro hq
    exact h.agree horder (.refl _) hst hlast hq hempty

end

/-! ### A call with a constant -/

namespace Doubling

theorem noDivision : NoDivision program calls := by
  intro m _ b hb
  rcases body_of_program hb with ⟨-, rfl⟩ | ⟨-, rfl⟩
  · decide
  · decide

theorem argumentsMatch : ArgumentsMatch program calls := by
  intro e he b hb
  obtain rfl : e = ⟨.static, site, double⟩ := List.mem_singleton.1 he
  rcases body_of_program hb with ⟨hm, -⟩ | ⟨-, rfl⟩
  · cases hm
  · rfl

theorem callsOf : CallsOf program calls :=
  .hierarchy (show Cha.build program [main] = .ok calls from rfl)

/-- The nodes may as well wait in reverse order. Behind the call the least solution gives the result
the value six. -/
theorem least_constants_doubling :
    (program.hierarchy.Built ∧ (∀ {m b}, program.body? m = some b → b.method = m) ∧
      CallsOf program calls ∧ NoDivision program calls ∧ ArgumentsMatch program calls) ∧
    ∃ g sol, Icfg.build program calls = .ok g ∧ SolvesProgram program g sol ∧
      (∃ bound, ∀ fuel, bound ≤ fuel → ofIcfg fuel program g = .ok sol) ∧
      (sol.factBefore (.stmt done)).get y = .const 6 ∧
      (∀ other, SolvesProgram program g other → BelowAt g.nodes.keys sol other) ∧
      ∀ st, Scheduled (programEquations program g) (startInOrder program g g.nodes.keys.reverse) st →
        st.queue.toList = [] →
        AgreeAt g.nodes.keys (st.solution (programEquations program g)) sol := by
  obtain ⟨g, sol, hg, hreturns, hsolves, hleast, horders⟩ :=
    least_constants hierarchy_built method_of_body callsOf noDivision argumentsMatch
  obtain ⟨-, hends⟩ := horders g.nodes.keys.reverse (List.reverse_perm _)
  obtain ⟨g', sol', hg', hsol', hy⟩ := solved
  obtain rfl := Except.ok.inj (hg.symm.trans hg')
  obtain rfl : sol' = sol := solve_unique hsol' hreturns
  exact ⟨⟨hierarchy_built, method_of_body, callsOf, noDivision, argumentsMatch⟩, g, sol', hg, hsolves,
    hreturns, hy, hleast, fun st hst => (hends st hst).2⟩

end Doubling

end Constants

end ObjectFlow
