import ObjectFlow.Proofs.KnownConstants
/-!
# Constants as solutions of equations

Whenever constant propagation returns, its facts satisfy the dataflow equations:
what enters a node is the meet of what leaves the nodes before it, and what
leaves the node is computed from that. Where a run starts there is the boundary.
-/

namespace ObjectFlow

namespace Dataflow

section
variable {ν φ ε : Type} [DecidableEq ν] {eqs : Equations ν φ ε} {st st' : State ν φ}
  [Preorder φ] {nodes : List ν} {good : φ → Prop} {room : φ → Nat}

theorem Inside.reaches (hb : Bounded eqs nodes good room) (h : Inside eqs nodes good st)
    (hr : Reaches eqs st st') : Inside eqs nodes good st' := by
  induction hr with
  | refl => exact h
  | tail _ hp ih => exact ih.pops hb hp

/-- A node that never waits keeps the fact that leaves it. -/
theorem after_eq_of_reaches {n : ν} (hb : Bounded eqs nodes good room)
    (h : Inside eqs nodes good st) (hn : n ∉ nodes) (hr : Reaches eqs st st') :
    st'.after eqs n = st.after eqs n := by
  induction hr with
  | refl => rfl
  | @tail mid st' hr hp ih =>
    obtain ⟨k, queue, hq, hv⟩ := hp
    have hk : k ∈ nodes := (h.reaches hb hr).queue k (by
      rw [WorkQueue.toList_eq_of_pop? hq]
      exact List.mem_cons_self)
    obtain ⟨before, -, ⟨-, hl, -⟩ | ⟨-, hl, -⟩⟩ := visit_eq_ok hv
    · rw [State.after, hl]
      exact ih
    · have hne : n ≠ k := fun heq => hn (heq ▸ hk)
      rw [State.after, hl, OrderedMap.getD_insert, if_neg hne]
      exact ih

variable {outOfFuel : ε} {fuel : Nat} {sol : Solution ν φ}

theorem Inside.good_solution (hb : Bounded eqs nodes good room) (h : Inside eqs nodes good st)
    (hs : solve eqs outOfFuel fuel st = .ok sol) (n : ν) : good (sol.factAfter n) := by
  obtain ⟨last, hr, -, rfl⟩ := solve_eq_ok hs
  exact (h.reaches hb hr).good n

theorem Inside.factAfter_eq (hb : Bounded eqs nodes good room) (h : Inside eqs nodes good st)
    (hs : solve eqs outOfFuel fuel st = .ok sol) {n : ν} (hn : n ∉ nodes) :
    sol.factAfter n = st.after eqs n := by
  obtain ⟨last, hr, -, rfl⟩ := solve_eq_ok hs
  exact after_eq_of_reaches hb h hn hr

end

end Dataflow

namespace Constants

open Dataflow

/-- The fact gives each variable the meet of the values that some facts give it, and writes no
bottom value down. -/
structure IsMeet (fs : List ConstFact) (f : ConstFact) : Prop where
  get : ∀ v, f.get v = (fs.map fun g => g.get v).foldl Value.meet .undef
  proper : ∀ v, f.bindings.get? v ≠ some .undef

section
variable {p : Program} {m : Method} {g : Icfg} {fuel : Nat} {sol : Solution Node ConstFact}
  {V : List Var}

theorem isMeet_foldl {fs : List ConstFact} {t : ConstFact} (ht : ConstFact.Tidy V t)
    (hfs : ∀ f ∈ fs, ConstFact.Tidy V f) :
    IsMeet (t :: fs) (fs.foldl (fun t f => meetFact f t) t) where
  get v := by
    rw [ConstFact.get_foldl_meetFact, List.map_cons, List.foldl_cons, Value.undef_meet]
  proper v hv := (ConstFact.Tidy.foldl_meetFact fs hfs ht v .undef hv).1 rfl

theorem isMeet_meetAll {fs : List ConstFact} (hfs : ∀ f ∈ fs, ConstFact.Tidy V f) :
    IsMeet fs (meetAll fs) := by
  obtain ⟨hget, hproper⟩ := isMeet_foldl ConstFact.Tidy.empty hfs
  exact ⟨hget, hproper⟩

theorem IsMeet.le {fs : List ConstFact} {f g : ConstFact} (h : IsMeet fs f) (hg : g ∈ fs) :
    g ≤ f := by
  intro v
  calc g.get v ≤ (fs.foldl (fun t f => meetFact f t) ∅).get v :=
        ConstFact.mem_le_foldl_meetFact ∅ hg v
    _ = (fs.map fun f => f.get v).foldl Value.meet .undef := ConstFact.get_foldl_meetFact fs ∅ v
    _ = f.get v := (h.get v).symm

/-! ## Within a method -/

/-- The equations of a method: its entry has the boundary behind it, and every other node the meet
of what leaves the nodes before it in front of it. -/
structure SolvesMethod (p : Program) (m : Method) (sol : Solution Node ConstFact) : Prop where
  entry : sol.factAfter (Cfg.ofMethod p m).entry = boundary p m
  entering : ∀ n ∈ (Cfg.ofMethod p m).nodes, n ≠ (Cfg.ofMethod p m).entry →
    IsMeet (((Cfg.ofMethod p m).preds n).map sol.factAfter) (sol.factBefore n)
  leaving : ∀ n ∈ (Cfg.ofMethod p m).nodes, n ≠ (Cfg.ofMethod p m).entry →
    (sol.factAfter n).sameAs (afterNode n (sol.factBefore n))

theorem methodEquations_local (g : Cfg) : Local (methodEquations g) where
  entering n l l' hl := by
    have hpreds : (g.preds n).map l = (g.preds n).map l' := by
      refine List.map_congr_left fun k hk => hl k ?_
      obtain ⟨e, he, rfl⟩ := List.mem_map.1 hk
      obtain ⟨hin, htarget⟩ := List.mem_filter.1 he
      exact List.mem_map.2 ⟨e, List.mem_filter.2 ⟨hin, decide_eq_true rfl⟩,
        of_decide_eq_true htarget⟩
    simp only [methodEquations, hpreds]
  same_refl f := f.sameAs_refl

theorem solvesMethod (h : ofMethod fuel p m = .ok sol) : SolvesMethod p m sol := by
  have hsolve : solve (methodEquations (Cfg.ofMethod p m)) .outOfFuel fuel (methodStart p m) =
      .ok sol := h
  have htidy := methodStart_inside.good_solution methodEquations_bounded hsolve
  have holds : ∀ n ∈ (Cfg.ofMethod p m).nodes, n ≠ (Cfg.ofMethod p m).entry →
      Holds (methodEquations (Cfg.ofMethod p m)) sol n := by
    intro n hn hne
    refine holds_of_solve (methodEquations_local _) h (OrderedSet.mem_insertAll.2 (.inr ?_))
    exact List.mem_filter.2 ⟨hn, decide_eq_true hne⟩
  refine ⟨?_, fun n hn hne => ?_, fun n hn hne => (holds n hn hne).leaving⟩
  · -- no edge leads to the entry, so it never waits
    have hentry : (Cfg.ofMethod p m).entry ∉ methodNodes (Cfg.ofMethod p m) := fun hin =>
      ne_entry_of_mem_methodNodes hin rfl
    rw [methodStart_inside.factAfter_eq methodEquations_bounded hsolve hentry, methodStart_after,
      if_pos rfl]
  · rw [← Except.ok.inj (holds n hn hne).entering]
    refine isMeet_meetAll (V := methodVars p m) fun f hf => ?_
    obtain ⟨k, -, rfl⟩ := List.mem_map.1 hf
    exact htidy k

namespace SolvesMethod

variable (h : SolvesMethod p m sol) {n k : Node}
include h

/-- What leaves a node enters the nodes behind it. -/
theorem flow_le (hk : k ∈ (Cfg.ofMethod p m).succs n) : sol.factAfter n ≤ sol.factBefore k := by
  obtain ⟨e, he, hsource, htarget⟩ := Cfg.mem_succs.1 hk
  have hne : k ≠ (Cfg.ofMethod p m).entry :=
    ne_entry_of_mem_methodNodes (List.mem_append_right _ (List.mem_map.2 ⟨e, he, htarget⟩))
  have hpred : n ∈ (Cfg.ofMethod p m).preds k :=
    List.mem_map.2 ⟨e, List.mem_filter.2 ⟨he, decide_eq_true htarget⟩, hsource⟩
  have hmeet := h.entering k (Cfg.mem_nodes_of_mem_succs hk) hne
  exact hmeet.le (List.mem_map.2 ⟨n, hpred, rfl⟩)

/-- What leaves a node is what the node makes of what enters it. -/
theorem after_get (hn : n ∈ (Cfg.ofMethod p m).nodes) (hne : n ≠ (Cfg.ofMethod p m).entry)
    (v : Var) : (sol.factAfter n).get v = (afterNode n (sol.factBefore n)).get v :=
  Fact.get_eq_of_sameAs (h.leaving n hn hne) v

end SolvesMethod

/-! ## Across methods -/

/-- The fact that a node starts with: the boundary at the entries of a run, nothing elsewhere. -/
def startFact (p : Program) (g : Icfg) : Node → ConstFact
  | .entry m => if m ∈ g.callGraph.entries then boundary p m else ∅
  | _ => ∅

/-- The equations of a joined graph: in front of each node stands the meet of what it starts with
and of what flows along each edge into it. -/
structure SolvesProgram (p : Program) (g : Icfg) (sol : Solution Node ConstFact) : Prop where
  entering : ∀ n ∈ g.nodes.keys, ∃ flows,
    (g.inEdges n).mapM (fun e => alongEdge p e (sol.factAfter e.source)) = .ok flows ∧
      IsMeet (startFact p g n :: flows) (sol.factBefore n)
  leaving : ∀ n ∈ g.nodes.keys, (sol.factAfter n).sameAs (afterInterNode n (sol.factBefore n))

theorem boundaries_getD (n : Node) : (boundaries p g).getD n ∅ = startFact p g n := by
  cases h : (boundaries p g).get? n with
  | some f =>
    obtain ⟨m, hm, rfl, rfl⟩ := entry_of_boundaries h
    rw [OrderedMap.getD_of_get? h, startFact, if_pos hm]
  | none =>
    rw [OrderedMap.getD, h]
    cases n with
    | entry m =>
      have hm : m ∉ g.callGraph.entries := by
        intro hm
        rw [boundaries_get? hm] at h
        cases h
      rw [startFact, if_neg hm]
      rfl
    | _ => rfl

/-- Facts that satisfy the equations at all nodes, and speak of the program alone, solve it. -/
theorem solvesProgram_of_holds (htidy : ∀ n, ConstFact.Tidy (programVars p g) (sol.factAfter n))
    (hh : ∀ n ∈ g.nodes.keys, Holds (programEquations p g) sol n) : SolvesProgram p g sol := by
  refine ⟨fun n hn => ?_, fun n hn => (hh n hn).leaving⟩
  obtain ⟨flows, hflows, hbefore⟩ := entering_eq_ok (hh n hn).entering
  refine ⟨flows, hflows, ?_⟩
  rw [hbefore, ← boundaries_getD]
  exact isMeet_foldl (boundaries_tidy n) (flows_tidy htidy hflows)

theorem solvesProgram (h : ofIcfg fuel p g = .ok sol) : SolvesProgram p g sol := by
  have hsolve : solve (programEquations p g) .outOfFuel fuel (programStart p g) = .ok sol := h
  have htidy := programStart_inside.good_solution programEquations_bounded hsolve
  exact solvesProgram_of_holds htidy fun n hn => holds_of_ofIcfg h hn

/-- Whatever constant propagation returns, within a method or across the methods of a graph, solves
its equations. -/
theorem solutions_solve (p : Program) :
    (∀ fuel m sol, ofMethod fuel p m = .ok sol → SolvesMethod p m sol) ∧
    ∀ fuel g sol, ofIcfg fuel p g = .ok sol → SolvesProgram p g sol :=
  ⟨fun _ _ _ h => solvesMethod h, fun _ _ _ h => solvesProgram h⟩

end

/-- The solver returns on a method that calls another with a constant, alone and together with the
other. -/
theorem Doubling.solutions_solve_doubling : ∃ sol g sol', ofMethod 20 program main = .ok sol ∧
    Icfg.build program calls = .ok g ∧ ofIcfg 20 program g = .ok sol' ∧
    SolvesMethod program main sol ∧ SolvesProgram program g sol' := by
  obtain ⟨sol, hsol⟩ : ∃ sol, ofMethod 20 program main = .ok sol := ⟨_, rfl⟩
  obtain ⟨g, sol', hg, hsol', -⟩ := solved
  obtain ⟨hmethod, hprogram⟩ := solutions_solve program
  exact ⟨sol, g, sol', hsol, hg, hsol', hmethod 20 main sol hsol, hprogram 20 g sol' hsol'⟩

end Constants

end ObjectFlow
