import ObjectFlow.Proofs.LeastConstants
/-!
# Fewer calls, more constants

A call graph with fewer methods and edges joins fewer facts. Whatever solves the
equations of the larger graph is therefore above what the equations of the
smaller one lead to, however the additional calls raise parameters and results,
also through recursion.
-/

namespace ObjectFlow

namespace CallGraph

variable {μ σ : Type} [DecidableEq μ] [DecidableEq σ]

/-- The graphs that can be made. -/
inductive Grown : CallGraph μ σ → Prop
  | empty : Grown .empty
  | noteEntry {g : CallGraph μ σ} (before : Grown g) (m : μ) : Grown (g.noteEntry m)
  | addReachable {g : CallGraph μ σ} (before : Grown g) (m : μ) : Grown (g.addReachable m)
  | addEdge {g : CallGraph μ σ} (before : Grown g) (e : CallEdge μ σ) : Grown (g.addEdge e)

theorem Grown.grouped {g : CallGraph μ σ} (h : Grown g) : g.Grouped := by
  induction h with
  | empty => exact grouped_empty
  | noteEntry _ _ ih => exact ih
  | addReachable _ _ ih => exact ih
  | addEdge _ e ih => exact ih.addEdge e

end CallGraph

/-- The one graph has the entries of the other, and no methods or edges besides those of the
other. -/
structure FewerCalls (small big : PlainCallGraph) : Prop where
  entries : ∀ m, m ∈ small.entries ↔ m ∈ big.entries
  reachable : ∀ m ∈ small.reachable, m ∈ big.reachable
  edges : ∀ e ∈ small.edges, e ∈ big.edges

namespace FewerCalls

variable {p : Program} {small big : PlainCallGraph}

theorem noDivision (h : FewerCalls small big) (hd : NoDivision p big) : NoDivision p small :=
  fun m hm => hd m (h.reachable m hm)

section
variable (hs : small.Grouped) (hb : big.Grouped) (h : FewerCalls small big)
include hs hb h

theorem calleesOf_subset (s : CallSite) : ∀ m ∈ small.calleesOf s, m ∈ big.calleesOf s := by
  intro m hm
  obtain ⟨e, he, hsite, hcallee⟩ := (CallGraph.mem_calleesOf hs).1 hm
  exact (CallGraph.mem_calleesOf hb).2 ⟨e, h.edges e he, hsite, hcallee⟩

theorem joins {e : Icfg.Edge} (he : Icfg.Joins p small e) : Icfg.Joins p big e := by
  cases he with
  | normal hm hn hc ht => exact .normal (h.reachable _ hm) hn hc ht
  | past hm hn ht => exact .past (h.reachable _ hm) hn ht
  | call hm hn hcalled => exact .call (h.reachable _ hm) hn (h.calleesOf_subset hs hb _ _ hcalled)
  | ret hm hn hcalled ht =>
    exact .ret (h.reachable _ hm) hn (h.calleesOf_subset hs hb _ _ hcalled) ht

theorem callsFit (hf : CallsFit p big) : CallsFit p small :=
  fun s callee hj => hf s callee (h.joins hs hb hj)

end

end FewerCalls

/-! ## Below the bounds -/

namespace Dataflow

variable {ν φ ε : Type} [DecidableEq ν] [Preorder φ] {eqs : Equations ν φ ε} {st st' : State ν φ}
  {nodes : List ν} {good : φ → Prop} {room : φ → Nat} {before after : ν → φ}

/-- The solver does not lead above facts that its equations do not lead above. -/
theorem Bounds.reaches (hb : Bounded eqs nodes good room) (hm : Monotone eqs nodes)
    (hB : Bounds eqs nodes before after) (h : Inside eqs nodes good st)
    (hle : ∀ k, st.after eqs k ≤ after k) (hr : Reaches eqs st st') :
    ∀ k, st'.after eqs k ≤ after k := by
  induction hr with
  | refl => exact hle
  | tail hr hp ih =>
    obtain ⟨n, ht⟩ := hp.takes
    exact hB.takes hm ((h.reaches hb hr).queue n ht.waits) ih ht

theorem Bounds.factAfter_le {outOfFuel : ε} {fuel : Nat} {sol : Solution ν φ}
    (hb : Bounded eqs nodes good room) (hm : Monotone eqs nodes)
    (hB : Bounds eqs nodes before after) (h : Inside eqs nodes good st)
    (hle : ∀ k, st.after eqs k ≤ after k) (hs : solve eqs outOfFuel fuel st = .ok sol) (n : ν) :
    sol.factAfter n ≤ after n := by
  obtain ⟨last, hr, -, rfl⟩ := solve_eq_ok hs
  exact hB.reaches hb hm h hle hr n

end Dataflow

namespace Constants

open Dataflow

section
variable {p : Program} {calls small big : PlainCallGraph} {g g' : Icfg}
  {sol sol' : Solution Node ConstFact} {fuel fuel' : Nat}

/-- Without a division and with calls that fit, the solver returns. -/
theorem ofIcfg_returns (hg : Icfg.build p calls = .ok g) (hd : NoDivision p calls)
    (hf : CallsFit p calls) :
    ∃ sol, ∃ bound, ∀ fuel, bound ≤ fuel → ofIcfg fuel p g = .ok sol := by
  have hsettles : Settles (programEquations p g) (programStart p g) :=
    programStart_rising.settles programEquations_bounded (monotone_of_noDivision hg hd)
      programStart_inside
  obtain ⟨bound, r, hr, ⟨sol, rfl⟩ | ⟨s, m, given, expected, rfl⟩⟩ := (ofIcfg_ends_iff hg).2 hsettles
  · exact ⟨sol, bound, hr⟩
  · -- an error would come from a node whose facts cannot be computed
    obtain ⟨l, n, he⟩ := entering_of_solve (hr bound (Nat.le_refl bound)) (by simp)
    obtain ⟨b, hok⟩ := entering_ok hg hf l n
    rw [he] at hok
    cases hok

/-- What the solver finds lies above what it starts with, also at entries that are not reached. -/
theorem startFact_le_factAfter (hg : Icfg.build p calls = .ok g)
    (hm : ∀ {m b}, p.body? m = some b → b.method = m) (h : ofIcfg fuel p g = .ok sol) (n : Node) :
    startFact p g n ≤ sol.factAfter n := by
  by_cases hn : n ∈ programNodes g
  · exact (solvesProgram h).startFact_le (mem_nodes_of_mem_programNodes hg hm hn)
  · have hkept : sol.factAfter n = (programStart p g).after (programEquations p g) n :=
      programStart_inside.factAfter_eq programEquations_bounded h hn
    rw [hkept, programStart_after, boundaries_getD]

/-- The facts of the smaller graph lie below those of the larger one. -/
theorem belowAt_of_fewerCalls (hs : small.Grouped) (hb : big.Grouped) (h : FewerCalls small big)
    (hm : ∀ {m b}, p.body? m = some b → b.method = m) (hd : NoDivision p small)
    (hg : Icfg.build p small = .ok g) (hg' : Icfg.build p big = .ok g')
    (hsol : ofIcfg fuel p g = .ok sol) (hsol' : ofIcfg fuel' p g' = .ok sol') :
    BelowAt g.nodes.keys sol sol' := by
  have hentries : ∀ m ∈ g.callGraph.entries, m ∈ g'.callGraph.entries := by
    intro m
    rw [Icfg.callGraph_of_build hg, Icfg.callGraph_of_build hg']
    exact (h.entries m).1
  have hedges : ∀ e ∈ g.edges, e ∈ g'.edges := fun e he =>
    (Icfg.mem_edges_iff hg').2 (h.joins hs hb ((Icfg.mem_edges_iff hg).1 he))
  have hnodes : ∀ n ∈ programNodes g, n ∈ g'.nodes.keys := by
    intro n hn
    have hin := mem_nodes_of_mem_programNodes hg hm hn
    obtain ⟨m, hreach, hn⟩ := (Icfg.mem_nodes_iff hg).1 hin
    exact (Icfg.mem_nodes_iff hg').2 ⟨m, h.reachable m hreach, hn⟩
  have hmono := monotone_of_noDivision hg hd
  have hB := bounds_of_solution hnodes hedges hentries (solvesProgram hsol')
  have hstart : ∀ k, (programStart p g).after (programEquations p g) k ≤ sol'.factAfter k := by
    intro k
    rw [programStart_after, boundaries_getD]
    exact (startFact_mono hentries k).trans (startFact_le_factAfter hg' hm hsol' k)
  have hafter : ∀ k, sol.factAfter k ≤ sol'.factAfter k :=
    hB.factAfter_le programEquations_bounded hmono programStart_inside hstart hsol
  intro n hn
  exact ⟨hB.factBefore_le hmono hafter (List.mem_append_left _ hn) (holds_of_ofIcfg hsol hn),
    hafter n⟩

/-- A smaller call graph gives constants at least as precise. The solver returns on both graphs, and
at every node of a method that the smaller one reaches, what it finds there lies below what it finds
with the larger one. -/
theorem fewer_calls_more_constants (hm : ∀ {m b}, p.body? m = some b → b.method = m)
    (hs : small.Grown) (hb : big.Grown) (h : FewerCalls small big)
    (hcs : ∀ e ∈ small.edges, e.callee ∈ small.reachable)
    (hcb : ∀ e ∈ big.edges, e.callee ∈ big.reachable)
    (hd : NoDivision p big) (hf : CallsFit p big) :
    ∃ g sol g' sol', Icfg.build p small = .ok g ∧ Icfg.build p big = .ok g' ∧
      (∃ bound, ∀ fuel, bound ≤ fuel → ofIcfg fuel p g = .ok sol) ∧
      (∃ bound, ∀ fuel, bound ≤ fuel → ofIcfg fuel p g' = .ok sol') ∧
      ∀ m ∈ small.reachable, BelowAt (Cfg.ofMethod p m).nodes sol sol' := by
  obtain ⟨g, hg⟩ := build_of_callees (p := p) hs.grouped hcs
  obtain ⟨g', hg'⟩ := build_of_callees (p := p) hb.grouped hcb
  have hd' := h.noDivision hd
  obtain ⟨sol, bound, hsol⟩ := ofIcfg_returns hg hd' (h.callsFit hs.grouped hb.grouped hf)
  obtain ⟨sol', bound', hsol'⟩ := ofIcfg_returns hg' hd hf
  have hbelow := belowAt_of_fewerCalls hs.grouped hb.grouped h hm hd' hg hg'
    (hsol bound (Nat.le_refl bound)) (hsol' bound' (Nat.le_refl bound'))
  exact ⟨g, sol, g', sol', hg, hg', ⟨bound, hsol⟩, ⟨bound', hsol'⟩, fun m hreach n hn =>
    hbelow n (Icfg.mem_nodes_of_build hg hreach hn)⟩

end

/-! ### A call with one callee or with two -/

namespace Doubling

/-- A method without a body, which may return anything. -/
def other : Method := ⟨2, owner, ⟨"other", [.int], .int⟩, true, false, true⟩

def oneCallee : PlainCallGraph :=
  ((CallGraph.empty.addEntry main).addReachable double).addEdge ⟨.static, site, double⟩

def twoCallees : PlainCallGraph :=
  (oneCallee.addReachable other).addEdge ⟨.static, site, other⟩

theorem oneCallee_grown : oneCallee.Grown :=
  .addEdge (.addReachable (.addReachable (.noteEntry .empty main) main) double) _

theorem twoCallees_grown : twoCallees.Grown := .addEdge (.addReachable oneCallee_grown other) _

theorem oneCallee_fewer : FewerCalls oneCallee twoCallees where
  entries _ := Iff.rfl
  reachable := by decide
  edges := by decide

theorem noDivision_twoCallees : NoDivision program twoCallees := by
  intro m _ b hb
  rcases body_of_program hb with ⟨-, rfl⟩ | ⟨-, rfl⟩
  · decide
  · decide

theorem callsFit_twoCallees : CallsFit program twoCallees := by
  apply ArgumentsMatch.callsFit twoCallees_grown.grouped
  intro e he b hb
  have hedges : twoCallees.edges = [⟨.static, site, double⟩, ⟨.static, site, other⟩] := rfl
  have hcases : e = ⟨.static, site, double⟩ ∨ e = ⟨.static, site, other⟩ := by
    simpa [hedges] using he
  rcases body_of_program hb with ⟨hm, -⟩ | ⟨-, rfl⟩
  · rcases hcases with rfl | rfl <;> cases hm
  · rcases hcases with rfl | rfl <;> rfl

theorem solved_oneCallee : ∃ g sol, Icfg.build program oneCallee = .ok g ∧
    ofIcfg 20 program g = .ok sol ∧ (sol.factBefore (.stmt done)).get y = .const 6 :=
  ⟨_, _, rfl, rfl, rfl⟩

theorem solved_twoCallees : ∃ g sol, Icfg.build program twoCallees = .ok g ∧
    ofIcfg 20 program g = .ok sol ∧ (sol.factBefore (.stmt done)).get y = .nac :=
  ⟨_, _, rfl, rfl, rfl⟩

/-- With one callee the result of the call is six; with a second that may return anything it may be
anything. -/
theorem fewer_calls_more_constants_doubling :
    (oneCallee.Grown ∧ twoCallees.Grown ∧ FewerCalls oneCallee twoCallees ∧
      NoDivision program twoCallees ∧ CallsFit program twoCallees) ∧
    ∃ g sol g' sol', Icfg.build program oneCallee = .ok g ∧
      Icfg.build program twoCallees = .ok g' ∧
      (∃ bound, ∀ fuel, bound ≤ fuel → ofIcfg fuel program g = .ok sol) ∧
      (∃ bound, ∀ fuel, bound ≤ fuel → ofIcfg fuel program g' = .ok sol') ∧
      (∀ m ∈ oneCallee.reachable, BelowAt (Cfg.ofMethod program m).nodes sol sol') ∧
      (sol.factBefore (.stmt done)).get y = .const 6 ∧
      (sol'.factBefore (.stmt done)).get y = .nac := by
  obtain ⟨g, sol, g', sol', hg, hg', hsol, hsol', hbelow⟩ :=
    fewer_calls_more_constants method_of_body oneCallee_grown twoCallees_grown oneCallee_fewer
      (by decide) (by decide) noDivision_twoCallees callsFit_twoCallees
  obtain ⟨g₁, sol₁, hg₁, hsol₁, hone⟩ := solved_oneCallee
  obtain rfl := Except.ok.inj (hg₁.symm.trans hg)
  obtain rfl := solve_unique hsol₁ hsol
  obtain ⟨g₂, sol₂, hg₂, hsol₂, htwo⟩ := solved_twoCallees
  obtain rfl := Except.ok.inj (hg₂.symm.trans hg')
  obtain rfl := solve_unique hsol₂ hsol'
  exact ⟨⟨oneCallee_grown, twoCallees_grown, oneCallee_fewer, noDivision_twoCallees,
    callsFit_twoCallees⟩, g₁, sol₁, g₂, sol₂, hg, hg', hsol, hsol', hbelow, hone, htwo⟩

end Doubling

end Constants

end ObjectFlow
