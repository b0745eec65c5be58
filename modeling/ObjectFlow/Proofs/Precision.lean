import ObjectFlow.Proofs.LeastConstants
/-!
# What is gained across methods

Across methods at least as much is found as within each of them: the facts of
all methods taken alone lie above what the equations of the joined graph lead to.
Where a method taken alone lets a parameter or a result have any value, the joined
graph passes on what is known of it.
-/

namespace ObjectFlow

namespace Cfg

variable {p : Program} {m : Method} {n : Node}

theorem entry_ofMethod (hm : ∀ {b}, p.body? m = some b → b.method = m) :
    (ofMethod p m).entry = .entry m := by
  cases hb : p.body? m with
  | none =>
    rw [ofMethod_eq_withoutBody hb]
    rfl
  | some b =>
    rw [ofMethod_eq hb, ← hm hb]
    rfl

theorem method_of_mem_nodes (hp : p.Built) (hn : n ∈ (ofMethod p m).nodes) : n.method = m := by
  cases hb : p.body? m with
  | none =>
    rw [ofMethod_eq_withoutBody hb] at hn
    simp only [withoutBody, List.mem_cons, List.not_mem_nil, or_false] at hn
    rcases hn with rfl | rfl <;> rfl
  | some b =>
    rw [ofMethod_eq hb] at hn
    have hmethod := hp.method hb
    simp only [ofBody, List.mem_cons, List.mem_append, List.mem_map, List.not_mem_nil,
      or_false] at hn
    rcases hn with rfl | ⟨s, hs, rfl⟩ | rfl
    · exact hmethod
    · exact ((hp.own hb).place s hs).trans hmethod
    · exact hmethod

/-- No edge leads to an entry. -/
theorem not_entry_of_mem_succs {k : Node} (h : k ∈ (ofMethod p m).succs n) (m' : Method) :
    k ≠ .entry m' := by
  obtain ⟨e, he, -, rfl⟩ := mem_succs.1 h
  rcases target_of_mem he with ⟨m'', hexit⟩ | ⟨b, s, hstmt, -⟩
  · rw [hexit]
    intro heq
    cases heq
  · rw [hstmt]
    intro heq
    cases heq

end Cfg

namespace Constants

open Dataflow

section
variable {p : Program} {calls : PlainCallGraph} {g : Icfg} {m : Method} {f : ConstFact}

/-! ## What a method taken alone assumes -/

theorem pastCall_le (s : CallSite) (f : ConstFact) : pastCall s f ≤ f := by
  unfold pastCall
  split
  · exact ConstFact.remove_le f _
  · exact le_refl f

/-- What flows back behind a call is no more than what is assumed of its result. -/
theorem behindCall_le (s : CallSite) (callee : Method) (vs : List Var) (f t : ConstFact) :
    behindCall p s callee vs f ≤ afterStmt s.stmt t := by
  rw [afterStmt_call]
  unfold behindCall
  cases s.result with
  | none => exact ConstFact.empty_le _
  | some v =>
    dsimp only
    split
    · exact ConstFact.update_mono (ConstFact.empty_le t) (Value.le_nac _) v
    · exact ConstFact.empty_le _

/-- What flows into a callee is no more than what is assumed of its parameters. -/
theorem intoCallee_le {s : CallSite} {t : ConstFact} (h : intoCallee p s m f = .ok t) :
    t ≤ boundary p m := by
  unfold intoCallee at h
  unfold boundary
  cases hb : p.body? m with
  | none =>
    rw [hb] at h
    obtain rfl := Except.ok.inj h
    exact le_refl _
  | some b =>
    rw [hb] at h
    dsimp only at h ⊢
    split at h
    · cases h
    · obtain rfl := Except.ok.inj h
      apply ConstFact.updateAll_le (ConstFact.empty_le _)
      intro e he
      obtain ⟨a, ha, rfl⟩ := List.mem_map.1 he
      obtain ⟨hzip, hint⟩ := List.mem_filter.1 ha
      exact get_updateAll_nac (List.mem_filter.2 ⟨(List.of_mem_zip hzip).2, hint⟩)

/-- A call that passes its fact on through edges alone leaves less than one that assigns. -/
theorem afterInterNode_le (n : Node) (f : ConstFact) : afterInterNode n f ≤ afterNode n f := by
  unfold afterInterNode
  cases hc : n.callSite? with
  | none => exact le_refl _
  | some s =>
    -- the result keeps its old value, which is no more than any value
    obtain rfl := Node.callSite?_eq_some.1 hc
    unfold afterNode
    dsimp only
    rw [afterStmt_call]
    split
    · split
      · exact ConstFact.le_update_nac f _
      · exact le_refl f
    · exact le_refl f

/-! ## All methods taken alone -/

variable {alone : Method → Solution Node ConstFact}

/-- The fact in front of a node, of its method taken alone. -/
def aloneBefore (p : Program) (alone : Method → Solution Node ConstFact) : Node → ConstFact
  | .entry m => boundary p m
  | n => (alone n.method).factBefore n

def aloneAfter (alone : Method → Solution Node ConstFact) (n : Node) : ConstFact :=
  (alone n.method).factAfter n

theorem startFact_le (n : Node) : startFact p g n ≤ aloneBefore p alone n := by
  cases n with
  | entry m =>
    unfold startFact aloneBefore
    dsimp only
    split
    · exact le_refl _
    · exact ConstFact.empty_le _
  | _ => exact ConstFact.empty_le _

section
variable (hp : p.Built) (hsolves : ∀ m ∈ calls.reachable, SolvesMethod p m (alone m))
include hp hsolves

theorem aloneAfter_entry (hm : m ∈ calls.reachable) :
    aloneAfter alone (.entry m) = boundary p m := by
  have hentry := (hsolves m hm).entry
  rwa [Cfg.entry_ofMethod hp.method] at hentry

/-- Within a method taken alone, what leaves a node enters the next. -/
theorem alone_flow {n t : Node} (hm : m ∈ calls.reachable) (hn : n ∈ (Cfg.ofMethod p m).nodes)
    (ht : t ∈ (Cfg.ofMethod p m).succs n) : aloneAfter alone n ≤ aloneBefore p alone t := by
  have hbefore : aloneBefore p alone t = (alone m).factBefore t := by
    rw [← Cfg.method_of_mem_nodes hp (Cfg.mem_nodes_of_mem_succs ht)]
    cases t with
    | entry m' => exact absurd rfl (Cfg.not_entry_of_mem_succs ht m')
    | _ => rfl
  have hafter : aloneAfter alone n = (alone m).factAfter n := by
    rw [aloneAfter, Cfg.method_of_mem_nodes hp hn]
  rw [hbefore, hafter]
  exact (hsolves m hm).flow_le ht

theorem alone_leaving {n : Node} (hm : m ∈ calls.reachable) (hn : n ∈ (Cfg.ofMethod p m).nodes) :
    afterNode n (aloneBefore p alone n) ≤ aloneAfter alone n := by
  have hmethod := Cfg.method_of_mem_nodes hp hn
  have hafter := (hsolves m hm).after_get hn
  rw [Cfg.entry_ofMethod hp.method, ← hmethod] at hafter
  cases n with
  | entry m' =>
    obtain rfl : m' = m := hmethod
    rw [aloneAfter_entry hp hsolves hm]
    exact le_refl _
  | exit m' => exact fun v => le_of_eq (hafter (fun heq => by cases heq) v).symm
  | stmt s => exact fun v => le_of_eq (hafter (fun heq => by cases heq) v).symm

/-- What flows along an edge of the joined graph lies below what is assumed of its target. -/
theorem alongEdge_le {e : Icfg.Edge} (he : Icfg.Joins p calls e)
    (hf : alongEdge p e (aloneAfter alone e.source) = .ok f) :
    f ≤ aloneBefore p alone e.target := by
  cases he with
  | normal hm hn _ ht =>
    obtain rfl := Except.ok.inj hf
    exact alone_flow hp hsolves hm hn ht
  | past hm hs ht =>
    obtain rfl := Except.ok.inj hf
    exact (pastCall_le _ _).trans (alone_flow hp hsolves hm hs ht)
  | call => exact intoCallee_le hf
  | @ret m callee s t hm hs _ ht =>
    obtain rfl := Except.ok.inj hf
    calc behindCall p s callee (p.returnVars callee) (aloneAfter alone (.exit callee))
        ≤ afterStmt s.stmt (aloneBefore p alone (.stmt s.stmt)) := behindCall_le _ _ _ _ _
      _ ≤ aloneAfter alone (.stmt s.stmt) := alone_leaving hp hsolves hm hs
      _ ≤ aloneBefore p alone t := alone_flow hp hsolves hm hs ht

/-- The equations of the joined graph do not lead above the methods taken alone. -/
theorem bounds_alone (h : Tame p calls g) :
    Bounds (programEquations p g) (programNodes g) (aloneBefore p alone) (aloneAfter alone) := by
  constructor
  · intro n hn
    obtain ⟨b, hb⟩ := h.total (aloneAfter alone) n hn
    refine ⟨b, hb, ?_⟩
    obtain ⟨flows, hflows, rfl⟩ := entering_eq_ok hb
    rw [boundaries_getD]
    apply ConstFact.foldl_meetFact_le (startFact_le n)
    intro f hf
    obtain ⟨e, he, hflow⟩ := exists_of_mem_mapM hflows hf
    obtain ⟨hedge, htarget⟩ := List.mem_filter.1 he
    obtain rfl := of_decide_eq_true htarget
    exact alongEdge_le hp hsolves ((Icfg.mem_edges_iff h.built).1 hedge) hflow
  · intro n hn
    obtain ⟨m, hm, hin⟩ := (Icfg.mem_nodes_iff h.built).1 (h.mem_nodes hn)
    exact (afterInterNode_le n _).trans (alone_leaving hp hsolves hm hin)

end

/-! ## The comparison -/

/-- The reachable methods have solutions of their own. -/
theorem exists_alone (hd : NoDivision p calls) : ∃ alone : Method → Solution Node ConstFact,
    ∀ m ∈ calls.reachable, ∃ bound, ∀ fuel, bound ≤ fuel → ofMethod fuel p m = .ok (alone m) := by
  have hexists : ∀ m, ∃ sol, m ∈ calls.reachable →
      ∃ bound, ∀ fuel, bound ≤ fuel → ofMethod fuel p m = .ok sol := by
    intro m
    by_cases hm : m ∈ calls.reachable
    · obtain ⟨bound, sol, hsol⟩ := ofMethod_ok_iff.2 <| method_settles fun b hb s hs =>
        steady_of_not_divides (hd m hm b hb s hs)
      exact ⟨sol, fun _ => ⟨bound, hsol⟩⟩
    · exact ⟨⟨∅, ∅, ∅, 0⟩, fun hin => absurd hin hm⟩
  choose alone halone using hexists
  exact ⟨alone, halone⟩

/-- The statements and the exit of a body, with the facts of its method taken alone. -/
theorem alone_at {b : Body} (alone : Method → Solution Node ConstFact) (hp : p.Built)
    (hb : p.body? m = some b) {n : Node} (hn : n ∈ b.stmts.map Node.stmt ++ [.exit m]) :
    n ∈ (Cfg.ofMethod p m).nodes ∧ aloneBefore p alone n = (alone m).factBefore n ∧
      aloneAfter alone n = (alone m).factAfter n := by
  rw [Cfg.ofMethod_eq hb]
  rcases List.mem_append.1 hn with hn | hn
  · obtain ⟨s, hs, rfl⟩ := List.mem_map.1 hn
    have hplace : s.place.method = m := ((hp.own hb).place s hs).trans (hp.method hb)
    rw [← hplace]
    exact ⟨Cfg.stmt_mem_nodes hs, rfl, rfl⟩
  · obtain rfl := List.mem_singleton.1 hn
    exact ⟨hp.method hb ▸ Cfg.exit_mem_nodes, rfl, rfl⟩

/-- The solver returns across methods and within each of them that is reachable. At the statements
and at the exit of a method, what is found across methods lies below what is found within. -/
theorem across_below_within (hp : p.Built) (hc : CallsOf p calls) (hd : NoDivision p calls)
    (ha : ArgumentsMatch p calls) :
    ∃ g sol, Icfg.build p calls = .ok g ∧
      (∃ bound, ∀ fuel, bound ≤ fuel → ofIcfg fuel p g = .ok sol) ∧
      ∀ m ∈ calls.reachable, ∀ b, p.body? m = some b → ∃ alone,
        (∃ bound, ∀ fuel, bound ≤ fuel → ofMethod fuel p m = .ok alone) ∧
        BelowAt (b.stmts.map Node.stmt ++ [.exit m]) sol alone := by
  have hclosed := hc.closed hp.hierarchy
  obtain ⟨g, hg⟩ := build_of_closed (p := p) hclosed
  have h : Tame p calls g := ⟨hg, hclosed, hp.method, hd, ha⟩
  obtain ⟨last, hlast, hempty, hreturns⟩ := h.solver_returns
  obtain ⟨alone, halone⟩ := exists_alone hd
  have hsolves : ∀ m ∈ calls.reachable, SolvesMethod p m (alone m) := by
    intro m hm
    obtain ⟨bound, hsol⟩ := halone m hm
    exact solvesMethod (hsol bound (Nat.le_refl bound))
  have hentry : ∀ m ∈ calls.entries, boundary p m ≤ aloneAfter alone (.entry m) := by
    intro m hm
    rw [aloneAfter_entry hp hsolves (hclosed.entry m hm)]
  refine ⟨g, _, hg, hreturns, fun m hm b hb => ⟨alone m, halone m hm, fun n hn => ?_⟩⟩
  obtain ⟨hin, hbefore, hafter⟩ := alone_at alone hp hb hn
  rw [← hbefore, ← hafter]
  exact h.below (.refl _) hlast hempty (bounds_alone hp hsolves h) hentry
    (Icfg.mem_nodes_of_build hg hm hin)

end

/-! ### A call with a constant -/

namespace Doubling

def mainDraft : Draft :=
  ⟨main, none, [], [x, y], [.literal x 3, .invoke (some y) site.call], ∅, false⟩

def doubleDraft : Draft :=
  ⟨double, none, [n], [n, r], [.binary r .mul (.var n) (.literal 2), .ret (some r)], ∅, false⟩

theorem mainDraft_built : mainDraft.Built := by
  have hstart : Draft.Built ⟨main, none, [], [], [], ∅, false⟩ :=
    .start (show Draft.start main none = .ok _ from rfl)
  have hx : Draft.Built ⟨main, none, [], [x], [], ∅, false⟩ := hstart.addVar
  have hy : Draft.Built ⟨main, none, [], [x, y], [], ∅, false⟩ := hx.addVar
  exact hy.appendAll rfl

theorem doubleDraft_built : doubleDraft.Built := by
  have hstart : Draft.Built ⟨double, none, [n], [n], [], ∅, false⟩ :=
    .start (show Draft.start double (some ["n"]) = .ok _ from rfl)
  have hr : Draft.Built ⟨double, none, [n], [n, r], [], ∅, false⟩ := hstart.addVar
  exact hr.appendAll rfl

theorem program_built : program.Built where
  hierarchy := hierarchy_built
  body hb := by
    rcases body_of_program hb with ⟨-, rfl⟩ | ⟨-, rfl⟩
    · exact .finish mainDraft_built rfl
    · exact .finish doubleDraft_built rfl
  method hb := method_of_body hb

theorem solved_across : ∃ g sol, Icfg.build program calls = .ok g ∧ ofIcfg 20 program g = .ok sol ∧
    (sol.factBefore (.stmt answer)).get r = .const 6 := ⟨_, _, rfl, rfl, rfl⟩

theorem solved_alone : ∃ alone, ofMethod 20 program double = .ok alone ∧
    (alone.factBefore (.stmt answer)).get r = .nac := ⟨_, rfl, rfl⟩

/-- Taken alone the called method may be passed anything, so nothing is known of what it returns.
Across methods it is known to return six. -/
theorem across_below_within_doubling :
    (program.Built ∧ CallsOf program calls ∧ NoDivision program calls ∧
      ArgumentsMatch program calls) ∧
    double ∈ calls.reachable ∧ program.body? double = some doubleBody ∧
    ∃ g sol alone, Icfg.build program calls = .ok g ∧
      (∃ bound, ∀ fuel, bound ≤ fuel → ofIcfg fuel program g = .ok sol) ∧
      (∃ bound, ∀ fuel, bound ≤ fuel → ofMethod fuel program double = .ok alone) ∧
      BelowAt [.stmt compute, .stmt answer, .exit double] sol alone ∧
      (sol.factBefore (.stmt answer)).get r = .const 6 ∧
      (alone.factBefore (.stmt answer)).get r = .nac := by
  obtain ⟨g, sol, hg, hsol, hbelow⟩ :=
    across_below_within program_built callsOf noDivision argumentsMatch
  have hreach : double ∈ calls.reachable := by decide
  obtain ⟨alone, halone, hle⟩ := hbelow double hreach doubleBody rfl
  obtain ⟨g', sol', hg', hsol', hacross⟩ := solved_across
  obtain rfl := Except.ok.inj (hg.symm.trans hg')
  obtain rfl : sol' = sol := solve_unique hsol' hsol
  obtain ⟨alone', halone', hwithin⟩ := solved_alone
  obtain rfl : alone' = alone := solve_unique halone' halone
  exact ⟨⟨program_built, callsOf, noDivision, argumentsMatch⟩, hreach, rfl, g, sol', alone', hg, hsol,
    halone, hle, hacross, hwithin⟩

end Doubling

end Constants

end ObjectFlow
