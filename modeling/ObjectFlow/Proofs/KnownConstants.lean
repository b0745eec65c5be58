import ObjectFlow.Proofs.CallClosure
import ObjectFlow.Proofs.Covering
import ObjectFlow.Proofs.Records
import ObjectFlow.Proofs.Solved
/-!
# Constants hold in every computation

Wherever a frame of a computation stands, the fact there covers the values of
its variables. A callee starts with what its caller passed, the caller keeps all
but the variable that waits for the result, and that one gets what the callee
returns.
-/

namespace ObjectFlow.Constants

/-! ## Across bodies -/

/-- A solution on the joined graph of a call graph that reaches its entries. -/
structure Propagated (p : Program) (calls : PlainCallGraph) (g : Icfg)
    (sol : Dataflow.Solution Node ConstFact) : Prop where
  built : Icfg.build p calls = .ok g
  solved : ∃ fuel, ofIcfg fuel p g = .ok sol
  entry : ∀ m ∈ calls.entries, m ∈ calls.reachable
  grouped : calls.Grouped
  method : ∀ {m b}, p.body? m = some b → b.method = m

/-- The node stands in the graph of a method that is reachable. -/
def Stands (p : Program) (calls : PlainCallGraph) (m : Method) (n : Node) : Prop :=
  m ∈ calls.reachable ∧ n ∈ (Cfg.ofMethod p m).nodes

namespace Propagated

variable {p : Program} {calls : PlainCallGraph} {g : Icfg}
  {sol : Dataflow.Solution Node ConstFact} {m callee : Method} {n t : Node} {s : CallSite}

theorem stands_entry (h : Propagated p calls g sol) (hm : m ∈ calls.reachable) :
    Stands p calls m (.entry m) := ⟨hm, Cfg.entry_mem_ofMethod h.method⟩

theorem stands_exit (h : Propagated p calls g sol) (hm : m ∈ calls.reachable) :
    Stands p calls m (.exit m) := ⟨hm, Cfg.exit_mem_ofMethod h.method⟩

theorem flow (h : Propagated p calls g sol) {m' : Method} {e : Icfg.Edge} (he : e ∈ g.edges)
    (hs : Stands p calls m e.source) (ht : Stands p calls m' e.target) :
    ∃ f, alongEdge p e (afterInterNode e.source (sol.factBefore e.source)) = .ok f ∧
      f ≤ sol.factBefore e.target := by
  obtain ⟨fuel, hsol⟩ := h.solved
  exact flow_le hsol he (Icfg.mem_nodes_of_build h.built hs.1 hs.2)
    (Icfg.mem_nodes_of_build h.built ht.1 ht.2)

/-- Within a method, what leaves a node enters the next. -/
theorem normal (h : Propagated p calls g sol) (hn : Stands p calls m n)
    (hc : n.callSite? = none) (hsucc : t ∈ (Cfg.ofMethod p m).succs n)
    (ht : t ∈ (Cfg.ofMethod p m).nodes) :
    afterNode n (sol.factBefore n) ≤ sol.factBefore t := by
  have he := Icfg.normal_mem_edges h.built hn.1 hn.2 hc hsucc
  obtain ⟨f, hf, hle⟩ := h.flow he hn ⟨hn.1, ht⟩
  obtain rfl := Except.ok.inj hf
  have hafter : afterInterNode n (sol.factBefore n) = afterNode n (sol.factBefore n) := by
    unfold afterInterNode
    rw [hc]
  rw [← hafter]
  exact hle

/-- Within a body, a frame that stands somewhere can go on to the next node. -/
theorem within {b : Body} (h : Propagated p calls g sol) (hb : p.body? m = some b)
    (hn : Stands p calls m n) (hc : n.callSite? = none) (hsucc : t ∈ (Cfg.ofBody b).succs n)
    (ht : t ∈ (Cfg.ofBody b).nodes) :
    Stands p calls m t ∧ afterNode n (sol.factBefore n) ≤ sol.factBefore t := by
  rw [← Cfg.ofMethod_eq hb] at hsucc ht
  exact ⟨⟨hn.1, ht⟩, h.normal hn hc hsucc ht⟩

section Calls
variable (h : Propagated p calls g sol) (hs : Stands p calls m (.stmt s.stmt))
include h hs

theorem past (hsucc : t ∈ (Cfg.ofMethod p m).succs (.stmt s.stmt))
    (ht : t ∈ (Cfg.ofMethod p m).nodes) :
    pastCall s (sol.factBefore (.stmt s.stmt)) ≤ sol.factBefore t := by
  have he := Icfg.past_mem_edges h.built hs.1 hs.2 hsucc
  obtain ⟨f, hf, hle⟩ := h.flow he hs ⟨hs.1, ht⟩
  obtain rfl := Except.ok.inj hf
  exact hle

theorem callee_reachable (hcallee : callee ∈ calls.calleesOf s) : callee ∈ calls.reachable :=
  Icfg.reachable_of_call h.built (Icfg.call_mem_edges h.built hs.1 hs.2 hcallee)

theorem into (hcallee : callee ∈ calls.calleesOf s) :
    ∃ f, intoCallee p s callee (sol.factBefore (.stmt s.stmt)) = .ok f ∧
      f ≤ sol.factBefore (.entry callee) :=
  h.flow (Icfg.call_mem_edges h.built hs.1 hs.2 hcallee) hs
    (h.stands_entry (h.callee_reachable hs hcallee))

theorem back (hcallee : callee ∈ calls.calleesOf s)
    (hsucc : t ∈ (Cfg.ofMethod p m).succs (.stmt s.stmt)) (ht : t ∈ (Cfg.ofMethod p m).nodes) :
    behindCall p s callee (p.returnVars callee) (sol.factBefore (.exit callee)) ≤
      sol.factBefore t := by
  have he := Icfg.ret_mem_edges h.built hs.1 hs.2 hcallee hsucc
  have hexit := h.stands_exit (h.callee_reachable hs hcallee)
  obtain ⟨f, hf, hle⟩ := h.flow he hexit ⟨hs.1, ht⟩
  obtain rfl := Except.ok.inj hf
  exact hle

end Calls

end Propagated

/-! ## Frames and stacks -/

section
variable {p : Program} {calls : PlainCallGraph} {g : Icfg}
  {sol : Dataflow.Solution Node ConstFact}

/-- The solution accounts for a frame: for its values where it stands, and for its answer. -/
structure Accounted (p : Program) (calls : PlainCallGraph)
    (sol : Dataflow.Solution Node ConstFact) (f : Frame) : Prop where
  stands : Stands p calls f.method f.node
  values : Covers (sol.factBefore f.node) f.values
  answer : ∀ x, f.answer = some x → .const x ≤
    returnedValue p f.method (p.returnVars f.method) (sol.factBefore (.exit f.method))

/-- The upper frame was entered by a call before which the lower one stands. -/
def Called (calls : PlainCallGraph) (f g : Frame) : Prop :=
  ∃ s : CallSite, g.node = .stmt s.stmt ∧ f.method ∈ calls.calleesOf s

/-- A stack whose frames are accounted for and called each other. -/
structure Consistent (p : Program) (calls : PlainCallGraph)
    (sol : Dataflow.Solution Node ConstFact) (stack : List Frame) : Prop where
  frames : ∀ f ∈ stack, Accounted p calls sol f
  chain : List.IsChain (Called calls) stack

theorem const_le_returnedValue {m : Method} {vs : List Var} {f : ConstFact} {v : Var} {x : Int32}
    (hv : v ∈ vs) (hx : .const x ≤ v.value f) : .const x ≤ returnedValue p m vs f := by
  have fold : ∀ (vs : List Var) (w : Value), .const x ≤ w ∨ v ∈ vs →
      .const x ≤ vs.foldl (fun w u => w.meet (u.value f)) w := by
    intro vs
    induction vs with
    | nil =>
      rintro w (hw | hin)
      · exact hw
      · cases hin
    | cons u vs ih =>
      rintro w (hw | hin)
      · exact ih _ (.inl (hw.trans (Value.le_meet_left _ _)))
      · rcases List.mem_cons.1 hin with rfl | hin
        · exact ih _ (.inl (hx.trans (Value.le_meet_right _ _)))
        · exact ih _ (.inr hin)
  unfold returnedValue
  split
  · exact fold vs _ (.inr hv)
  · exact Value.le_nac _

theorem returnedValue_of_no_body {m : Method} {vs : List Var} {f : ConstFact}
    (hb : p.body? m = none) : returnedValue p m vs f = .nac := by
  unfold returnedValue Program.hasBody
  rw [hb]
  rfl

/-- What a call passes is covered by what flows into the callee. -/
theorem covers_passed {s : CallSite} {callee : Method} {f f' : ConstFact} {ρ : Values}
    {xs : List Int32} (h : Covers f ρ) (hf : intoCallee p s callee f = .ok f')
    (hargs : List.Forall₂ (fun a x => Evaluates ρ (.var a) x) s.call.args xs) :
    Covers f' (passed p callee xs) := by
  unfold intoCallee at hf
  unfold passed
  cases hb : p.body? callee with
  | none => exact .unassigned
  | some b =>
    rw [hb] at hf
    dsimp only at hf
    split at hf
    · cases hf
    · obtain rfl := Except.ok.inj hf
      exact h.parameters .unassigned hargs

/-- What an entry method is passed is covered by the boundary. -/
theorem covers_boundary (m : Method) (xs : List Int32) :
    Covers (boundary p m) (passed p m xs) := by
  unfold boundary passed
  cases hb : p.body? m with
  | none => exact .unassigned
  | some b => exact Covers.unassigned.anyParameters

/-- Behind a call the caller has what went past it and the answer of the callee. -/
theorem covers_receive {s : CallSite} {callee : Method} {vs : List Var} {f f' t : ConstFact}
    {ρ : Values} {x : Option Int32} (h : Covers f ρ) (hpast : pastCall s f ≤ t)
    (hback : behindCall p s callee vs f' ≤ t)
    (hx : ∀ y, x = some y → .const y ≤ returnedValue p callee vs f') :
    Covers t (ρ.receive s.result x) := by
  cases hr : s.result with
  | none =>
    unfold pastCall at hpast
    rw [hr] at hpast
    exact h.mono hpast
  | some r =>
    intro u y hu hy
    unfold pastCall at hpast
    unfold behindCall at hback
    rw [hr] at hpast hback
    unfold Values.receive Values.assign at hy
    dsimp only at hy hpast hback
    by_cases hur : u = r
    · subst hur
      rw [if_pos hu] at hback
      rw [if_pos hu, Function.update_self] at hy
      have hget : returnedValue p callee vs f' ≤ t.get u := by
        have hle := hback u
        unfold Fact.ofList Fact.updateAll at hle
        rw [List.foldl_cons, List.foldl_nil, Fact.get_update, if_pos rfl] at hle
        exact hle
      exact (hx y hy).trans hget
    · have hget := hpast u
      rw [Fact.get_remove, if_neg hur] at hget
      apply le_trans _ hget
      apply h u y hu
      split at hy
      · rwa [Function.update_of_ne hur] at hy
      · exact hy

namespace Accounted

variable {m : Method} {b : Body} {t : Stmt} {ρ ρ' : Values} {x : Option Int32}

theorem enter (h : Propagated p calls g sol) (hb : p.body? m = some b)
    (ht : b.stmts.head? = some t) (hf : Accounted p calls sol ⟨m, .entry m, ρ, none⟩) :
    Accounted p calls sol ⟨m, .stmt t, ρ, none⟩ := by
  have hsucc : .stmt t ∈ (Cfg.ofBody b).succs (.entry m) := by
    rw [← h.method hb]
    exact Cfg.head_mem_succs ht
  have hnode := Cfg.stmt_mem_nodes (List.mem_of_head? ht)
  obtain ⟨hstands, hflow⟩ := h.within hb hf.stands rfl hsucc hnode
  exact ⟨hstands, hf.values.mono hflow, fun y hy => by cases hy⟩

theorem answerAny (h : Propagated p calls g sol) (hb : p.body? m = none)
    (hf : Accounted p calls sol ⟨m, .entry m, ρ, none⟩) :
    Accounted p calls sol ⟨m, .exit m, ρ, x⟩ := by
  have hexit := h.stands_exit hf.stands.1
  have hsucc : .exit m ∈ (Cfg.ofMethod p m).succs (.entry m) := by
    rw [Cfg.ofMethod_eq_withoutBody hb]
    exact Cfg.mem_succs.2 ⟨_, List.mem_cons_self, rfl, rfl⟩
  refine ⟨hexit, hf.values.mono (h.normal hf.stands rfl hsucc hexit.2), fun y _ => ?_⟩
  rw [returnedValue_of_no_body hb]
  exact Value.le_nac _

theorem move {s : Stmt} {n : Node} (h : Propagated p calls g sol) (hb : p.body? m = some b)
    (hs : s ∈ b.stmts) (hm : Moves b s ρ n ρ' x)
    (hf : Accounted p calls sol ⟨m, .stmt s, ρ, none⟩) :
    Accounted p calls sol ⟨m, n, ρ', x⟩ := by
  obtain ⟨hstands, hflow⟩ := h.within hb hf.stands hm.not_call (hm.mem_succs hs) hm.mem_nodes
  refine ⟨hstands, (hm.covers hf.values).mono hflow, fun y hy => ?_⟩
  -- only a return has an answer, and the value it returns reaches the exit
  obtain ⟨hn, v, hv, hle⟩ := hm.answer hs hf.values hy
  rw [h.method hb] at hn
  subst hn
  have hreturns : v ∈ p.returnVars m := by
    unfold Program.returnVars
    rw [hb]
    exact hv
  exact const_le_returnedValue hreturns (hle.trans (v.value_mono hflow))

theorem call {s : CallSite} {callee : Method} {xs : List Int32} (h : Propagated p calls g sol)
    (hcallee : callee ∈ calls.calleesOf s)
    (hargs : List.Forall₂ (fun a x => Evaluates ρ (.var a) x) s.call.args xs)
    (hf : Accounted p calls sol ⟨m, .stmt s.stmt, ρ, none⟩) :
    Accounted p calls sol ⟨callee, .entry callee, passed p callee xs, none⟩ := by
  obtain ⟨f', hinto, hle⟩ := h.into hf.stands hcallee
  refine ⟨h.stands_entry (h.callee_reachable hf.stands hcallee), ?_, fun y hy => by cases hy⟩
  exact (covers_passed hf.values hinto hargs).mono hle

/-- The caller goes on behind the call. -/
theorem leave {s : CallSite} {callee : Method} {σ : Values} (h : Propagated p calls g sol)
    (hb : p.body? m = some b) (ht : [s.stmt, t] <:+: b.stmts)
    (hcallee : callee ∈ calls.calleesOf s)
    (hf : Accounted p calls sol ⟨callee, .exit callee, σ, x⟩)
    (hcaller : Accounted p calls sol ⟨m, .stmt s.stmt, ρ, none⟩) :
    Accounted p calls sol ⟨m, .stmt t, ρ.receive s.result x, none⟩ := by
  have hgraph := Cfg.ofMethod_eq hb
  have hnode : .stmt t ∈ (Cfg.ofMethod p m).nodes := by
    rw [hgraph]
    exact Cfg.stmt_mem_nodes (ht.subset (List.mem_cons_of_mem _ List.mem_cons_self))
  have hsucc : .stmt t ∈ (Cfg.ofMethod p m).succs (.stmt s.stmt) := by
    rw [hgraph]
    exact Cfg.next_mem_succs ht rfl
  refine ⟨⟨hcaller.stands.1, hnode⟩, ?_, fun y hy => by cases hy⟩
  exact covers_receive hcaller.values (h.past hcaller.stands hsucc hnode)
    (h.back hcaller.stands hcallee hsucc hnode) hf.answer

end Accounted

namespace Consistent

variable {f f' : Frame} {rest : List Frame}

/-- The topmost frame goes on within its method. -/
theorem replace (h : Consistent p calls sol (f :: rest)) (hf : Accounted p calls sol f')
    (hm : f'.method = f.method) : Consistent p calls sol (f' :: rest) where
  frames k hk := by
    rcases List.mem_cons.1 hk with rfl | hk
    · exact hf
    · exact h.frames k (List.mem_cons_of_mem _ hk)
  chain := by
    have hchain := h.chain
    cases rest with
    | nil => exact List.isChain_singleton _
    | cons k rest =>
      rw [List.isChain_cons_cons] at hchain ⊢
      unfold Called at hchain ⊢
      rwa [hm]

theorem push (h : Consistent p calls sol (f :: rest)) (hf : Accounted p calls sol f')
    (hcall : Called calls f' f) : Consistent p calls sol (f' :: f :: rest) where
  frames k hk := by
    rcases List.mem_cons.1 hk with rfl | hk
    · exact hf
    · exact h.frames k hk
  chain := List.isChain_cons_cons.2 ⟨hcall, h.chain⟩

theorem pop (h : Consistent p calls sol (f :: rest)) : Consistent p calls sol rest where
  frames k hk := h.frames k (List.mem_cons_of_mem _ hk)
  chain := h.chain.tail

theorem start {m : Method} (h : Propagated p calls g sol) (hm : m ∈ calls.entries)
    (xs : List Int32) : Consistent p calls sol [⟨m, .entry m, passed p m xs, none⟩] where
  frames k hk := by
    obtain rfl := List.mem_singleton.1 hk
    have hstands := h.stands_entry (h.entry m hm)
    refine ⟨hstands, ?_, fun x hx => by cases hx⟩
    obtain ⟨fuel, hsol⟩ := h.solved
    apply (covers_boundary m xs).mono
    apply boundary_le hsol
    · rw [Icfg.callGraph_of_build h.built]
      exact hm
    · exact Icfg.mem_nodes_of_build h.built hstands.1 hstands.2
  chain := List.isChain_singleton _

/-- No step leaves the stacks that the solution accounts for. -/
theorem step {fs fs' : List Frame} (h : Propagated p calls g sol)
    (hc : Consistent p calls sol fs) (hs : Step p calls fs fs') :
    Consistent p calls sol fs' := by
  cases hs with
  | enter hb ht =>
    have htop := hc.frames _ List.mem_cons_self
    exact hc.replace (htop.enter h hb ht) rfl
  | answer x hb =>
    have htop := hc.frames _ List.mem_cons_self
    exact hc.replace (htop.answerAny h hb) rfl
  | move hb hin hm =>
    have htop := hc.frames _ List.mem_cons_self
    exact hc.replace (htop.move h hb hin hm) rfl
  | call he hsite hargs =>
    subst hsite
    have htop := hc.frames _ List.mem_cons_self
    have hcallee := (CallGraph.mem_calleesOf h.grouped).2 ⟨_, he, rfl, rfl⟩
    exact hc.push (htop.call h hcallee hargs) ⟨_, rfl, hcallee⟩
  | leave hb ht =>
    have htop := hc.frames _ List.mem_cons_self
    have hcaller := hc.frames _ (List.mem_cons_of_mem _ List.mem_cons_self)
    -- the site at which the caller stands is the one through which the callee was entered
    obtain ⟨s', hnode, hcallee⟩ := (List.isChain_cons_cons.1 hc.chain).1
    obtain rfl := CallSite.stmt_injective (Node.stmt.inj hnode)
    exact hc.pop.replace (htop.leave h hb ht hcallee hcaller) rfl
  | finish => exact hc.pop

theorem run {fs : List Frame} (h : Propagated p calls g sol) (hr : Run p calls fs) :
    Consistent p calls sol fs := by
  induction hr with
  | start xs hm => exact start h hm xs
  | step _ hs ih => exact ih.step h hs

end Consistent

/-! ## Soundness -/

/-- The call graphs that are made of a program: from its class hierarchy, and from a finished
analysis by merging the contexts. -/
inductive CallsOf (p : Program) : PlainCallGraph → Prop where
  | hierarchy {entries calls} : Cha.build p entries = .ok calls → CallsOf p calls
  | pointsTo {fuel setup st} : PointsTo.analyze fuel p setup .empty = (.ok (), st) →
      CallsOf p (PointsTo.Findings.ofState st).callGraph

theorem CallsOf.closed (hh : p.hierarchy.Built) (hc : CallsOf p calls) : calls.Closed := by
  cases hc with
  | hierarchy hb =>
    have hcomplete := Cha.build_complete hh.numbered hb
    have hclosure := Cha.build_closure hh.numbered hb
    constructor
    · exact hcomplete.grouped
    · intro m hm
      exact hcomplete.entry m ((hcomplete.entries m).1 hm)
    · intro e he
      exact (hclosure.reachable _).2 ((hclosure.edges e).1 he).reached
  | pointsTo ha =>
    constructor
    · exact PointsTo.Findings.callGraph_grouped
    · intro m hm
      obtain ⟨c, hentry⟩ := PointsTo.Findings.mem_callGraph_entries.1 hm
      exact PointsTo.Findings.mem_callGraph_reachable.2 (.inl ⟨c, hentry⟩)
    · intro e he
      obtain ⟨e', he', rfl⟩ := PointsTo.Findings.mem_callGraph_edges.1 he
      obtain ⟨_, hs, hr, hp⟩ := PointsTo.analyze_eq_ok ha
      have hreach := (PointsTo.least_of_reaches hs hr hp).1.reaches he'
      exact (PointsTo.Findings.callGraph_reachable ha _).2 ⟨_, hreach⟩

theorem CallsOf.propagated {fuel : Nat} (hh : p.hierarchy.Built)
    (hm : ∀ {m b}, p.body? m = some b → b.method = m) (hc : CallsOf p calls)
    (hg : Icfg.build p calls = .ok g) (hs : ofIcfg fuel p g = .ok sol) :
    Propagated p calls g sol :=
  ⟨hg, ⟨fuel, hs⟩, (hc.closed hh).entry, (hc.closed hh).grouped, hm⟩

/-- Wherever a frame of a computation stands, an integer variable that is found to be constant there
has that value if it has one, and a variable that has a value is not found to have none. -/
theorem constants_hold {fuel : Nat} {stack : List Frame} (hh : p.hierarchy.Built)
    (hm : ∀ {m b}, p.body? m = some b → b.method = m) (hc : CallsOf p calls)
    (hg : Icfg.build p calls = .ok g) (hs : ofIcfg fuel p g = .ok sol)
    (hr : Run p calls stack) :
    ∀ f ∈ stack, ∀ v x, v.type.holdsInt → f.values v = some x →
      (∀ n, (sol.factBefore f.node).get v = .const n → x = n) ∧
      (sol.factBefore f.node).get v ≠ .undef := by
  intro f hf v x hv hx
  have hstack := Consistent.run (hc.propagated hh hm hg hs) hr
  have hle := (hstack.frames f hf).values v x hv hx
  rcases eq_or_nac_of_const_le hle with heq | heq
  · rw [heq]
    constructor
    · intro n hn
      exact Value.const.inj hn
    · intro hn
      cases hn
  · rw [heq]
    constructor
    · intro n hn
      cases hn
    · intro hn
      cases hn

end

/-! ### A call with a constant -/

namespace Doubling

def owner : ClassRef := ⟨0, "A"⟩

def main : Method := ⟨0, owner, ⟨"main", [], .void⟩, true, false, false⟩

def double : Method := ⟨1, owner, ⟨"double", [.int], .int⟩, true, false, false⟩

def hierarchy : Hierarchy :=
  let h := (Hierarchy.empty.addClass "A" none [] false false).2
  let h := (h.addMethod owner main.signature true false false).2
  (h.addMethod owner double.signature true false false).2

def x : Var := ⟨0, "x", .int, main⟩

def y : Var := ⟨1, "y", .int, main⟩

def n : Var := ⟨0, "n", .int, double⟩

def r : Var := ⟨1, "r", .int, double⟩

def set : Stmt := ⟨⟨0, 1, main⟩, .literal x 3⟩

def site : CallSite := ⟨⟨1, 2, main⟩, some y, ⟨.static, ⟨owner, double.signature⟩, [x]⟩⟩

def done : Stmt := ⟨⟨2, 3, main⟩, .ret none⟩

def compute : Stmt := ⟨⟨0, 1, double⟩, .binary r .mul (.var n) (.literal 2)⟩

def answer : Stmt := ⟨⟨1, 2, double⟩, .ret (some r)⟩

def mainBody : Body := ⟨main, none, [], [x, y], [set, site.stmt, done]⟩

def doubleBody : Body := ⟨double, none, [n], [n, r], [compute, answer]⟩

/-- The main method doubles a constant by a call. -/
def program : Program := ⟨hierarchy, OrderedMap.ofList [(main, mainBody), (double, doubleBody)]⟩

def calls : PlainCallGraph := ((Cha.build program [main]).toOption).getD .empty

theorem hierarchy_built : hierarchy.Built := by
  have hmain : ((Hierarchy.empty.addClass "A" none [] false false).2.addMethod owner
      main.signature true false false).2.Built :=
    Hierarchy.Built.empty.addRoot.addMethod ⟨_, rfl, rfl⟩
  exact hmain.addMethod ⟨_, rfl, rfl⟩

theorem body_of_program {m : Method} {b : Body} (hb : program.body? m = some b) :
    (m = main ∧ b = mainBody) ∨ (m = double ∧ b = doubleBody) := by
  have hin : (m, b) ∈ [(main, mainBody), (double, doubleBody)] := OrderedMap.mem_entries_iff.2 hb
  simpa using hin

theorem method_of_body {m : Method} {b : Body} (hb : program.body? m = some b) : b.method = m := by
  rcases body_of_program hb with ⟨rfl, rfl⟩ | ⟨rfl, rfl⟩ <;> rfl

def started : Values := Values.unassigned.assign x (some 3)

/-- The main method has called the other and stands behind the call. -/
def last : Frame := ⟨main, .stmt done, started.receive (some y) (some 6), none⟩

theorem run_last : Run program calls [last] := by
  have hset : Moves mainBody set .unassigned (.stmt site.stmt) started none :=
    .assign rfl rfl (.literal 3) ⟨[], [done], rfl⟩
  have hcompute : Moves doubleBody compute (passed program double [3]) (.stmt answer)
      ((passed program double [3]).assign r (some 6)) none :=
    .assign rfl rfl (.binary (.int rfl rfl) (.literal 2) rfl) ⟨[], [], rfl⟩
  have hanswer : Moves doubleBody answer ((passed program double [3]).assign r (some 6))
      (.exit double) ((passed program double [3]).assign r (some 6)) (some 6) :=
    .ret rfl (.int rfl rfl)
  have h₁ : Run program calls [⟨main, .stmt set, .unassigned, none⟩] :=
    (Run.start [] (by decide)).step (.enter (b := mainBody) rfl rfl)
  have h₂ : Run program calls [⟨main, .stmt site.stmt, started, none⟩] :=
    h₁.step (.move (b := mainBody) rfl List.mem_cons_self hset)
  have hedge : ⟨.static, site, double⟩ ∈ calls.edges := by decide
  have hargs : List.Forall₂ (fun a v => Evaluates started (.var a) v) [x] [3] :=
    .cons (.int rfl rfl) .nil
  have h₃ : Run program calls [⟨double, .entry double, passed program double [3], none⟩,
      ⟨main, .stmt site.stmt, started, none⟩] := h₂.step (.call hedge rfl hargs)
  have h₄ := h₃.step (.enter (b := doubleBody) rfl rfl)
  have h₅ := h₄.step (.move (b := doubleBody) rfl List.mem_cons_self hcompute)
  have h₆ := h₅.step (.move (b := doubleBody) rfl (by decide) hanswer)
  exact h₆.step (.leave (b := mainBody) rfl ⟨[set], [], rfl⟩)

theorem solved : ∃ g sol, Icfg.build program calls = .ok g ∧ ofIcfg 20 program g = .ok sol ∧
    (sol.factBefore last.node).get y = .const 6 := ⟨_, _, rfl, rfl, rfl⟩

/-- Behind the call the result is known to be six, and it is. -/
theorem constants_hold_doubling : ∃ g sol,
    (program.hierarchy.Built ∧ (∀ {m b}, program.body? m = some b → b.method = m) ∧
      CallsOf program calls) ∧
    Icfg.build program calls = .ok g ∧ ofIcfg 20 program g = .ok sol ∧
    Run program calls [last] ∧ last.values y = some 6 ∧
    (sol.factBefore last.node).get y = .const 6 ∧
    (∀ n, (sol.factBefore last.node).get y = .const n → 6 = n) ∧
    (sol.factBefore last.node).get y ≠ .undef := by
  have hcalls : CallsOf program calls :=
    .hierarchy (show Cha.build program [main] = .ok calls from rfl)
  obtain ⟨g, sol, hg, hs, hy⟩ := solved
  exact ⟨g, sol, ⟨hierarchy_built, method_of_body, hcalls⟩, hg, hs, run_last, rfl, hy,
    constants_hold hierarchy_built method_of_body hcalls hg hs run_last last List.mem_cons_self y 6
      rfl rfl⟩

end Doubling

end ObjectFlow.Constants
