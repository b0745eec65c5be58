import ObjectFlow.Proofs.Solutions
/-!
# Constants hold within a body

Wherever control stands in a body, whatever was passed to its method and whatever
its calls returned, the fact there covers the values of its variables.
-/

namespace ObjectFlow.Constants

open Dataflow

/-! ## Walks through a body -/

/-- Control goes on from a statement of a body. A call is not looked into: its arguments are read,
and its result may be any value or none. -/
inductive Goes (b : Body) : Stmt → Values → Stmt → Values → Prop where
  | move {s t : Stmt} {ρ σ : Values} (moves : Moves b s ρ (.stmt t) σ none) : Goes b s ρ t σ
  | call {s : CallSite} {t : Stmt} {ρ : Values} {xs : List Int32} (x : Option Int32)
      (args : List.Forall₂ (fun a y => Evaluates ρ (.var a) y) s.call.args xs)
      (next : [s.stmt, t] <:+: b.stmts) : Goes b s.stmt ρ t (ρ.receive s.result x)

/-- The statements that control can stand before, and the values there, if the parameters may have
any values. -/
inductive Walk (b : Body) : Stmt → Values → Prop where
  | start {t : Stmt} (xs : List Int32) (first : b.stmts.head? = some t) :
      Walk b t (Values.unassigned.bind (b.params.zip xs))
  | step {s t : Stmt} {ρ σ : Values} (walk : Walk b s ρ) (goes : Goes b s ρ t σ) : Walk b t σ

section
variable {p : Program} {m : Method} {b : Body} {sol : Solution Node ConstFact} {s t : Stmt}
  {f : ConstFact} {ρ σ : Values}

/-! ## Single steps -/

/-- Nothing is known of the result of a call. -/
theorem Covers.receive {s : CallSite} (h : Covers f ρ) (x : Option Int32) :
    Covers (afterStmt s.stmt f) (ρ.receive s.result x) := by
  rw [afterStmt_call]
  cases s.result with
  | none => exact h
  | some v =>
    dsimp only [Values.receive]
    split
    · apply h.assign
      intro _ _ _
      exact Value.le_nac _
    · rename_i hv
      rwa [Values.assign_other ρ hv]

namespace Goes

theorem covers (hg : Goes b s ρ t σ) (h : Covers f ρ) : Covers (afterStmt s f) σ := by
  cases hg with
  | move hm => exact hm.covers h
  | call x _ _ => exact h.receive x

theorem mem_succs (hg : Goes b s ρ t σ) (hs : s ∈ b.stmts) :
    .stmt t ∈ (Cfg.ofBody b).succs (.stmt s) := by
  cases hg with
  | move hm => exact hm.mem_succs hs
  | call _ _ ht => exact Cfg.next_mem_succs ht rfl

end Goes

/-! ## Walks -/

/-- The solution knows of a place in a body and covers the values there. -/
structure Known (b : Body) (sol : Solution Node ConstFact) (s : Stmt) (ρ : Values) : Prop where
  mem : s ∈ b.stmts
  values : Covers (sol.factBefore (.stmt s)) ρ

namespace Known

theorem start (h : SolvesMethod p m sol) (hb : p.body? m = some b)
    (ht : b.stmts.head? = some t) (xs : List Int32) :
    Known b sol t (Values.unassigned.bind (b.params.zip xs)) := by
  have hgraph := Cfg.ofMethod_eq hb
  have hsucc : .stmt t ∈ (Cfg.ofMethod p m).succs (Cfg.ofMethod p m).entry := by
    rw [hgraph]
    exact Cfg.head_mem_succs ht
  have hpassed : passed p m xs = Values.unassigned.bind (b.params.zip xs) := by
    unfold passed
    rw [hb]
    rfl
  have hflow := h.flow_le hsucc
  rw [h.entry] at hflow
  have hcovers := covers_boundary (p := p) m xs
  rw [hpassed] at hcovers
  exact ⟨List.mem_of_head? ht, hcovers.mono hflow⟩

theorem goes (h : SolvesMethod p m sol) (hb : p.body? m = some b) (hk : Known b sol s ρ)
    (hg : Goes b s ρ t σ) : Known b sol t σ := by
  have hgraph := Cfg.ofMethod_eq hb
  have hnode : .stmt s ∈ (Cfg.ofMethod p m).nodes := by
    rw [hgraph]
    exact Cfg.stmt_mem_nodes hk.mem
  have hsucc : .stmt t ∈ (Cfg.ofMethod p m).succs (.stmt s) := by
    rw [hgraph]
    exact hg.mem_succs hk.mem
  have hne : .stmt s ≠ (Cfg.ofMethod p m).entry := by
    intro heq
    cases heq
  have hmem : t ∈ b.stmts := by
    obtain ⟨b', hb', ht⟩ := Cfg.stmt_of_mem_succs hsucc
    obtain rfl := Option.some.inj (hb.symm.trans hb')
    exact ht
  have hafter : afterStmt s (sol.factBefore (.stmt s)) ≤ sol.factBefore (.stmt t) := fun v =>
    calc (afterStmt s (sol.factBefore (.stmt s))).get v = (sol.factAfter (.stmt s)).get v :=
          (h.after_get hnode hne v).symm
      _ ≤ (sol.factBefore (.stmt t)).get v := h.flow_le hsucc v
  exact ⟨hmem, (hg.covers hk.values).mono hafter⟩

theorem walk (h : SolvesMethod p m sol) (hb : p.body? m = some b) (hw : Walk b s ρ) :
    Known b sol s ρ := by
  induction hw with
  | start xs ht => exact start h hb ht xs
  | step _ hg ih => exact ih.goes h hb hg

end Known

/-- Wherever control stands in a body, an integer variable that is found to be constant there has
that value if it has one, and a variable that has a value is not found to have none. -/
theorem constants_hold_within {fuel : Nat} (hb : p.body? m = some b)
    (hs : ofMethod fuel p m = .ok sol) (hw : Walk b s ρ) :
    ∀ v x, v.type.holdsInt → ρ v = some x →
      (∀ n, (sol.factBefore (.stmt s)).get v = .const n → x = n) ∧
      (sol.factBefore (.stmt s)).get v ≠ .undef := by
  intro v x hv hx
  exact (Known.walk (solvesMethod hs) hb hw).values.exact hv hx

end

/-! ### Counting down -/

namespace Countdown

def main : Method := ⟨0, ⟨0, "A"⟩, ⟨"main", [.int], .void⟩, true, false, false⟩

def n : Var := ⟨0, "n", .int, main⟩

def k : Var := ⟨1, "k", .int, main⟩

def set : Stmt := ⟨⟨0, 1, main⟩, .literal k 2⟩

def lower : Stmt := ⟨⟨1, 2, main⟩, .binary n .sub (.var n) (.var k)⟩

def test : Stmt := ⟨⟨2, 3, main⟩, .branch .gt (.var n) (.literal 0) 1⟩

def done : Stmt := ⟨⟨3, 4, main⟩, .ret none⟩

def body : Body := ⟨main, none, [n], [n, k], [set, lower, test, done]⟩

/-- The parameter is lowered in steps of two until it is not positive. -/
def program : Program := ⟨.empty, OrderedMap.ofList [(main, body)]⟩

def passed : Values := Values.unassigned.bind [(n, 3)]

/-- The values when the parameter was three and has been lowered once. -/
def lowered : Values := (passed.assign k (some 2)).assign n (some 1)

theorem walk_lowered : Walk body lower lowered := by
  have hset : Moves body set passed (.stmt lower) (passed.assign k (some 2)) none :=
    .assign rfl rfl (.literal 2) ⟨[], [test, done], rfl⟩
  have hlower : Moves body lower (passed.assign k (some 2)) (.stmt test) lowered none :=
    .assign rfl rfl (.binary (.int (x := 3) rfl rfl) (.int (x := 2) rfl rfl) rfl) ⟨[set], [done], rfl⟩
  have htest : Moves body test lowered (.stmt lower) lowered none :=
    .jump (x := 1) rfl (.binary (.int (x := 1) rfl rfl) (.literal 0) rfl) (by decide) rfl
  have h₁ : Walk body set passed := .start [3] rfl
  have h₂ := h₁.step (.move hset)
  have h₃ := h₂.step (.move hlower)
  exact h₃.step (.move htest)

/-- In the second round of the loop the step is known to be two, and it is. -/
theorem constants_hold_within_countdown : ∃ sol,
    program.body? main = some body ∧ ofMethod 20 program main = .ok sol ∧
    Walk body lower lowered ∧ lowered k = some 2 ∧
    (sol.factBefore (.stmt lower)).get k = .const 2 ∧
    (∀ c, (sol.factBefore (.stmt lower)).get k = .const c → 2 = c) ∧
    (sol.factBefore (.stmt lower)).get k ≠ .undef := by
  obtain ⟨sol, hsol, hk⟩ : ∃ sol, ofMethod 20 program main = .ok sol ∧
      (sol.factBefore (.stmt lower)).get k = .const 2 := ⟨_, rfl, rfl⟩
  exact ⟨sol, rfl, hsol, walk_lowered, rfl, hk,
    constants_hold_within rfl hsol walk_lowered k 2 rfl rfl⟩

end Countdown

end ObjectFlow.Constants
