import ObjectFlow.Proofs.ProgramConstants
/-!
# When constant propagation comes to an end

Within a method and across methods the solver ends exactly if its facts stop
falling. A quotient whose divisor turns out to be zero can make them fall for
ever.
-/

namespace ObjectFlow.Constants

open Dataflow

/-- Constant propagation ends, within a method or across the methods of a call graph, exactly if
from some point on no fact falls any more; across methods it may also end with a call whose
arguments do not match. If all statements are steady, no fact ever falls and it always ends. -/
theorem propagation_ends_iff (p : Program) :
    (∀ m, (∃ bound sol, ∀ fuel, bound ≤ fuel → ofMethod fuel p m = .ok sol) ↔
      Settles (methodEquations (Cfg.ofMethod p m)) (methodStart p m)) ∧
    (∀ calls g, Icfg.build p calls = .ok g →
      ((∃ bound r, (∀ fuel, bound ≤ fuel → ofIcfg fuel p g = r) ∧
        ((∃ sol, r = .ok sol) ∨ ∃ s m given expected, r = .error (.arity s m given expected))) ↔
        Settles (programEquations p g) (programStart p g))) ∧
    ((∀ s, p.Has s → Steady s.command) →
      (∀ m, Settles (methodEquations (Cfg.ofMethod p m)) (methodStart p m)) ∧
      ∀ calls g, Icfg.build p calls = .ok g →
        Settles (programEquations p g) (programStart p g)) :=
  ⟨fun _ => ofMethod_ok_iff, fun _ _ h => ofIcfg_ends_iff h, fun hs =>
    ⟨fun m => method_settles fun b hb s hin => hs s ⟨m, b, hb, hin⟩,
      fun _ _ h => program_settles h hs⟩⟩

/-! ## Two loops -/

namespace Loop

def main : Method := ⟨0, ⟨0, "A"⟩, ⟨"main", [.int], .void⟩, true, false, false⟩

def n : Var := ⟨0, "n", .int, main⟩

def y : Var := ⟨1, "y", .int, main⟩

def v : Var := ⟨2, "v", .int, main⟩

def programOf (b : Body) : Program := ⟨.empty, OrderedMap.ofList [(main, b)]⟩

/-- No loop calls a method. -/
def calls : PlainCallGraph := CallGraph.empty.addEntry main

/-- The parameter is halved until nothing is left. -/
def halving : Body where
  method := main
  receiver := none
  params := [n]
  vars := [n]
  stmts := [⟨⟨0, 1, main⟩, .binary n .div (.var n) (.literal 2)⟩,
    ⟨⟨1, 2, main⟩, .branch .gt (.var n) (.literal 0) 0⟩, ⟨⟨2, 3, main⟩, .ret none⟩]

theorem steady_halving {s : Stmt} (h : (programOf halving).Has s) : Steady s.command := by
  obtain ⟨m, b, hb, hs⟩ := h
  obtain ⟨-, rfl⟩ := Prod.mk.inj (List.mem_singleton.1 (OrderedMap.mem_entries_iff.2 hb))
  have hcases : s.command = .binary n .div (.var n) (.literal 2) ∨
      s.command = .branch .gt (.var n) (.literal 0) 0 ∨ s.command = .ret none := by
    simp only [halving, List.mem_cons, List.not_mem_nil, or_false] at hs
    rcases hs with rfl | rfl | rfl
    · exact .inl rfl
    · exact .inr (.inl rfl)
    · exact .inr (.inr rfl)
  rcases hcases with hc | hc | hc <;> rw [hc]
  · refine (steady_iff fun v op l r heq => ?_).2 fun v op x y heq => ?_
    · cases heq
      exact ⟨rfl, rfl⟩
    · cases heq
  · exact fun v hv => by cases hv
  · exact fun v hv => by cases hv

theorem propagation_ends_halving :
    (∃ bound sol, ∀ fuel, bound ≤ fuel → ofMethod fuel (programOf halving) main = .ok sol) ∧
    Cha.build (programOf halving) [main] = .ok calls ∧
    ∃ g, Icfg.build (programOf halving) calls = .ok g ∧
      ∃ bound r, (∀ fuel, bound ≤ fuel → ofIcfg fuel (programOf halving) g = r) ∧
        ((∃ sol, r = .ok sol) ∨ ∃ s m given expected, r = .error (.arity s m given expected)) := by
  obtain ⟨hmethod, hprogram, hsteady⟩ := propagation_ends_iff (programOf halving)
  obtain ⟨hm, hp⟩ := hsteady fun s hs => steady_halving hs
  obtain ⟨g, hg⟩ : ∃ g, Icfg.build (programOf halving) calls = .ok g := ⟨_, rfl⟩
  exact ⟨(hmethod main).2 (hm main), rfl, g, hg, (hprogram calls g hg).2 (hp calls g hg)⟩

/-- A quotient is computed in an inner loop, and only behind it the divisor becomes zero. -/
def lateZero : Draft where
  method := main
  receiver := none
  params := [n]
  vars := [n, y, v]
  commands := [.goto "test", .binary v .div (.var n) (.var y),
    .branch .gt (.var n) (.literal 0) "divide", .literal y 0, .goto "test"]
  marks := OrderedMap.ofList [("divide", 1), ("test", 2)]
  finished := false

def lateZeroBody : Body where
  method := main
  receiver := none
  params := [n]
  vars := [n, y, v]
  stmts := [⟨⟨0, 1, main⟩, .goto 2⟩, ⟨⟨1, 2, main⟩, .binary v .div (.var n) (.var y)⟩,
    ⟨⟨2, 3, main⟩, .branch .gt (.var n) (.literal 0) 1⟩, ⟨⟨3, 4, main⟩, .literal y 0⟩,
    ⟨⟨4, 5, main⟩, .goto 2⟩]

theorem method_turns : ∃ st st',
    advance (methodEquations (Cfg.ofMethod (programOf lateZeroBody) main)) 20
      (methodStart (programOf lateZeroBody) main) = some st ∧
    advance (methodEquations (Cfg.ofMethod (programOf lateZeroBody) main)) 8 st = some st' ∧
    st'.leaving = st.leaving ∧ st'.queue = st.queue :=
  ⟨_, _, rfl, rfl, rfl, rfl⟩

theorem program_turns : ∃ g st st', Icfg.build (programOf lateZeroBody) calls = .ok g ∧
    advance (programEquations (programOf lateZeroBody) g) 21
      (programStart (programOf lateZeroBody) g) = some st ∧
    advance (programEquations (programOf lateZeroBody) g) 8 st = some st' ∧
    st'.leaving = st.leaving ∧ st'.queue = st.queue :=
  ⟨_, _, _, rfl, rfl, rfl, rfl, rfl⟩

/-- The quotient has no single value while the divisor is unknown, and no value once it is zero.
The facts of both times follow each other around the loops for ever. -/
theorem lateZero_endless : lateZero.finish.1 = .ok lateZeroBody ∧
    (∀ fuel, ofMethod fuel (programOf lateZeroBody) main = .error .outOfFuel) ∧
    Cha.build (programOf lateZeroBody) [main] = .ok calls ∧
    ∃ g, Icfg.build (programOf lateZeroBody) calls = .ok g ∧
      ∀ fuel, ofIcfg fuel (programOf lateZeroBody) g = .error .outOfFuel := by
  obtain ⟨_, _, hst, hst', hl, hq⟩ := method_turns
  obtain ⟨g, _, _, hg, hgt, hgt', hgl, hgq⟩ := program_turns
  exact ⟨rfl, solve_eq_outOfFuel AnalysisError.outOfFuel hst hst' hl hq, rfl, g, hg,
    solve_eq_outOfFuel AnalysisError.outOfFuel hgt hgt' hgl hgq⟩

end Loop

end ObjectFlow.Constants
