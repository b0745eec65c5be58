import ObjectFlow.Collections.OrderedMap
import ObjectFlow.Collections.WorkQueue
/-!
# Solving dataflow equations

Every node has a fact that enters it and a fact that leaves it. The entering
fact is computed from the leaving facts of other nodes, the leaving fact from
the entering one. The solver takes waiting nodes one by one, recomputes their
facts, and queues the nodes behind one whose leaving fact changed. When no node
waits, all equations hold.
-/

namespace ObjectFlow.Dataflow

/-- Equations over nodes `ν` and facts `φ`, whose evaluation can fail with `ε`. -/
structure Equations (ν φ ε : Type) where
  /-- The fact that enters a node, from the facts that leave the nodes. -/
  entering : (ν → φ) → ν → Except ε φ
  /-- The fact that leaves a node, from the one that enters it. -/
  leaving : ν → φ → φ
  /-- The nodes whose entering fact depends on a node. -/
  dependents : ν → List ν
  /-- The fact of a node that nothing is known about. -/
  initial : φ
  same : φ → φ → Bool

/-- The facts found so far, the nodes that wait, and the number of nodes taken. -/
structure State (ν φ : Type) where
  entering : OrderedMap ν φ
  leaving : OrderedMap ν φ
  queue : WorkQueue ν
  rounds : Nat

/-- The facts of a solved system. -/
structure Solution (ν φ : Type) where
  initial : φ
  entering : OrderedMap ν φ
  leaving : OrderedMap ν φ
  rounds : Nat

namespace Solution

variable {ν φ : Type} [DecidableEq ν]

/-- The fact that enters a node. A node outside the system has the initial fact. -/
def factBefore (s : Solution ν φ) (n : ν) : φ := s.entering.getD n s.initial

def factAfter (s : Solution ν φ) (n : ν) : φ := s.leaving.getD n s.initial

end Solution

section
variable {ν φ ε : Type} [DecidableEq ν]

/-- The facts at the start: those given for some nodes, the initial fact for the others. All of
`queue` waits. -/
def State.start (eqs : Equations ν φ ε) (nodes : List ν) (entering leaving : List (ν × φ))
    (queue : List ν) : State ν φ where
  entering := (OrderedMap.ofList (nodes.map fun n => (n, eqs.initial))).insertAll entering
  leaving := (OrderedMap.ofList (nodes.map fun n => (n, eqs.initial))).insertAll leaving
  queue := .ofList queue
  rounds := 0

/-- Recomputes the facts of a node that was taken from the queue. -/
def visit (eqs : Equations ν φ ε) (st : State ν φ) (n : ν) : Except ε (State ν φ) := do
  let before ← eqs.entering (fun m => st.leaving.getD m eqs.initial) n
  let after := eqs.leaving n before
  let st := { st with entering := st.entering.insert n before, rounds := st.rounds + 1 }
  if eqs.same (st.leaving.getD n eqs.initial) after then pure st
  else pure { st with
    leaving := st.leaving.insert n after
    queue := st.queue.pushAll (eqs.dependents n) }

/-- Takes nodes until none waits, at most the granted number. -/
def run (eqs : Equations ν φ ε) (outOfFuel : ε) : Nat → State ν φ → Except ε (State ν φ)
  | fuel, st =>
    match st.queue.pop? with
    | none => .ok st
    | some (n, queue) =>
      match fuel with
      | 0 => .error outOfFuel
      | fuel + 1 => do
        let st ← visit eqs { st with queue := queue } n
        run eqs outOfFuel fuel st

/-- The solution reached from a state. -/
def solve (eqs : Equations ν φ ε) (outOfFuel : ε) (fuel : Nat) (st : State ν φ) :
    Except ε (Solution ν φ) :=
  (run eqs outOfFuel fuel st).map fun st => ⟨eqs.initial, st.entering, st.leaving, st.rounds⟩

end

end ObjectFlow.Dataflow
