import ObjectFlow.Constants.Propagation
import ObjectFlow.PhaseLog
import ObjectFlow.PointsTo.Findings
/-!
# Running analyses

A run carries the options, the phases that were reported and the figures of the
analyses. Each analysis is one phase and, if it succeeds, leaves its figures
behind.
-/

namespace ObjectFlow

/-- A figure that an analysis leaves behind. -/
inductive Statistic where
  | count (n : Nat)
  | text (s : String)
deriving DecidableEq

/-- The state of a run. -/
structure Run where
  log : PhaseLog
  options : Options
  statistics : OrderedMap String (List (String × Statistic))

namespace PointsTo

/-- The setup that options ask for. -/
def Setup.ofOptions (w : World) (o : Options) : Except AnalysisError Setup :=
  match Selector.ofOptions o with
  | .error e => .error (.configuration e)
  | .ok s => .ok ⟨w.entries, s, o.maxIterations.toNat⟩

def statistics (setup : Setup) (st : State) : List (String × Statistic) :=
  [("selector", .text setup.selector.render), ("iterations", .count st.rounds),
    ("reachableMethods", .count st.calls.reachable.size), ("callEdges", .count st.calls.edgeCount),
    ("pfgEdges", .count st.flow.edgeCount), ("objects", .count st.elements.objects.size)]

end PointsTo

/-- The constants of all methods of a call graph, node by node. -/
structure ConstantFindings where
  graph : Icfg
  facts : Dataflow.Solution Node ConstFact

namespace ConstantFindings

/-- The constants of all methods of a call graph. -/
def ofCallGraph (fuel : Nat) (p : Program) (callGraph : PlainCallGraph) :
    Except AnalysisError ConstantFindings := do
  let g ← Icfg.build p callGraph
  let facts ← Constants.ofIcfg fuel p g
  pure ⟨g, facts⟩

def statistics (c : ConstantFindings) : List (String × Statistic) :=
  [("nodes", .count c.graph.nodes.size), ("iterations", .count c.facts.rounds)]

end ConstantFindings

namespace Run

def start (o : Options) : Run := ⟨.empty, o, ∅⟩

def record (r : Run) (analysis : String) (figures : List (String × Statistic)) : Run :=
  { r with statistics := r.statistics.insert analysis figures }

/-- Does something within a phase. -/
def scope {α : Type} (name : String) (body : Run → α × Run) (r : Run) : α × Run :=
  let (a, r) := body { r with log := r.log.enter name }
  (a, { r with log := r.log.leave })

/-- Records the figures of an analysis under its name if it succeeded. -/
def recordIfOk {α : Type} (name : String) (figures : α → List (String × Statistic))
    (result : Except AnalysisError α) (r : Run) : Except AnalysisError α × Run :=
  match result with
  | .error e => (.error e, r)
  | .ok a => (.ok a, r.record name (figures a))

/-! ## Single analyses -/

/-- The call graph by class hierarchy. -/
def hierarchyGraph (w : World) (r : Run) : Except AnalysisError PlainCallGraph × Run :=
  let (g, r) := r.scope "cha" fun r => (Cha.build w.program w.entries, r)
  recordIfOk "cha" (fun g =>
    [("reachableMethods", .count g.reachable.size), ("callEdges", .count g.edgeCount)]) g r

/-- Goes on with a pointer analysis to its end. The state is kept even if the run fails. -/
def finishPointsTo (fuel : Nat) (p : Program) (setup : PointsTo.Setup) (st : PointsTo.State)
    (r : Run) : Except AnalysisError PointsTo.Findings × PointsTo.State × Run :=
  let ((result, st), r) := r.scope "pointer analysis" fun r =>
    let (result, st) := PointsTo.analyze fuel p setup st
    let (result, r) := recordIfOk "pta" (fun _ => PointsTo.statistics setup st) result r
    ((result, st), r)
  (result.map fun _ => .ofState st, st, r)

/-- The pointer analysis that the options ask for. -/
def pointsTo (fuel : Nat) (w : World) (r : Run) : Except AnalysisError PointsTo.Findings × Run :=
  match PointsTo.Setup.ofOptions w r.options with
  | .error e => (.error e, r)
  | .ok setup =>
    let (result, _, r) := r.finishPointsTo fuel w.program setup .empty
    (result, r)

/-- Constant propagation over the methods of a call graph. -/
def constants (fuel : Nat) (p : Program) (callGraph : PlainCallGraph) (r : Run) :
    Except AnalysisError ConstantFindings × Run :=
  let found := ConstantFindings.ofCallGraph fuel p callGraph
  let (c, r) := r.scope "inter-constprop" fun r => (found, r)
  recordIfOk "inter-constprop" ConstantFindings.statistics c r

end Run

end ObjectFlow
