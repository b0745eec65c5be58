import ObjectFlow.Plan
import ObjectFlow.Report.Graphs
/-!
# Reports on findings

Constants, points-to sets and the figures of a run as terms. Figures are sorted
by name, and the variables of a fact stand in the order of their declaration.
-/

namespace ObjectFlow.Report

/-! ## Constants -/

def value : Value → Term
  | .const n => .int n.toInt
  | v => .text v.render

def fact (f : ConstFact) : Term :=
  let entries := f.entries.mergeSort fun a b => decide (a.1.index ≤ b.1.index)
  .list (entries.map fun e => .list [.text e.1.name, value e.2])

/-- Nodes with the facts before and after them. -/
def facts (nodes : List Node) (s : Dataflow.Solution Node ConstFact) : Term :=
  .list (nodes.map fun n => .list [.text n.render, fact (s.factBefore n), fact (s.factAfter n)])

/-- The constants of one method, with what is said of a node that it does not have. -/
def methodConstants (g : Cfg) (s : Dataflow.Solution Node ConstFact) : Term :=
  let foreign : Node := .stmt ⟨⟨-1, -1, g.method⟩, .foreign "" 0⟩
  .record [("facts", facts g.nodes s), ("unknown", fact (s.factAfter foreign))]

/-- The facts before and after a statement, and the one that holds as its result. -/
def stmtConstants (c : ConstantFindings) (s : Stmt) : Term :=
  let after := fact (c.facts.factAfter (.stmt s))
  .list [fact (c.facts.factBefore (.stmt s)), after, after]

/-! ## Figures -/

def figure : Statistic → Term
  | .count n => .count n
  | .text s => .text s

/-- Named things sorted by name. -/
def sortedByName {α : Type} (f : α → Term) (l : List (String × α)) : Term :=
  .list ((l.mergeSort fun a b => decide (a.1 ≤ b.1)).map fun e => .list [.text e.1, f e.2])

def figures (l : List (String × Statistic)) : Term := sortedByName figure l

/-- The figures of one analysis. -/
def figuresOf (r : Run) (analysis : String) : Term := figures (r.statistics.getD analysis [])

def allFigures (r : Run) : Term := sortedByName figures r.statistics.entries

def constants (c : ConstantFindings) (r : Run) : Term :=
  .record [("stats", figuresOf r "inter-constprop"), ("facts", facts c.graph.nodes.keys c.facts)]

/-! ## Points-to sets -/

def sites (l : List AllocSite) : Term := .texts (l.map AllocSite.render)

def objects (l : List PointsTo.CtxObject) : Term := .texts (l.map PointsTo.CtxObject.render)

def pointsTo (r : PointsTo.Findings) (run : Run) : Term :=
  .record [("stats", figuresOf run "pta"), ("objects", sites r.heap.toList),
    ("csObjs", .count r.elements.objects.size),
    ("vars", .list (r.vars.map fun v =>
      .list [.text v.method.render, .text v.name, sites (r.variableSites v)]))]

/-- What a variable points to: merged, in the empty context, and context by context. -/
def pointsToOfVar (r : PointsTo.Findings) (v : Var) : Term :=
  let contexts := (r.pointersOf v).filterMap fun q => match q with
    | .var c _ => some c
    | _ => none
  .record [("ci", sites (r.variableSites v)), ("empty", objects (r.pointsToIn [] v)),
    ("cs", .list (contexts.map fun c =>
      .list [.text (c.render PointsTo.ContextElement.render), objects (r.pointsToIn c v)]))]

def pointsToOfField (r : PointsTo.Findings) (f : Field) : Term :=
  .record [("static", sites (r.staticFieldSites f)),
    ("instance", .list (r.heap.toList.map fun o =>
      .list [.text o.render, sites (r.fieldSites o f)]))]

def pointsToOfElements (r : PointsTo.Findings) : Term :=
  .list (r.heap.toList.map fun o => .list [.text o.render, sites (r.elementSites o)])

/-! ## A run of the pointer analysis -/

def state (st : PointsTo.State) : Term :=
  .record [("queue", .texts (st.pending.pointers.map PointsTo.Pointer.render)),
    ("iterations", .count st.rounds), ("reachable", .count st.calls.reachable.size),
    ("calls", .count st.calls.edgeCount), ("pfg", .count st.flow.edgeCount)]

/-- A pointer with the objects it points to, in the order in which they arrived. -/
def pointer (st : PointsTo.State) (q : PointsTo.Pointer) : Term :=
  .list [.text q.render, objects (st.objectsOf q).toList]

def flowNode (g : FlowGraph PointsTo.Pointer) (q : PointsTo.Pointer) : Term :=
  .list [.text q.render, .list ((g.succs q).map fun t =>
    .list [.text t.render, .ofOption (fun k => .text k.render) (g.kind? q t)])]

/-- All that a run has found so far. -/
def solver (st : PointsTo.State) : Term :=
  let e := st.elements
  .record [("vars", .list (e.varPointers.map (pointer st))),
    ("staticFields", .list (e.staticFieldPointers.map (pointer st))),
    ("instanceFields", .list (e.instanceFieldPointers.map (pointer st))),
    ("arrays", .list (e.arrayPointers.map (pointer st))),
    ("pointers", .count e.pointers.length), ("objs", objects e.objects.toList),
    ("methods", .texts (e.methods.toList.map PointsTo.CtxMethod.render)),
    ("pfg", .list (st.flow.pointers.map (flowNode st.flow)))]

end ObjectFlow.Report
