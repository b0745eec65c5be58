import ObjectFlow.Graph.Icfg
import ObjectFlow.PointsTo.Analysis
import ObjectFlow.Report.Declarations
/-!
# Reports on graphs

Control flow graphs and call graphs as terms. The nodes of a control flow graph
are told by their positions.
-/

namespace ObjectFlow.Report

def position (nodes : List Node) (n : Node) : Term :=
  .ofOption .count (nodes.findIdx? fun m => decide (m = n))

def positions (nodes targets : List Node) : Term := .list (targets.map (position nodes))

def cfg (g : Cfg) : Term :=
  let node (n : Node) := Term.list
    [.text n.render, .bool (decide (n = g.entry)), .bool (decide (n = g.exit))]
  let foreign : Node := .stmt ⟨⟨-1, -1, g.method⟩, .foreign "" 0⟩
  .record [("nodes", .list (g.nodes.map node)),
    ("edges", .texts (g.nodes.flatMap fun n => (g.outEdges n).map Cfg.Edge.render)),
    ("in", .list (g.nodes.map fun n => .texts ((g.inEdges n).map fun e => e.kind.render))),
    ("preds", .list (g.nodes.map fun n => positions g.nodes (g.preds n))),
    ("succs", .list (g.nodes.map fun n => positions g.nodes (g.succs n))),
    ("ends", positions g.nodes [g.entry, g.exit]),
    ("hasForeign", .bool (g.contains foreign))]

/-! ## Call graphs -/

/-- How methods and call sites are written, and how they belong together. -/
structure CallNaming (μ σ : Type) where
  method : μ → String
  site : σ → String
  container : σ → μ
  sitesIn : μ → List σ

def plainNaming (p : Program) : CallNaming Method CallSite :=
  ⟨Method.render, CallSite.render, CallSite.method, p.callSites⟩

def contextNaming (p : Program) : CallNaming PointsTo.CtxMethod PointsTo.CtxCallSite :=
  ⟨PointsTo.CtxMethod.render, PointsTo.CtxCallSite.render, PointsTo.CtxCallSite.container,
    fun m => (p.callSites m.method).map fun s => ⟨m.context, s⟩⟩

section
variable {μ σ : Type} [DecidableEq μ] [DecidableEq σ]

def bySite (v : CallNaming μ σ) (g : CallGraph μ σ) (s : σ) : Term :=
  .list [.text (v.site s), .text (v.method (v.container s)),
    .texts ((g.calleesOf s).map v.method), .count (g.edgesFrom s).size]

def byCallee (v : CallNaming μ σ) (g : CallGraph μ σ) (m : μ) : Term :=
  .list [.text (v.method m), .bool (g.isReachable m), .texts ((g.callersOf m).map v.site),
    .count (g.edgesInto m).size]

def byCaller (v : CallNaming μ σ) (g : CallGraph μ σ) (m : μ) : Term :=
  .list [.text (v.method m), .count (v.sitesIn m).length,
    .texts ((g.calleesOfSites (v.sitesIn m)).map v.method)]

def callGraph (v : CallNaming μ σ) (g : CallGraph μ σ) : Term :=
  let sites := (OrderedSet.ofList (g.edges.map CallEdge.site)).toList
  let callees := (OrderedSet.ofList (g.edges.map CallEdge.callee)).toList
  let graph := g.toMethodGraph v.container
  .record [("entries", .texts (g.entries.toList.map v.method)),
    ("reachable", .texts (g.reachable.toList.map v.method)),
    ("edges", .texts (g.edges.map (CallEdge.render v.site v.method))),
    ("count", .count g.edgeCount),
    ("bySite", .list (sites.map (bySite v g))),
    ("byCallee", .list (callees.map (byCallee v g))),
    ("byCaller", .list (g.reachable.toList.map (byCaller v g))),
    ("graphNodes", .list (graph.nodes.entries.map fun e =>
      .list [.text (v.method e.1), .ofOption .bool e.2])),
    ("graphEdges", sortedRows (graph.edges.map fun e =>
      [v.method e.1, v.method e.2.callee, e.2.kind.keyword, v.site e.2.site]))]

end

/-- What a call graph says of one method. -/
def calls (p : Program) (g : PlainCallGraph) (m : Method) : Term :=
  let sites := p.callSites m
  let sitesText (l : List CallSite) := Term.texts (l.map CallSite.render)
  .list [.bool (g.isReachable m), .bool (g.isReachable m), sitesText sites,
    .texts ((g.calleesOfSites sites).map Method.render), sitesText (g.callersOf m),
    .texts ((g.edgesInto m).toList.map (CallEdge.render CallSite.render Method.render))]

/-! ## Joined graphs -/

def edge (nodes : List Node) (e : Icfg.Edge) : Term :=
  let rest := match e with
    | .call s m => [.text m.render, position nodes (.stmt s.stmt)]
    | .ret m _ s returned => [.text m.render, position nodes (.stmt s.stmt), names returned]
    | _ => []
  .list (.text e.kindName :: position nodes e.target :: rest)

def icfg (g : Icfg) : Term :=
  let nodes := g.nodes.keys
  let callees (s : CallSite) := Term.texts ((g.callGraph.calleesOf s).map Method.render)
  .record [("entries", .texts (g.callGraph.entries.toList.map Method.render)),
    ("nodes", .list (g.nodes.entries.map fun e =>
      .list [.text e.1.render, .text e.2.render, .bool e.1.callSite?.isSome])),
    ("out", .list (nodes.map fun n => .list ((g.outEdges n).map (edge nodes)))),
    ("preds", .list (nodes.map fun n => positions nodes (g.preds n))),
    ("succs", .list (nodes.map fun n => positions nodes (g.succs n))),
    ("callees", .list (nodes.map fun n => .ofOption callees n.callSite?))]

/-- What a joined graph says of one method with its control flow graph. -/
def icfgMethod (g : Icfg) (c : Cfg) : Term :=
  .record [("entry", .text c.entry.render), ("exit", .text c.exit.render),
    ("entryIn", .bool (g.contains c.entry)),
    ("callers", .texts ((g.callGraph.callersOf c.method).map CallSite.render)),
    ("cfgSize", .count c.nodes.length)]

end ObjectFlow.Report
