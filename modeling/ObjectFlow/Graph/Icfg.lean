import ObjectFlow.Collections.LazyMap
import ObjectFlow.Graph.Cfg
import ObjectFlow.Graph.Cha
/-!
# Control flow across methods

The control flow graphs of all reachable methods, joined at the calls. A call
site leads to the entry of each callee, and the exit of the callee leads back
behind the call site. What the callee cannot touch goes past the call.
-/

namespace ObjectFlow

namespace Icfg

inductive Edge where
  /-- An edge within a method that does not leave a call site. -/
  | normal (source target : Node)
  /-- Past a call, within the calling method. -/
  | callToReturn (site : CallSite) (target : Node)
  | call (site : CallSite) (callee : Method)
  /-- Back behind a call, with the variables that the callee returns. -/
  | ret (callee : Method) (target : Node) (site : CallSite) (returned : List Var)
  /-- An edge of a kind that no analysis treats. -/
  | foreign (source target : Node)
deriving DecidableEq

namespace Edge

def source : Edge → Node
  | normal s _ | foreign s _ => s
  | callToReturn s _ | call s _ => .stmt s.stmt
  | ret m _ _ _ => .exit m

def target : Edge → Node
  | normal _ t | callToReturn _ t | ret _ t _ _ | foreign _ t => t
  | call _ m => .entry m

def kindName : Edge → String
  | normal .. => "NormalEdge"
  | callToReturn .. => "CallToReturnEdge"
  | call .. => "CallEdge"
  | ret .. => "ReturnEdge"
  | foreign .. => "ICFGEdge"

def render (e : Edge) : String :=
  e.kindName ++ "(" ++ e.source.render ++ " -> " ++ e.target.render ++ ")"

end Edge

end Icfg

/-- The joined graph. The control flow graph of any method can be asked for; those of the
reachable ones make up the nodes. -/
structure Icfg where
  callGraph : PlainCallGraph
  cfgs : LazyMap Method Cfg
  nodes : OrderedMap Node Method
  edges : List Icfg.Edge

namespace Icfg

variable (g : Icfg)

def contains (n : Node) : Bool := g.nodes.contains n

def inEdges (n : Node) : List Edge := g.edges.filter fun e => decide (e.target = n)

def outEdges (n : Node) : List Edge := g.edges.filter fun e => decide (e.source = n)

def preds (n : Node) : List Node := (g.inEdges n).map Edge.source

def succs (n : Node) : List Node := (g.outEdges n).map Edge.target

/-- The control flow graph of a method, which is made when it is first asked for. -/
def cfgOf (p : Program) (m : Method) : Cfg × Icfg :=
  let (cfg, cfgs) := Id.run (g.cfgs.get (fun m => pure (Cfg.ofMethod p m)) m)
  (cfg, { g with cfgs := cfgs })

/-! ## Building -/

/-- The edges out of a call site: past it, and for each callee into it and back. -/
def callEdges (p : Program) (callGraph : PlainCallGraph) (cfg : Cfg) (s : CallSite) : List Edge :=
  let succs := cfg.succs (.stmt s.stmt)
  succs.map (.callToReturn s) ++
  (callGraph.calleesOf s).flatMap fun m =>
    .call s m :: succs.map fun t => .ret m t s (p.returnVars m)

/-- The edges that a node of a reachable method brings. -/
def nodeEdges (p : Program) (callGraph : PlainCallGraph) (cfg : Cfg) (n : Node) : List Edge :=
  match n.callSite? with
  | some s => callEdges p callGraph cfg s
  | none => (cfg.succs n).map (.normal n)

/-- A method whose entry or exit an edge touches although it is not reachable. -/
def unreached? (callGraph : PlainCallGraph) (edges : List Edge) : Option Method :=
  edges.findSome? fun e => match e with
    | .call _ m => if callGraph.isReachable m then none else some m
    | _ => none

/-- The joined graph of a call graph, whose callees must all be reachable. -/
def build (p : Program) (callGraph : PlainCallGraph) : Except AnalysisError Icfg :=
  let cfgs := callGraph.reachable.toList.map fun m => (m, Cfg.ofMethod p m)
  let edges := cfgs.flatMap fun c => c.2.nodes.flatMap (nodeEdges p callGraph c.2)
  match unreached? callGraph edges with
  | some m => .error (.unreachedCallee m)
  | none => .ok {
      callGraph := callGraph
      cfgs := ⟨.ofList cfgs⟩
      nodes := .ofList (cfgs.flatMap fun c => c.2.nodes.map fun n => (n, c.1))
      edges := edges }

end Icfg

end ObjectFlow
