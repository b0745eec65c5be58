import ObjectFlow.Constants.Value
import ObjectFlow.Dataflow.Equations
import ObjectFlow.Graph.Icfg
/-!
# Constant propagation

The constants that integer variables have before and after each statement,
within one method or across all methods of a call graph. A parameter of a method
where a run starts may have any value.
-/

namespace ObjectFlow.Constants

/-- Facts met value by value. -/
def meetFact (f target : ConstFact) : ConstFact :=
  f.entries.foldl (fun t e => (t.update e.1 (e.2.meet (t.get e.1))).2) target

/-- The meet of a list of facts. -/
def meetAll (fs : List ConstFact) : ConstFact := fs.foldl (fun t f => meetFact f t) ∅

/-- The fact where a method starts: its integer parameters may have any value. -/
def boundary (p : Program) (m : Method) : ConstFact :=
  match p.body? m with
  | none => ∅
  | some b => .ofList ((b.params.filter fun v => v.type.holdsInt).map fun v => (v, Value.nac))

/-- The value that a command gives to the variable it assigns. -/
def assigned (f : ConstFact) (c : Command Nat) : Value :=
  match c.source? with
  | some e => e.value f
  | none => .nac

/-- The fact after a statement: an assigned integer variable has the value computed for it. -/
def afterStmt (s : Stmt) (f : ConstFact) : ConstFact :=
  match s.command.defined? with
  | some v => if v.type.holdsInt then (f.update v (assigned f s.command)).2 else f
  | none => f

def afterNode (n : Node) (f : ConstFact) : ConstFact :=
  match n with
  | .stmt s => afterStmt s f
  | .entry _ | .exit _ => f

/-! ## Within a method -/

/-- The equations of one method: what enters a node is what leaves the nodes before it. -/
def methodEquations (g : Cfg) : Dataflow.Equations Node ConstFact AnalysisError where
  entering leaving n := .ok (meetAll ((g.preds n).map leaving))
  leaving n f := afterNode n f
  dependents n := g.succs n
  initial := ∅
  same f g := f.sameAs g

/-- The constants of one method. Its entry is not computed: what leaves it is the boundary. -/
def ofMethod (fuel : Nat) (p : Program) (m : Method) :
    Except AnalysisError (Dataflow.Solution Node ConstFact) :=
  let g := Cfg.ofMethod p m
  let eqs := methodEquations g
  let queue := g.nodes.filter fun n => decide (n ≠ g.entry)
  Dataflow.solve eqs .outOfFuel fuel (.start eqs g.nodes [] [(g.entry, boundary p m)] queue)

/-! ## Across methods -/

/-- The arguments of a call as the values of the callee's parameters. -/
def parameterFact (f : ConstFact) (args params : List Var) : ConstFact :=
  .ofList (((args.zip params).filter fun e => e.2.type.holdsInt).map fun e => (e.2, e.1.value f))

/-- What flows into a callee. -/
def intoCallee (p : Program) (s : CallSite) (m : Method) (f : ConstFact) :
    Except AnalysisError ConstFact :=
  match p.body? m with
  | none => .ok ∅
  | some b =>
    let args := s.call.args
    if args.length ≠ b.params.length then .error (.arity s m args.length b.params.length)
    else .ok (parameterFact f args b.params)

/-- The value that a callee returns: that of its returned variables, or any if it has no body. -/
def returnedValue (p : Program) (m : Method) (returned : List Var) (f : ConstFact) : Value :=
  if p.hasBody m then returned.foldl (fun v w => v.meet (w.value f)) .undef else .nac

/-- What flows back behind a call: the value of its result, if it is an integer. -/
def behindCall (p : Program) (s : CallSite) (m : Method) (returned : List Var) (f : ConstFact) :
    ConstFact :=
  match s.result with
  | some v =>
    if v.type.holdsInt then .ofList [(v, returnedValue p m returned f)] else ∅
  | none => ∅

/-- What flows past a call: all but its result. -/
def pastCall (s : CallSite) (f : ConstFact) : ConstFact :=
  match s.result with
  | some v => (f.remove v).2
  | none => f

/-- What flows along an edge from what leaves its source. -/
def alongEdge (p : Program) (e : Icfg.Edge) (f : ConstFact) : Except AnalysisError ConstFact :=
  match e with
  | .normal _ _ => .ok f
  | .callToReturn s _ => .ok (pastCall s f)
  | .call s m => intoCallee p s m f
  | .ret m _ s returned => .ok (behindCall p s m returned f)
  | .foreign s t => .error (.unknownEdge s t)

/-- The fact after a node. A call site passes its fact on through its edges alone. -/
def afterInterNode (n : Node) (f : ConstFact) : ConstFact :=
  match n.callSite? with
  | some _ => f
  | none => afterNode n f

/-- The facts where the entry methods of a graph start. -/
def boundaries (p : Program) (g : Icfg) : OrderedMap Node ConstFact :=
  .ofList (g.callGraph.entries.toList.map fun m => (Node.entry m, boundary p m))

/-- The equations of a joined graph: what enters a node is the boundary there and what flows along
the edges into it. -/
def programEquations (p : Program) (g : Icfg) :
    Dataflow.Equations Node ConstFact AnalysisError where
  entering leaving n := do
    let flows ← (g.inEdges n).mapM fun e => alongEdge p e (leaving e.source)
    pure (flows.foldl (fun t f => meetFact f t) ((boundaries p g).getD n ∅))
  leaving n f := afterInterNode n f
  dependents n := g.succs n
  initial := ∅
  same f g := f.sameAs g

/-- The constants of all methods of a graph. -/
def ofIcfg (fuel : Nat) (p : Program) (g : Icfg) :
    Except AnalysisError (Dataflow.Solution Node ConstFact) :=
  let eqs := programEquations p g
  let starts := (boundaries p g).entries
  Dataflow.solve eqs .outOfFuel fuel (.start eqs g.nodes.keys starts starts g.nodes.keys)

end ObjectFlow.Constants
