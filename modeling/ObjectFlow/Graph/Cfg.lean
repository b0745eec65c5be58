import ObjectFlow.Graph.Node
import ObjectFlow.Program.World
/-!
# Control flow graphs of methods

The nodes are the statements of a body in order, between the entry and the exit.
A method without a body has one edge, from the entry to the exit.
-/

namespace ObjectFlow

namespace Cfg

inductive EdgeKind where
  | entry | fallThrough | goto | ifTrue | ifFalse | ret
deriving DecidableEq

def EdgeKind.render : EdgeKind → String
  | .entry => "entry"
  | .fallThrough => "fall-through"
  | .goto => "goto"
  | .ifTrue => "if-true"
  | .ifFalse => "if-false"
  | .ret => "return"

structure Edge where
  kind : EdgeKind
  source : Node
  target : Node
deriving DecidableEq

def Edge.render (e : Edge) : String :=
  e.source.render ++ " -" ++ e.kind.render ++ "-> " ++ e.target.render

end Cfg

/-- A control flow graph. Edges stand in the order in which they were added. -/
structure Cfg where
  method : Method
  nodes : List Node
  edges : List Cfg.Edge

namespace Cfg

def entry (g : Cfg) : Node := .entry g.method

def exit (g : Cfg) : Node := .exit g.method

def contains (g : Cfg) (n : Node) : Bool := decide (n ∈ g.nodes)

def inEdges (g : Cfg) (n : Node) : List Edge := g.edges.filter fun e => decide (e.target = n)

def outEdges (g : Cfg) (n : Node) : List Edge := g.edges.filter fun e => decide (e.source = n)

def preds (g : Cfg) (n : Node) : List Node := (g.inEdges n).map Edge.source

def succs (g : Cfg) (n : Node) : List Node := (g.outEdges n).map Edge.target

/-! ## Building -/

/-- An edge to a statement, if there is one. -/
def edgeTo (kind : EdgeKind) (source : Node) (target : Option Stmt) : List Edge :=
  (target.map fun s => ⟨kind, source, .stmt s⟩).toList

/-- The edges out of a statement, where `next` is the one that follows it. -/
def edgesOf (b : Body) (s : Stmt) (next : Option Stmt) : List Edge :=
  match s.command with
  | .ret _ => [⟨.ret, .stmt s, .exit b.method⟩]
  | .goto i => edgeTo .goto (.stmt s) (b.target? i)
  | .branch _ _ _ i => edgeTo .ifTrue (.stmt s) (b.target? i) ++ edgeTo .ifFalse (.stmt s) next
  | _ => edgeTo .fallThrough (.stmt s) next

/-- The edges out of each of a list of statements. -/
def edgesOfAll (b : Body) : List Stmt → List Edge
  | [] => []
  | s :: rest => edgesOf b s rest.head? ++ edgesOfAll b rest

/-- The graph of a body. -/
def ofBody (b : Body) : Cfg where
  method := b.method
  nodes := .entry b.method :: (b.stmts.map Node.stmt ++ [.exit b.method])
  edges := edgeTo .entry (.entry b.method) b.stmts.head? ++ edgesOfAll b b.stmts

/-- The graph of a method without a body. -/
def withoutBody (m : Method) : Cfg where
  method := m
  nodes := [.entry m, .exit m]
  edges := [⟨.entry, .entry m, .exit m⟩]

def ofMethod (p : Program) (m : Method) : Cfg :=
  match p.body? m with
  | none => withoutBody m
  | some b => ofBody b

end Cfg

end ObjectFlow
