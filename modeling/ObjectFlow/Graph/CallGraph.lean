import ObjectFlow.Collections.OrderedMap
import ObjectFlow.Collections.OrderedSet
import ObjectFlow.Program.Expr
/-!
# Call graphs

A call graph holds the methods that a program can reach and the edges of its
calls. It only grows. It is used both over plain methods and over methods in a
context, so methods `μ` and call sites `σ` are parameters. Edges are kept by call
site and by callee.
-/

namespace ObjectFlow

structure CallEdge (μ σ : Type) where
  kind : CallKind
  site : σ
  callee : μ
deriving DecidableEq

def CallEdge.render {μ σ : Type} (site : σ → String) (method : μ → String) (e : CallEdge μ σ) :
    String :=
  "[" ++ e.kind.tag ++ "] " ++ site e.site ++ " -> " ++ method e.callee

structure CallGraph (μ σ : Type) where
  entries : OrderedSet μ
  reachable : OrderedSet μ
  bySite : OrderedMap σ (OrderedSet (CallEdge μ σ))
  byCallee : OrderedMap μ (OrderedSet (CallEdge μ σ))
  edgeCount : Nat

namespace CallGraph

variable {μ σ : Type}

def empty : CallGraph μ σ := ⟨∅, ∅, ∅, ∅, 0⟩

instance : Inhabited (CallGraph μ σ) := ⟨empty⟩

/-- All edges, grouped by call site. -/
def edges (g : CallGraph μ σ) : List (CallEdge μ σ) :=
  g.bySite.values.flatMap OrderedSet.toList

variable [DecidableEq μ] [DecidableEq σ]

/-! ## Growing -/

/-- Notes a method where a run starts, which reaches nothing yet. -/
def noteEntry (g : CallGraph μ σ) (m : μ) : CallGraph μ σ :=
  { g with entries := g.entries.insert m }

def addReachable (g : CallGraph μ σ) (m : μ) : CallGraph μ σ :=
  { g with reachable := g.reachable.insert m }

/-- Adds a method where a run starts. -/
def addEntry (g : CallGraph μ σ) (m : μ) : CallGraph μ σ := (g.noteEntry m).addReachable m

/-- The edges out of a call site. -/
def edgesFrom (g : CallGraph μ σ) (s : σ) : OrderedSet (CallEdge μ σ) := g.bySite.getD s ∅

/-- The edges into a callee. -/
def edgesInto (g : CallGraph μ σ) (m : μ) : OrderedSet (CallEdge μ σ) := g.byCallee.getD m ∅

def hasEdge (g : CallGraph μ σ) (e : CallEdge μ σ) : Bool := decide (e ∈ g.edgesFrom e.site)

/-- Adds an edge unless the graph has it. -/
def addEdge (g : CallGraph μ σ) (e : CallEdge μ σ) : CallGraph μ σ :=
  if g.hasEdge e then g
  else { g with
    bySite := g.bySite.insert e.site ((g.edgesFrom e.site).insert e)
    byCallee := g.byCallee.insert e.callee ((g.edgesInto e.callee).insert e)
    edgeCount := g.edgeCount + 1 }

/-! ## Asking -/

def isReachable (g : CallGraph μ σ) (m : μ) : Bool := decide (m ∈ g.reachable)

def calleesOf (g : CallGraph μ σ) (s : σ) : List μ :=
  (OrderedSet.ofList ((g.edgesFrom s).toList.map CallEdge.callee)).toList

def callersOf (g : CallGraph μ σ) (m : μ) : List σ :=
  (OrderedSet.ofList ((g.edgesInto m).toList.map CallEdge.site)).toList

/-- The callees of the given call sites, each once. -/
def calleesOfSites (g : CallGraph μ σ) (sites : List σ) : List μ :=
  (OrderedSet.ofList (sites.flatMap g.calleesOf)).toList

end CallGraph

/-! ## As a graph over methods -/

/-- A graph with methods as nodes. A node is an entry, or reachable and no entry, or known only as
the end of an edge. -/
structure MethodGraph (μ σ : Type) where
  nodes : OrderedMap μ (Option Bool)
  edges : List (μ × CallEdge μ σ)

namespace CallGraph

variable {μ σ : Type} [DecidableEq μ] [DecidableEq σ]

/-- Makes a method a node, unless it is one. -/
def noteNode (nodes : OrderedMap μ (Option Bool)) (m : μ) : OrderedMap μ (Option Bool) :=
  if nodes.contains m then nodes else nodes.insert m none

/-- The graph with an edge from the method of each call site to each of its callees. -/
def toMethodGraph (container : σ → μ) (g : CallGraph μ σ) : MethodGraph μ σ :=
  let reached := g.reachable.toList.foldl
    (fun ns m => ns.insert m (some (decide (m ∈ g.entries)))) (∅ : OrderedMap μ (Option Bool))
  { nodes := g.edges.foldl (fun ns e => noteNode (noteNode ns (container e.site)) e.callee) reached
    edges := g.edges.map fun e => (container e.site, e) }

end CallGraph

end ObjectFlow
