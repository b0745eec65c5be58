import ObjectFlow.Collections.OrderedMap
import ObjectFlow.Collections.OrderedSet
/-!
# Pointer flow graphs

An edge from one pointer to another says that every object of the first flows on
to the second. Edges are only added, and an edge keeps the kind it was added
with.
-/

namespace ObjectFlow

/-- What makes objects flow. -/
inductive FlowKind where
  | localAssign
  | staticLoad | staticStore
  | instanceLoad | instanceStore
  | arrayLoad | arrayStore
  | parameterPassing
  | ret
deriving DecidableEq

namespace FlowKind

def render : FlowKind → String
  | localAssign => "local-assign"
  | staticLoad => "static-load"
  | staticStore => "static-store"
  | instanceLoad => "instance-load"
  | instanceStore => "instance-store"
  | arrayLoad => "array-load"
  | arrayStore => "array-store"
  | parameterPassing => "parameter-passing"
  | ret => "return"

def all : List FlowKind :=
  [localAssign, staticLoad, staticStore, instanceLoad, instanceStore, arrayLoad, arrayStore,
    parameterPassing, ret]

def ofString? (s : String) : Option FlowKind := all.find? fun k => decide (k.render = s)

end FlowKind

structure FlowGraph (π : Type) where
  nodes : OrderedSet π
  edges : OrderedMap (π × π) FlowKind

namespace FlowGraph

variable {π : Type}

def empty : FlowGraph π := ⟨∅, ∅⟩

instance : Inhabited (FlowGraph π) := ⟨empty⟩

/-- The pointers at the ends of edges, in the order in which they were met. -/
def pointers (g : FlowGraph π) : List π := g.nodes.toList

def edgeCount (g : FlowGraph π) : Nat := g.edges.size

variable [DecidableEq π]

def hasEdge (g : FlowGraph π) (source target : π) : Bool := g.edges.contains (source, target)

def kind? (g : FlowGraph π) (source target : π) : Option FlowKind := g.edges.get? (source, target)

/-- The pointers behind a pointer, in the order in which their edges were added. -/
def succs (g : FlowGraph π) (p : π) : List π :=
  g.edges.keys.filterMap fun e => if e.1 = p then some e.2 else none

/-- Adds an edge unless there is one. -/
def addEdge (g : FlowGraph π) (source target : π) (kind : FlowKind) : FlowGraph π :=
  if g.hasEdge source target then g
  else ⟨(g.nodes.insert source).insert target, g.edges.insert (source, target) kind⟩

end FlowGraph

end ObjectFlow
