import ObjectFlow.Graph.Cha
import ObjectFlow.PointsTo.Analysis
/-!
# What a pointer analysis found

Questions about elements in a context are answered with objects in a context.
The other questions merge all contexts and are answered with allocation sites,
in the order in which these were met. Elements that never appeared point to
nothing.
-/

namespace ObjectFlow.PointsTo

/-- The structures of a finished run. -/
structure Findings where
  elements : Manager
  heap : Interner AllocSite
  pointsTo : OrderedMap Pointer (PointsToSet CtxObject)
  calls : CtxCallGraph

namespace Findings

def ofState (st : State) : Findings := ⟨st.elements, st.heap, st.pointsTo, st.calls⟩

variable (r : Findings)

/-- The objects that a pointer points to. -/
def objectsOf (q : Pointer) : PointsToSet CtxObject := r.pointsTo.getD q ∅

/-- Objects in a context, in the order in which they appeared. -/
def inOrder (objs : List CtxObject) : List CtxObject :=
  r.elements.objects.toList.filter fun o => decide (o ∈ objs)

/-- The allocation sites of the objects of some pointers, in the order in which they appeared. -/
def sitesOf (qs : List Pointer) : List AllocSite :=
  let objs := qs.flatMap fun q => (r.objectsOf q).toList
  r.heap.toList.filter fun s => decide (s ∈ objs.map CtxObject.site)

/-! ## Variables -/

/-- The variable of a pointer to one. -/
def varOf? : Pointer → Option Var
  | .var _ v => v
  | _ => none

/-- The pointers of a variable, over all contexts. -/
def pointersOf (v : Var) : List Pointer :=
  r.elements.varPointers.filter fun q => decide (varOf? q = some v)

/-- The variables that appeared in some context. -/
def vars : List Var :=
  (OrderedSet.ofList (r.elements.varPointers.filterMap varOf?)).toList

/-- What a variable may point to in a context. -/
def pointsToIn (c : Ctx) (v : Var) : List CtxObject :=
  r.inOrder (r.objectsOf (.var c (some v))).toList

/-- What a variable may point to in any context. -/
def variableSites (v : Var) : List AllocSite := r.sitesOf (r.pointersOf v)

/-- Two variables may point to the same object. -/
def mayAlias (v w : Var) : Bool := (r.variableSites v).any fun s => decide (s ∈ r.variableSites w)

/-! ## Fields and elements -/

def staticFieldSites (f : Field) : List AllocSite := r.sitesOf [.staticField f]

/-- The pointer is the given field of an object made at the given place. -/
def isFieldOf (s : AllocSite) (f : Field) : Pointer → Bool
  | .instanceField b g => decide (b.site = s) && decide (g = f)
  | _ => false

def isElementOf (s : AllocSite) : Pointer → Bool
  | .arrayIndex a => decide (a.site = s)
  | _ => false

/-- What a field may point to in the objects made at a place. -/
def fieldSites (s : AllocSite) (f : Field) : List AllocSite :=
  r.sitesOf (r.elements.instanceFieldPointers.filter (isFieldOf s f))

/-- What the elements of the arrays made at a place may point to. -/
def elementSites (s : AllocSite) : List AllocSite :=
  r.sitesOf (r.elements.arrayPointers.filter (isElementOf s))

/-! ## The call graph -/

/-- The edge without its contexts. -/
def plainEdge (e : CtxEdge) : CallEdge Method CallSite := ⟨e.kind, e.site.site, e.callee.method⟩

/-- The call graph without contexts. -/
def callGraph : PlainCallGraph :=
  let entries := r.calls.entries.toList.foldl
    (fun g m => g.addEntry m.method) (CallGraph.empty : PlainCallGraph)
  let reached := r.calls.reachable.toList.foldl (fun g m => g.addReachable m.method) entries
  r.calls.edges.foldl (fun g e => g.addEdge (plainEdge e)) reached

end Findings

end ObjectFlow.PointsTo
