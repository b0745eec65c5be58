import ObjectFlow.Error
import ObjectFlow.Graph.CallGraph
import ObjectFlow.Program.World
/-!
# Call graphs by class hierarchy

Callees are found from the class hierarchy alone: a virtual call may run the
method of any class below the one it names. Methods are processed breadth first
from the entry methods, each once.
-/

namespace ObjectFlow

/-- A call graph over methods. -/
abbrev PlainCallGraph := CallGraph Method CallSite

namespace Cha

/-- The methods that classes below the named one would run: of the class itself first, then of
its subtypes breadth first. -/
def virtualTargets (h : Hierarchy) (r : MethodRef) : List Method :=
  let next := fun c => h.directSubclasses c ++ h.directSubinterfaces c ++ h.directImplementors c
  let classes := (reachableFrom next (h.nodes.size + 1) r.owner).filter fun c => !h.isInterface c
  (OrderedSet.ofList (classes.filterMap fun c => h.dispatch c r.signature)).toList

/-- The methods that a call may run. A static or special call has exactly one. -/
def targets (h : Hierarchy) (s : CallSite) : Except AnalysisError (List Method) :=
  let r := s.call.ref
  match s.call.kind with
  | .static =>
    match h.resolve r with
    | .error c => .error (.unknownClass c)
    | .ok none => .error (.unresolved r none)
    | .ok (some m) => .ok [m]
  | .special =>
    match h.dispatch r.owner r.signature with
    | none => .error (.unresolved r (some (.object r.owner)))
    | some m => .ok [m]
  | .virtual | .interface => .ok (virtualTargets h r)

/-- A graph under construction, with the methods that wait to be processed. -/
structure State where
  graph : PlainCallGraph
  queue : List Method

/-- Adds the edges of one call. A callee that is not reached yet waits. -/
def addCall (site : CallSite) (callee : Method) (st : State) : State :=
  let graph := st.graph.addEdge ⟨site.call.kind, site, callee⟩
  ⟨graph, if graph.isReachable callee then st.queue else st.queue ++ [callee]⟩

/-- Adds the calls of a method, in order, up to the first that nothing answers. -/
def addCalls (h : Hierarchy) : List CallSite → State → Except AnalysisError State
  | [], st => .ok st
  | s :: sites, st => do
    let callees ← targets h s
    addCalls h sites (callees.foldl (fun st m => addCall s m st) st)

/-- Processes one waiting method, unless it was processed before. -/
def process (p : Program) (m : Method) (st : State) : Except AnalysisError State :=
  if st.graph.isReachable m then .ok st
  else addCalls p.hierarchy (p.callSites m) { st with graph := st.graph.addReachable m }

/-- Processes waiting methods until none is left. -/
def run (p : Program) : Nat → State → Except AnalysisError PlainCallGraph
  | 0, st => .ok st.graph
  | n + 1, st =>
    match st.queue with
    | [] => .ok st.graph
    | m :: queue => do
      let st ← process p m { st with queue := queue }
      run p n st

/-- Enough rounds for any run: every entry waits once, and every call lets a method wait at most
once. -/
def rounds (p : Program) (entries : List Method) : Nat :=
  let calls := p.bodies.values.flatMap Body.callSites
  entries.length + calls.length * p.hierarchy.methodCount + 1

/-- The call graph of what the entries reach. -/
def build (p : Program) (entries : List Method) : Except AnalysisError PlainCallGraph :=
  run p (rounds p entries) ⟨entries.foldl CallGraph.noteEntry .empty, entries⟩

end Cha

end ObjectFlow
