import ObjectFlow.Error
import ObjectFlow.PointsTo.Element
import ObjectFlow.PointsTo.FlowGraph
import ObjectFlow.Program.World
/-!
# The pointer analysis

The analysis grows the reachable methods, the flow graph, the points-to sets and
the call graph together. A method in a context becomes reachable when it is an
entry or the callee of a call edge; its body then brings the edges and objects
that need no receiver. A round takes one waiting pointer, adds its objects, and
passes the new ones on. Objects that are new to a variable bring the field and
element edges and the calls that have the variable as base.

Within a round the work stands on an agenda, first task first. A task changes
the state in one go or fails without a change, and puts the tasks it gives rise
to in front. A failure drops the agenda and keeps the state.
-/

namespace ObjectFlow.PointsTo

/-- A run of the analysis: where it starts, how it tells contexts apart, and how many rounds it
may take, without bound if zero. -/
structure Setup where
  entries : List Method
  selector : Selector
  roundLimit : Nat

abbrev CtxEdge := CallEdge CtxMethod CtxCallSite

abbrev CtxCallGraph := CallGraph CtxMethod CtxCallSite

structure State where
  elements : Manager
  heap : Interner AllocSite
  pointsTo : OrderedMap Pointer (PointsToSet CtxObject)
  flow : FlowGraph Pointer
  calls : CtxCallGraph
  pending : Pending Pointer CtxObject
  rounds : Nat
  started : Bool

/-- A piece of work that is still to be done. -/
inductive Task where
  /-- Make an entry method reachable. -/
  | enter (m : CtxMethod)
  /-- Treat a statement of a method that became reachable. -/
  | visit (m : CtxMethod) (s : Stmt)
  /-- Treat the uses of a variable as base for an object that is new to it. -/
  | receive (context : Ctx) (v : Option Var) (o : CtxObject)
  /-- Find the callee of a call on an object. -/
  | call (site : CtxCallSite) (o : CtxObject)
  /-- Join arguments to parameters and returned variables to the result. -/
  | wire (e : CtxEdge)

namespace State

def empty : State := ⟨.empty, ∅, ∅, .empty, .empty, .empty, 0, false⟩

instance : Inhabited State := ⟨empty⟩

variable (st : State)

/-- The objects that a pointer points to so far. -/
def objectsOf (p : Pointer) : PointsToSet CtxObject := st.pointsTo.getD p ∅

/-! ## Growing the structures -/

def internPointer (p : Pointer) : State := { st with elements := st.elements.internPointer p }

/-- Lets objects wait for a pointer. -/
def await (p : Pointer) (objs : PointsToSet CtxObject) : State :=
  { st.internPointer p with pending := st.pending.add p objs }

/-- Adds a flow edge. What the source points to waits for the target of a new edge. -/
def connect (source target : Pointer) (kind : FlowKind) : State :=
  let st := (st.internPointer source).internPointer target
  if st.flow.hasEdge source target then st
  else
    let st := { st with flow := st.flow.addEdge source target kind }
    if (st.objectsOf source).isEmpty then st else st.await target (st.objectsOf source)

/-- Makes a method reachable. Its body is treated the first time. -/
def reach (p : Program) (m : CtxMethod) : State × List Task :=
  if st.calls.isReachable m then (st, [])
  else
    let body := ((p.body? m.method).map Body.stmts).getD []
    ({ st with calls := st.calls.addReachable m }, body.map (.visit m))

/-- Adds a call edge. A new one makes the callee reachable and is then wired. -/
def addCall (p : Program) (e : CtxEdge) : State × List Task :=
  if st.calls.hasEdge e then (st, [])
  else
    let (st, body) := { st with calls := st.calls.addEdge e }.reach p e.callee
    (st, body ++ [.wire e])

/-- Adds the objects that are new to a pointer, lets them wait for the pointers behind it, and
lists them. -/
def propagate (q : Pointer) (objs : PointsToSet CtxObject) : State × List CtxObject :=
  let new := (st.objectsOf q).missing objs
  if new.isEmpty then (st, [])
  else
    let st := { st with pointsTo := st.pointsTo.insert q ((st.objectsOf q).union new) }
    ((st.flow.succs q).foldl (fun st t => st.await t new) st, new.toList)

end State

/-! ## Finding callees -/

/-- The method that a static call runs. -/
def staticCallee (h : Hierarchy) (r : MethodRef) : Except AnalysisError Method :=
  match h.resolve r with
  | .error c => .error (.unknownClass c)
  | .ok none => .error (.unresolved r none)
  | .ok (some m) => .ok m

/-- The type at which the callee of a call on an object is looked up. -/
def receiverType (c : Call) (o : CtxObject) : Ty :=
  match c.kind with
  | .special => .object c.ref.owner
  | _ => o.site.type

/-- The method that a call on an object runs. -/
def instanceCallee (h : Hierarchy) (c : Call) (o : CtxObject) : Except AnalysisError Method :=
  let type := receiverType c o
  let found := match type with
    | .object d => h.dispatch d c.ref.signature
    | _ => none
  match found with
  | none => .error (.unresolved c.ref (some type))
  | some m => .ok m

/-- What stands for an object in the context of a callee. -/
def receiverObject (o : CtxObject) : ReceiverObject ContextElement :=
  ⟨o.context, .object o.site, .type o.site.method.owner⟩

/-- The callee of a call site in its context. -/
def calleeAt (s : Selector) (site : CtxCallSite) (o : Option CtxObject) (callee : Method) :
    CtxMethod :=
  ⟨s.calleeContext site.context (.callSite site.site) (o.map receiverObject), callee⟩

/-! ## Tasks -/

/-- An entry method becomes reachable in the empty context. -/
def enter (p : Program) (m : CtxMethod) (st : State) : State × List Task :=
  { st with
    elements := st.elements.internMethod m
    calls := st.calls.noteEntry m }.reach p m

/-- An allocation lets its object wait for the assigned variable. -/
def visitAlloc (s : Selector) (m : CtxMethod) (v : Var) (o : AllocSite) (st : State) : State :=
  let obj : CtxObject := ⟨s.heapContext m.context, o⟩
  { st with
    heap := st.heap.intern o
    elements := st.elements.internObject obj }.await (.var m.context (some v)) (.singleton obj)

/-- A static call gets its edge at once. -/
def visitStaticCall (p : Program) (s : Selector) (m : CtxMethod) (site : CallSite) (st : State) :
    Except AnalysisError (State × List Task) := do
  let callee ← staticCallee p.hierarchy site.call.ref
  let ctxSite : CtxCallSite := ⟨m.context, site⟩
  let ctxCallee := calleeAt s ctxSite none callee
  let elements := (st.elements.internCallSite ctxSite).internMethod ctxCallee
  pure ({ st with elements := elements }.addCall p ⟨.static, ctxSite, ctxCallee⟩)

/-- What a statement brings when its method becomes reachable. -/
def visit (p : Program) (s : Selector) (m : CtxMethod) (stmt : Stmt) (st : State) :
    Except AnalysisError (State × List Task) :=
  let var := fun v => Pointer.var m.context (some v)
  match stmt.command with
  | .alloc v t => .ok (visitAlloc s m v ⟨stmt.place, t⟩ st, [])
  | .copy v w => .ok (st.connect (var w) (var v) .localAssign, [])
  | .loadField v (.static f) => .ok (st.connect (.staticField f) (var v) .staticLoad, [])
  | .storeField (.static f) v => .ok (st.connect (var v) (.staticField f) .staticStore, [])
  | .invoke result call =>
    if call.isStatic then visitStaticCall p s m ⟨stmt.place, result, call⟩ st else .ok (st, [])
  | .foreign _ _ => .error (.unknownStatement stmt)
  | _ => .ok (st, [])

/-- The edge of a field or element access for one object of its base. -/
def connectAccess (context : Ctx) (o : CtxObject) (st : State) (stmt : Stmt) : State :=
  let var := fun v => Pointer.var context (some v)
  match stmt.command with
  | .storeField a v => st.connect (var v) (.instanceField o a.field) .instanceStore
  | .loadField v a => st.connect (.instanceField o a.field) (var v) .instanceLoad
  | .storeElement _ _ v => st.connect (var v) (.arrayIndex o) .arrayStore
  | .loadElement v _ _ => st.connect (.arrayIndex o) (var v) .arrayLoad
  | _ => st

/-- The field and element accesses that have a variable as base: stores before loads, fields before
elements. -/
def accesses (p : Program) (v : Var) : List Stmt :=
  p.fieldStores v ++ p.fieldLoads v ++ p.elementStores v ++ p.elementLoads v

/-- The uses of a variable as base, for one object: the accesses, and the calls last. -/
def receive (p : Program) (context : Ctx) (v : Var) (o : CtxObject) (st : State) :
    State × List Task :=
  ((accesses p v).foldl (connectAccess context o) st,
    (p.calls v).map fun s => .call ⟨context, s⟩ o)

/-- A call on an object gets its edge, and the object waits for the receiver of the callee. -/
def call (p : Program) (s : Selector) (site : CtxCallSite) (o : CtxObject) (st : State) :
    Except AnalysisError (State × List Task) := do
  let callee ← instanceCallee p.hierarchy site.site.call o
  let ctxCallee := calleeAt s site (some o) callee
  let st := { st with elements := (st.elements.internCallSite site).internMethod ctxCallee }
  let st := match p.body? callee with
    | none => st
    | some b => st.await (.var ctxCallee.context b.receiver) (.singleton o)
  pure (st.addCall p ⟨site.site.call.kind, site, ctxCallee⟩)

/-- The edges from arguments to parameters. -/
def wireArguments (caller callee : Ctx) (st : State) (pairs : List (Var × Var)) : State :=
  pairs.foldl (fun st e =>
    st.connect (.var caller (some e.1)) (.var callee (some e.2)) .parameterPassing) st

/-- The edges from returned variables to the result. -/
def wireResult (caller callee : Ctx) (returned : List Var) (st : State) (result : Var) : State :=
  let target := Pointer.var caller (some result)
  returned.foldl (fun st v => st.connect (.var callee (some v)) target .ret)
    (st.internPointer target)

/-- Wires a call edge to a callee with a body, whose parameters must match the arguments. -/
def wire (p : Program) (e : CtxEdge) (st : State) : Except AnalysisError State :=
  match p.body? e.callee.method with
  | none => .ok st
  | some b =>
    let site := e.site.site
    let args := site.call.args
    if args.length ≠ b.params.length then
      .error (.arity site e.callee.method args.length b.params.length)
    else
      let st := wireArguments e.site.context e.callee.context st (args.zip b.params)
      .ok (site.result.toList.foldl
        (wireResult e.site.context e.callee.context b.returnVars) st)

/-- Does a task, and gives the tasks that come of it. -/
def exec (p : Program) (s : Selector) (t : Task) (st : State) :
    Except AnalysisError (State × List Task) :=
  match t with
  | .enter m => .ok (enter p m st)
  | .visit m stmt => visit p s m stmt st
  | .receive _ none _ => .error .missingReceiver
  | .receive c (some v) o => .ok (receive p c v o st)
  | .call site o => call p s site o st
  | .wire e => (wire p e st).map fun st => (st, [])

/-- Does the tasks of an agenda and all that comes of them, with at most the granted number of
tasks. -/
def settle (p : Program) (s : Selector) : Nat → List Task → State →
    Except AnalysisError Unit × State
  | _, [], st => (.ok (), st)
  | 0, _ :: _, st => (.error .outOfFuel, st)
  | fuel + 1, t :: agenda, st =>
    match exec p s t st with
    | .error e => (.error e, st)
    | .ok (st, new) => settle p s fuel (new ++ agenda) st

/-! ## Rounds -/

/-- Makes the entry methods reachable. -/
def start (fuel : Nat) (p : Program) (setup : Setup) (st : State) :
    Except AnalysisError Unit × State :=
  if st.started then (.error .startedTwice, st)
  else settle p setup.selector fuel (setup.entries.map fun m => .enter ⟨[], m⟩)
    { st with started := true }

/-- The tasks that new objects of a pointer bring. -/
def arrivals (q : Pointer) (new : List CtxObject) : List Task :=
  match q with
  | .var c v => new.map (.receive c v)
  | _ => []

/-- One round for a pointer and the objects that waited for it, where the others still wait. -/
def round (fuel : Nat) (p : Program) (setup : Setup) (q : Pointer) (objs : PointsToSet CtxObject)
    (rest : Pending Pointer CtxObject) (st : State) : Except AnalysisError Bool × State :=
  let st := { st with rounds := st.rounds + 1 }
  if setup.roundLimit ≠ 0 ∧ setup.roundLimit < st.rounds then
    (.error (.aborted (.roundLimit setup.roundLimit)), st)
  else
    let (st, new) := { st with pending := rest }.propagate q objs
    let (r, st) := settle p setup.selector fuel (arrivals q new) st
    (r.map fun _ => true, st)

/-- One round for the pointer that has waited longest. There is none left if nothing waits. -/
def step (fuel : Nat) (p : Program) (setup : Setup) (st : State) :
    Except AnalysisError Bool × State :=
  match st.pending.poll? with
  | none => (.ok false, st)
  | some ((q, objs), rest) => round fuel p setup q objs rest st

/-- Rounds until nothing waits, at most the granted number. -/
def rounds (fuel : Nat) (p : Program) (setup : Setup) : Nat → State →
    Except AnalysisError Unit × State
  | 0, st => (.error .outOfFuel, st)
  | n + 1, st =>
    match step fuel p setup st with
    | (.error e, st) => (.error e, st)
    | (.ok false, st) => (.ok (), st)
    | (.ok true, st) => rounds fuel p setup n st

/-- The whole analysis from any state: the start, if there was none, and all rounds. -/
def analyze (fuel : Nat) (p : Program) (setup : Setup) (st : State) :
    Except AnalysisError Unit × State :=
  if st.started then rounds fuel p setup fuel st
  else match start fuel p setup st with
    | (.error e, st) => (.error e, st)
    | (.ok _, st) => rounds fuel p setup fuel st

end ObjectFlow.PointsTo
