import ObjectFlow.Collections.OrderedMap
import ObjectFlow.Program.Stmt
import ObjectFlow.Text.Term
/-!
# Writing bodies

A draft is a body being written, command by command. Jumps name labels, and a
label is marked at the command that comes next. Finishing closes the body so
that control cannot run off its end, leads every jump to its position and
numbers the commands; the n-th command stands on line n.
-/

namespace ObjectFlow

/-- Why a step of writing was refused. -/
inductive DraftError where
  | parameterNames (names : List String)
  | finished (m : Method)
  | marked (label : String)
  | unmarked (label : String) (m : Method)
  | unknownOperator (given : Term)
  | unknownCallKind (given : Term)
  | baseMismatch (f : Field)
  | receiverMismatch (k : CallKind)

def DraftError.message : DraftError → String
  | .parameterNames names => (Term.list (names.map fun n => .atom (.text n))).render
  | .finished m => m.render
  | .marked l => "<label " ++ l ++ ">"
  | .unmarked l m => "label " ++ l ++ " of " ++ m.render ++ " is never marked"
  | .unknownOperator t => "unknown binary operator " ++ t.render
  | .unknownCallKind t => t.render ++ " is not a valid CallKind"
  | .baseMismatch f => f.render
  | .receiverMismatch k => "CallKind." ++ k.tag

/-! ## Parts of commands -/

/-- The operator whose symbol a term is. -/
def BinaryOp.read (t : Term) : Except DraftError BinaryOp :=
  match BinaryOp.ofSymbol? t.toText with
  | some op => .ok op
  | none => .error (.unknownOperator t)

/-- The kind of call whose keyword a term is. -/
def CallKind.read (t : Term) : Except DraftError CallKind :=
  match CallKind.ofKeyword? t.toText with
  | some k => .ok k
  | none => .error (.unknownCallKind t)

/-- The access to a field on a base, which a static field must not have and any other must. -/
def FieldAccess.make (base : Option Var) (f : Field) : Except DraftError FieldAccess :=
  match FieldAccess.of? base f with
  | some a => .ok a
  | none => .error (.baseMismatch f)

/-- A call, which has a receiver exactly if it is not static. -/
def Call.make (k : CallKind) (ref : MethodRef) (base : Option Var) (args : List Var) :
    Except DraftError Call :=
  match Dispatch.of? k base with
  | some d => .ok ⟨d, ref, args⟩
  | none => .error (.receiverMismatch k)

/-! ## Drafts -/

/-- A body being written. -/
structure Draft where
  method : Method
  receiver : Option Var
  params : List Var
  vars : List Var
  commands : List (Command String)
  marks : OrderedMap String Nat
  finished : Bool

namespace Draft

/-- Names for the parameters of a method: those given, or p0, p1, …. -/
def parameterNames (m : Method) : Option (List String) → List String
  | some names => names
  | none => (List.range m.signature.params.length).map fun i => "p" ++ toString i

/-- The receiver of a method that has one. -/
def receiverOf (m : Method) : Option Var :=
  if m.isStatic then none else some ⟨0, "this", .object m.owner, m⟩

/-- An empty draft. Its first variables are the receiver and the parameters. -/
def start (m : Method) (names : Option (List String)) : Except DraftError Draft :=
  let names := parameterNames m names
  if names.length ≠ m.signature.params.length then .error (.parameterNames names)
  else
    let receiver := receiverOf m
    let first := receiver.toList.length
    let params := (names.zip m.signature.params).mapIdx fun i p => ⟨first + i, p.1, p.2, m⟩
    .ok ⟨m, receiver, params, receiver.toList ++ params, [], ∅, false⟩

/-- Declares a variable. -/
def addVar (d : Draft) (name : String) (type : Ty) : Var × Draft :=
  let v : Var := ⟨d.vars.length, name, type, d.method⟩
  (v, { d with vars := d.vars ++ [v] })

/-- The variable declared last under a name. -/
def var? (d : Draft) (name : String) : Option Var :=
  d.vars.reverse.find? fun v => decide (v.name = name)

/-- Appends a statement. Each statement is appended once, so its position tells it from all others;
and a jump carries its label, which finishing leads to a position. -/
def append (d : Draft) (c : Command String) : Except DraftError Draft :=
  if d.finished then .error (.finished d.method)
  else .ok { d with commands := d.commands ++ [c] }

/-- Marks the next command with a label, which must not be marked yet. -/
def mark (d : Draft) (label : String) : Except DraftError Draft :=
  if d.marks.contains label then .error (.marked label)
  else .ok { d with marks := d.marks.insert label d.commands.length }

/-- Adds a command for labels that are marked behind the last one. -/
def closeMarks (d : Draft) : Draft :=
  if d.marks.values.any fun i => decide (i = d.commands.length) then
    { d with commands := d.commands ++ [.nop] }
  else d

/-- Control can run off the end. -/
def runsOff (d : Draft) : Bool :=
  match d.commands.getLast? with
  | none => true
  | some c => c.fallsThrough

/-- Adds a return if control can run off the end. -/
def closeEnd (d : Draft) : Draft :=
  if d.runsOff then { d with commands := d.commands ++ [.ret none] } else d

/-- The position of a label. -/
def position (d : Draft) (label : String) : Except DraftError Nat :=
  match d.marks.get? label with
  | some i => .ok i
  | none => .error (.unmarked label d.method)

/-- The commands with their jumps led to positions; the first jump that leads nowhere is
reported. -/
def resolve (d : Draft) : Except DraftError (List (Command Nat)) :=
  d.commands.mapM fun c => c.retarget d.position

/-- Commands at their places. -/
def place (m : Method) (cs : List (Command Nat)) : List Stmt :=
  cs.mapIdx fun i c => ⟨⟨i, i + 1, m⟩, c⟩

/-- The finished body. The commands that close the body stay if a jump leads nowhere. -/
def finish (d : Draft) : Except DraftError Body × Draft :=
  if d.finished then (.error (.finished d.method), d)
  else
    let closed := d.closeMarks.closeEnd
    match closed.resolve with
    | .error e => (.error e, closed)
    | .ok cs =>
      (.ok ⟨d.method, d.receiver, d.params, d.vars, place d.method cs⟩,
        { closed with finished := true })

end Draft

end ObjectFlow
