import ObjectFlow.Program.World
/-!
# Programs in terms

Types, members, expressions and statements written as terms, with names for what
was declared before. A type is its name with a pair of brackets for each array
around it; an expression is a name, an integer, an operator with two operands,
or a record that says what it accesses; a statement is a list that begins with
its kind.
-/

namespace ObjectFlow

/-- Why something that was written stands for nothing. -/
inductive NotationError where
  | unknown (name : String)
  | malformed (t : Term)
  | refused (e : DraftError)

/-- What the names of classes and methods stand for. -/
structure Names where
  classes : OrderedMap String ClassRef
  methods : OrderedMap String Method

abbrev Reading := Except NotationError

namespace Reading

/-- What a name stands for, if it stands for something. -/
def named {α : Type} (name : String) : Option α → Reading α
  | some a => .ok a
  | none => .error (.unknown name)

def drafted {α : Type} : Except DraftError α → Reading α
  | .ok a => .ok a
  | .error e => .error (.refused e)

/-- Reads a term unless it is null. -/
def optional {α : Type} (read : Term → Reading α) (t : Term) : Reading (Option α) :=
  if t.isNull then .ok none else (read t).map some

end Reading

namespace Names

def empty : Names := ⟨∅, ∅⟩

instance : Inhabited Names := ⟨empty⟩

variable (n : Names)

def addClass (name : String) (c : ClassRef) : Names := { n with classes := n.classes.insert name c }

def addMethod (name : String) (m : Method) : Names := { n with methods := n.methods.insert name m }

/-! ## Types and members -/

def readClass (t : Term) : Reading ClassRef := .named t.toText (n.classes.get? t.toText)

def readMethod (t : Term) : Reading Method := .named t.toText (n.methods.get? t.toText)

/-- The type of a name without brackets. -/
def typeOfName (name : String) : Reading Ty :=
  if name = "void" then .ok .void
  else match Primitive.ofName? name with
    | some p => .ok (.primitive p)
    | none => (n.readClass (.text name)).map .object

/-- The type of a name whose characters are listed last first. -/
def typeOfReversed (n : Names) : List Char → Reading Ty
  | ']' :: '[' :: cs => (typeOfReversed n cs).map .array
  | cs => n.typeOfName (String.ofList cs.reverse)

def readType (t : Term) : Reading Ty := n.typeOfReversed t.toText.toList.reverse

def readSignature (name params result : Term) : Reading Signature := do
  let params ← params.items.mapM n.readType
  let result ← n.readType result
  pure ⟨name.toText, params, result⟩

/-- A reference, which is a class, a name, the parameter types and the result type. -/
def readRef (t : Term) : Reading MethodRef := do
  let c ← n.readClass (t.item 0)
  let s ← n.readSignature (t.item 1) (t.item 2) (t.item 3)
  pure ⟨c, s⟩

/-- What a call names: a reference, or a declared method, which stands for the reference to
itself. -/
def readTarget (t : Term) : Reading MethodRef :=
  match t with
  | .list _ => n.readRef t
  | _ => (n.readMethod t).map Method.ref

/-- The parts of a name before and after its last point. -/
def splitAtPoint (name : String) : String × String :=
  match name.toList.reverse.span (· ≠ '.') with
  | (member, _ :: owner) => (String.ofList owner.reverse, String.ofList member.reverse)
  | (member, []) => ("", String.ofList member.reverse)

/-- The field that a class declares under a name. -/
def readField (h : Hierarchy) (t : Term) : Reading Field := do
  let (owner, name) := splitAtPoint t.toText
  let c ← n.readClass (.text owner)
  .named t.toText (h.declaredField? c name)

/-! ## Expressions -/

/-- What names stand for within a body. -/
structure Scope where
  names : Names
  hierarchy : Hierarchy
  draft : Draft

end Names

namespace Names.Scope

variable (s : Scope)

def readVar (t : Term) : Reading Var := .named t.toText (s.draft.var? t.toText)

def readAccess (base field : Term) : Reading FieldAccess := do
  let b ← Reading.optional s.readVar base
  let f ← s.names.readField s.hierarchy field
  .drafted (FieldAccess.make b f)

def readExpr (s : Scope) (t : Term) : Reading Expr :=
  match t with
  | .atom (.text _) => (s.readVar t).map .var
  | .atom (.int n) => .ok (.literal n)
  | .list [op, l, r] => do
    let l ← readExpr s l
    let r ← readExpr s r
    let op ← .drafted (BinaryOp.read op)
    pure (.binary op l r)
  | .record [("new", type)] => (s.names.readType type).map .alloc
  | .record [("field", access)] => (s.readAccess (access.item 0) (access.item 1)).map .field
  | .record [("array", .list [base, index])] => do
    let b ← s.readVar base
    let i ← readExpr s index
    pure (.element b i)
  | _ => .error (.malformed t)

/-! ## Statements -/

def readCall (kind : CallKind) (target base args result : Term) : Reading (Command String) := do
  let ref ← s.names.readTarget target
  let b ← Reading.optional s.readVar base
  let args ← args.items.mapM s.readVar
  let result ← Reading.optional s.readVar result
  let call ← .drafted (Call.make kind ref b args)
  pure (.invoke result call)

def readBinary (make : BinaryOp → Expr → Expr → Command String) (op left right : Term) :
    Reading (Command String) := do
  let l ← s.readExpr left
  let r ← s.readExpr right
  let op ← .drafted (BinaryOp.read op)
  pure (make op l r)

/-- A command that is no call. -/
def readPlain? (t : Term) : Option (Reading (Command String)) :=
  let a := t.item
  let load (target base field : Term) : Reading (Command String) := do
    let v ← s.readVar target
    pure (.loadField v (← s.readAccess base field))
  let store (base field source : Term) : Reading (Command String) := do
    let b ← Reading.optional s.readVar base
    let f ← s.names.readField s.hierarchy field
    let v ← s.readVar source
    let access ← .drafted (FieldAccess.make b f)
    pure (.storeField access v)
  match (a 0).toText with
  | "new" => some do pure (.alloc (← s.readVar (a 1)) (← s.names.readType (a 2)))
  | "literal" => some do pure (.literal (← s.readVar (a 1)) (a 2).toInt)
  | "copy" => some do pure (.copy (← s.readVar (a 1)) (← s.readVar (a 2)))
  | "binary" => some do
    let v ← s.readVar (a 1)
    s.readBinary (.binary v) (a 2) (a 3) (a 4)
  | "load" => some (load (a 1) (a 2) (a 3))
  | "store" => some (store (a 1) (a 2) (a 3))
  | "loadStatic" => some (load (a 1) .null (a 2))
  | "storeStatic" => some (store .null (a 1) (a 2))
  | "aload" => some do
    pure (.loadElement (← s.readVar (a 1)) (← s.readVar (a 2)) (← s.readExpr (a 3)))
  | "astore" => some do
    pure (.storeElement (← s.readVar (a 1)) (← s.readExpr (a 2)) (← s.readVar (a 3)))
  | "ret" => some do pure (.ret (← Reading.optional s.readVar (a 1)))
  | "nop" => some (.ok .nop)
  | "if" => some (s.readBinary (fun op l r => .branch op l r (a 4).toText) (a 1) (a 2) (a 3))
  | "goto" => some (.ok (.goto (a 1).toText))
  | _ => none

/-- A call by its kind. A static call has no base, unless its kind is given as an argument. -/
def readInvoke (t : Term) : Reading (Command String) :=
  let a := t.item
  match (a 0).toText with
  | "static" => s.readCall .static (a 1) .null (a 3) (a 4)
  | "special" => s.readCall .special (a 1) (a 2) (a 3) (a 4)
  | "virtual" => s.readCall .virtual (a 1) (a 2) (a 3) (a 4)
  | "interface" => s.readCall .interface (a 1) (a 2) (a 3) (a 4)
  | "invoke" => do
    let kind ← .drafted (CallKind.read (a 1))
    s.readCall kind (a 2) (a 3) (a 4) (a 5)
  | _ => .error (.malformed t)

def readCommand (t : Term) : Reading (Command String) := (s.readPlain? t).getD (s.readInvoke t)

/-- The draft once a statement has been written: a variable is declared, a label marked, or a
command appended. -/
def write (t : Term) : Reading Draft :=
  match (t.item 0).toText with
  | "var" => do
    let type ← s.names.readType (t.item 2)
    pure (s.draft.addVar (t.item 1).toText type).2
  | "mark" => .drafted (s.draft.mark (t.item 1).toText)
  | _ => do
    let c ← s.readCommand t
    .drafted (s.draft.append c)

/-- Writes statements in order, up to the first that cannot be, which is told by its place. -/
def writeAll (names : Names) (h : Hierarchy) (d : Draft) :
    Nat → List Term → Option (Nat × NotationError) × Draft
  | _, [] => (none, d)
  | i, t :: ts =>
    match write ⟨names, h, d⟩ t with
    | .ok d => writeAll names h d (i + 1) ts
    | .error e => (some (i, e), d)

end Names.Scope

end ObjectFlow
