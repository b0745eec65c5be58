import ObjectFlow.Program.World
/-!
# Reports on a program

Types, classes, the hierarchy and bodies as terms. Types and members are given
as they are written.
-/

namespace ObjectFlow.Report

def type (t : Ty) : Term :=
  .record [("name", .text t.render), ("prim", .bool t.isPrimitive), ("ref", .bool t.isReference),
    ("int", .bool t.holdsInt)]

/-! ## Classes -/

def className (c : ClassRef) : Term := .text c.name

def classNames (l : List ClassRef) : Term := .list (l.map className)

/-- A method with its parts and its modifiers, the last of which says that it has no body. -/
def method (p : Program) (m : Method) : Term :=
  let s := m.signature
  .list [.text m.render, .text s.name, .texts (s.params.map Ty.render), .text s.result.render,
    .bool m.isStatic, .bool m.isAbstract, .bool m.isNative, .bool !(p.hasBody m)]

def field (f : Field) : Term := .list [.text f.render, .bool f.isStatic]

def classDecl (p : Program) (d : ClassDecl) : Term :=
  .record [("name", className d.ref), ("super", .ofOption className d.superclass),
    ("interfaces", classNames d.interfaces), ("isInterface", .bool d.isInterface),
    ("isAbstract", .bool d.isAbstract), ("methods", .list (d.methods.values.map (method p))),
    ("fields", .list (d.fields.values.map field))]

/-- The types directly below a type: classes, interfaces, and implementing classes. -/
def below (h : Hierarchy) (c : ClassRef) : Term :=
  .list [classNames (h.directSubclasses c), classNames (h.directSubinterfaces c),
    classNames (h.directImplementors c)]

/-- Rows of text in the order of a dictionary. -/
def rowLe : List String → List String → Bool
  | [], _ => true
  | _ :: _, [] => false
  | x :: xs, y :: ys => if x = y then rowLe xs ys else decide (x < y)

def sortedRows (rows : List (List String)) : Term := .list ((rows.mergeSort rowLe).map .texts)

def hierarchy (h : Hierarchy) : Term :=
  .record [("classes", classNames h.attached),
    ("edges", sortedRows (h.links.entries.map fun e => [e.1.1.name, e.1.2.name, e.2.render]))]

/-! ## Bodies -/

def indexes (l : List Stmt) : Term := .list (l.map fun t => .int t.place.index)

/-- A variable with the places where it is used as a base. -/
def bodyVar (b : Body) (v : Var) : Term :=
  .list [.count v.index, .text v.name, .text v.type.render, indexes (b.fieldLoads v),
    indexes (b.fieldStores v), indexes (b.elementLoads v), indexes (b.elementStores v),
    indexes ((b.calls v).map CallSite.stmt)]

def names (l : List Var) : Term := .texts (l.map Var.name)

def stmt (s : Stmt) : Term :=
  .list [.text s.render, .text s.command.kindName, .int s.place.line,
    .ofOption (fun v => .text v.name) s.command.defined?, .bool s.command.fallsThrough,
    .ofOption (fun e => .text e.render) s.command.destination?]

def body (b : Body) : Term :=
  .record [("this", .ofOption (fun v => .text v.name) b.receiver), ("params", names b.params),
    ("vars", .list (b.vars.map (bodyVar b))), ("stmts", .list (b.stmts.map stmt)),
    ("returnVars", names b.returnVars), ("len", .count b.stmts.length)]

/-- An expression with its type, and for a field access whether it is static. -/
def expr (e : Expr) : Term :=
  let isStatic := match e with
    | .field a => Term.bool a.isStatic
    | _ => .null
  .list [.text e.render, .ofOption (fun t => .text t.render) e.type?, isStatic]

end ObjectFlow.Report
