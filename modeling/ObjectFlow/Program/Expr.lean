import ObjectFlow.Program.Type
/-!
# Expressions

Variables belong to one method and are told apart by their place in it. A field
access has a base exactly if the field is not static, and a call has a receiver
exactly if it is not static; both are built into the types.
-/

namespace ObjectFlow

/-- A variable of a method. -/
structure Var where
  index : Nat
  name : String
  type : Ty
  method : Method
deriving DecidableEq

/-! ## Operators -/

inductive BinaryOp where
  | add | sub | mul | div | rem
  | and | or | xor
  | shl | shr | ushr
  | eq | ne | lt | le | gt | ge
deriving DecidableEq

namespace BinaryOp

def symbol : BinaryOp → String
  | add => "+"
  | sub => "-"
  | mul => "*"
  | div => "/"
  | rem => "%"
  | and => "&"
  | or => "|"
  | xor => "^"
  | shl => "<<"
  | shr => ">>"
  | ushr => ">>>"
  | eq => "=="
  | ne => "!="
  | lt => "<"
  | le => "<="
  | gt => ">"
  | ge => ">="

def all : List BinaryOp :=
  [add, sub, mul, div, rem, and, or, xor, shl, shr, ushr, eq, ne, lt, le, gt, ge]

def ofSymbol? (s : String) : Option BinaryOp := all.find? fun o => decide (o.symbol = s)

def isComparison : BinaryOp → Bool
  | eq | ne | lt | le | gt | ge => true
  | _ => false

def resultType (o : BinaryOp) : Ty := if o.isComparison then .boolean else .int

end BinaryOp

/-! ## Accesses and expressions -/

inductive FieldAccess where
  | static (field : Field)
  | onObject (base : Var) (field : Field)
deriving DecidableEq

namespace FieldAccess

def field : FieldAccess → Field
  | static f => f
  | onObject _ f => f

def isStatic : FieldAccess → Bool
  | static _ => true
  | onObject _ _ => false

def render : FieldAccess → String
  | static f => f.owner.name ++ "." ++ f.name
  | onObject b f => b.name ++ "." ++ f.name

/-- The access to a field, which has a base exactly if the field is not static. -/
def of? (base : Option Var) (f : Field) : Option FieldAccess :=
  match base, f.isStatic with
  | none, true => some (static f)
  | some b, false => some (onObject b f)
  | _, _ => none

end FieldAccess

inductive Expr where
  | var (v : Var)
  | literal (n : Int)
  | binary (op : BinaryOp) (left right : Expr)
  | alloc (type : Ty)
  | field (access : FieldAccess)
  | element (base : Var) (index : Expr)
deriving DecidableEq

namespace Expr

/-- The written form. Operands of operands stand without brackets. -/
def render : Expr → String
  | var v => v.name
  | literal n => toString n
  | binary op l r => l.render ++ " " ++ op.symbol ++ " " ++ r.render
  | alloc t => "new " ++ t.render
  | field a => a.render
  | element b i => b.name ++ "[" ++ i.render ++ "]"

/-- The type of an expression whose form tells it. -/
def type? : Expr → Option Ty
  | var v => some v.type
  | literal _ => some .int
  | binary op _ _ => some op.resultType
  | alloc t => some t
  | field _ | element _ _ => none

end Expr

/-! ## Calls -/

inductive CallKind where
  | static | special | virtual | interface
deriving DecidableEq

namespace CallKind

/-- The keyword of a call. -/
def keyword : CallKind → String
  | static => "static"
  | special => "special"
  | virtual => "virtual"
  | interface => "interface"

/-- The tag of a call edge. -/
def tag : CallKind → String
  | static => "STATIC"
  | special => "SPECIAL"
  | virtual => "VIRTUAL"
  | interface => "INTERFACE"

def all : List CallKind := [static, special, virtual, interface]

def ofKeyword? (s : String) : Option CallKind := all.find? fun k => decide (k.keyword = s)

end CallKind

/-- How the callee is found, with the receiver if there is one. -/
inductive Dispatch where
  | static
  | special (base : Var)
  | virtual (base : Var)
  | interface (base : Var)
deriving DecidableEq

namespace Dispatch

def kind : Dispatch → CallKind
  | static => .static
  | special _ => .special
  | virtual _ => .virtual
  | interface _ => .interface

def base? : Dispatch → Option Var
  | static => none
  | special b | virtual b | interface b => some b

/-- The dispatch of a kind, which has a receiver exactly if the kind is not static. -/
def of? (k : CallKind) (base : Option Var) : Option Dispatch :=
  match k, base with
  | .static, none => some static
  | .special, some b => some (special b)
  | .virtual, some b => some (virtual b)
  | .interface, some b => some (interface b)
  | _, _ => none

end Dispatch

structure Call where
  dispatch : Dispatch
  ref : MethodRef
  args : List Var
deriving DecidableEq

namespace Call

def kind (c : Call) : CallKind := c.dispatch.kind

def base? (c : Call) : Option Var := c.dispatch.base?

def isStatic (c : Call) : Bool := decide (c.kind = .static)

def render (c : Call) : String :=
  let args := ", ".intercalate (c.args.map Var.name)
  let receiver := match c.base? with
    | none => ""
    | some b => b.name ++ "."
  c.kind.keyword ++ " " ++ receiver ++ c.ref.render ++ "(" ++ args ++ ")"

end Call

end ObjectFlow
