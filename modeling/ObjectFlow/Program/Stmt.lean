import ObjectFlow.Collections.OrderedMap
import ObjectFlow.Program.Expr
/-!
# Statements and bodies

A command is a statement apart from where it stands; its jumps lead to targets
of some type, which are labels while a body is being written and positions once
it is finished. A statement is a command at a place. The analyses treat a closed
set of commands; a foreign command stands for anything else.
-/

namespace ObjectFlow

inductive Command (τ : Type) where
  | alloc (target : Var) (type : Ty)
  | literal (target : Var) (value : Int)
  | copy (target source : Var)
  | binary (target : Var) (op : BinaryOp) (left right : Expr)
  | loadField (target : Var) (access : FieldAccess)
  | storeField (access : FieldAccess) (source : Var)
  | loadElement (target base : Var) (index : Expr)
  | storeElement (base : Var) (index : Expr) (source : Var)
  | invoke (result : Option Var) (call : Call)
  | ret (value : Option Var)
  | branch (op : BinaryOp) (left right : Expr) (target : τ)
  | goto (target : τ)
  | nop
  | foreign (name : String) (serial : Nat)
deriving DecidableEq

/-- How a command uses a variable as a base: for a field, for an element, or as the receiver of a
call. -/
inductive Use where
  | fieldLoad | fieldStore | elementLoad | elementStore | call
deriving DecidableEq

namespace Command

variable {τ : Type}

/-- The name of a command's kind. -/
def kindName : Command τ → String
  | alloc .. => "New"
  | literal .. => "AssignLiteral"
  | copy .. => "Copy"
  | binary .. => "Binary"
  | loadField .. => "LoadField"
  | storeField .. => "StoreField"
  | loadElement .. => "LoadArray"
  | storeElement .. => "StoreArray"
  | invoke .. => "Invoke"
  | ret .. => "Return"
  | branch .. => "If"
  | goto .. => "Goto"
  | nop => "Nop"
  | foreign name _ => name

/-- Control can go on to the next statement. -/
def fallsThrough : Command τ → Bool
  | ret _ | goto _ => false
  | _ => true

/-- Where a command stores its result. -/
def destination? : Command τ → Option Expr
  | alloc v _ | literal v _ | copy v _ | binary v _ _ _ | loadField v _ | loadElement v _ _
  | invoke (some v) _ => some (.var v)
  | storeField a _ => some (.field a)
  | storeElement b i _ => some (.element b i)
  | _ => none

/-- What a command computes for its destination, as far as an expression can say it. -/
def source? : Command τ → Option Expr
  | alloc _ t => some (.alloc t)
  | literal _ n => some (.literal n)
  | copy _ v => some (.var v)
  | binary _ op l r => some (.binary op l r)
  | loadField _ a => some (.field a)
  | loadElement _ b i => some (.element b i)
  | _ => none

/-- The variable that a command assigns. -/
def defined? : Command τ → Option Var
  | alloc v _ | literal v _ | copy v _ | binary v _ _ _ | loadField v _ | loadElement v _ _
  | invoke (some v) _ => some v
  | _ => none

/-- The variable that a command uses as a base, and how. -/
def use? : Command τ → Option (Use × Var)
  | loadField _ (.onObject v _) => some (.fieldLoad, v)
  | storeField (.onObject v _) _ => some (.fieldStore, v)
  | loadElement _ v _ => some (.elementLoad, v)
  | storeElement v _ _ => some (.elementStore, v)
  | invoke _ c => c.base?.map fun v => (.call, v)
  | _ => none

/-- The target of a jump. -/
def target? : Command τ → Option τ
  | branch _ _ _ t | goto t => some t
  | _ => none

/-- The command with its jumps led elsewhere, if every target is known. -/
def retarget {σ ε : Type} (f : τ → Except ε σ) : Command τ → Except ε (Command σ)
  | alloc v t => .ok (alloc v t)
  | literal v n => .ok (literal v n)
  | copy v w => .ok (copy v w)
  | binary v op l r => .ok (binary v op l r)
  | loadField v a => .ok (loadField v a)
  | storeField a v => .ok (storeField a v)
  | loadElement v b i => .ok (loadElement v b i)
  | storeElement b i v => .ok (storeElement b i v)
  | invoke v c => .ok (invoke v c)
  | ret v => .ok (ret v)
  | branch op l r t => (f t).map fun t => branch op l r t
  | goto t => (f t).map fun t => goto t
  | nop => .ok nop
  | foreign name n => .ok (foreign name n)

def assignment (target source : String) : String := target ++ " = " ++ source

def render (target : τ → String) : Command τ → String
  | alloc v t => assignment v.name (Expr.alloc t).render
  | literal v n => assignment v.name (toString n)
  | copy v w => assignment v.name w.name
  | binary v op l r => assignment v.name (Expr.binary op l r).render
  | loadField v a => assignment v.name a.render
  | storeField a v => assignment a.render v.name
  | loadElement v b i => assignment v.name (Expr.element b i).render
  | storeElement b i v => assignment (Expr.element b i).render v.name
  | invoke none c => c.render
  | invoke (some v) c => assignment v.name c.render
  | ret none => "return"
  | ret (some v) => "return " ++ v.name
  | branch op l r t => "if (" ++ (Expr.binary op l r).render ++ ") goto " ++ target t
  | goto t => "goto " ++ target t
  | nop => "nop"
  | foreign name _ => name

end Command

/-- Where a statement stands. A statement that was put in later has no position or line of its
own, which is written -1. -/
structure Place where
  index : Int
  line : Int
  method : Method
deriving DecidableEq

def Place.render (p : Place) : String := toString p.index ++ "@L" ++ toString p.line

structure Stmt where
  place : Place
  command : Command Nat
deriving DecidableEq

def Stmt.render (s : Stmt) : String := s.place.render ++ ": " ++ s.command.render toString

/-- A call at its place. -/
structure CallSite where
  place : Place
  result : Option Var
  call : Call
deriving DecidableEq

namespace CallSite

def stmt (s : CallSite) : Stmt := ⟨s.place, .invoke s.result s.call⟩

def method (s : CallSite) : Method := s.place.method

def render (s : CallSite) : String := s.stmt.render

end CallSite

/-- An allocation at its place, which stands for all objects made there. -/
structure AllocSite where
  place : Place
  type : Ty
deriving DecidableEq

namespace AllocSite

def method (o : AllocSite) : Method := o.place.method

def render (o : AllocSite) : String :=
  "NewObj\x7b" ++ o.method.render ++ "[" ++ o.place.render ++ "] " ++ o.type.render ++ "\x7d"

end AllocSite

namespace Stmt

def callSite? (s : Stmt) : Option CallSite :=
  match s.command with
  | .invoke result call => some ⟨s.place, result, call⟩
  | _ => none

def allocSite? (s : Stmt) : Option AllocSite :=
  match s.command with
  | .alloc _ t => some ⟨s.place, t⟩
  | _ => none

end Stmt

/-! ## Bodies -/

/-- The body of a method. -/
structure Body where
  method : Method
  receiver : Option Var
  params : List Var
  vars : List Var
  stmts : List Stmt
deriving DecidableEq

namespace Body

def callSites (b : Body) : List CallSite := b.stmts.filterMap Stmt.callSite?

/-- The statement that a jump to a position leads to. -/
def target? (b : Body) (i : Nat) : Option Stmt :=
  b.stmts.find? fun s => decide (s.place.index = i)

/-- The variables whose value the body returns, each once. -/
def returnVars (b : Body) : List Var :=
  b.stmts.foldl (fun vs s => match s.command with
    | .ret (some v) => if v ∈ vs then vs else vs ++ [v]
    | _ => vs) []

/-! ### The uses of a variable as a base -/

/-- Notes a statement with the variable that it uses as a base. -/
def noteUse (uses : OrderedMap (Use × Var) (List Stmt)) (s : Stmt) :
    OrderedMap (Use × Var) (List Stmt) :=
  match s.command.use? with
  | none => uses
  | some u => uses.insert u (uses.getD u [] ++ [s])

/-- The uses of all variables, noted statement by statement. -/
def uses (b : Body) : OrderedMap (Use × Var) (List Stmt) := b.stmts.foldl noteUse ∅

def fieldLoads (b : Body) (v : Var) : List Stmt := b.uses.getD (.fieldLoad, v) []

def fieldStores (b : Body) (v : Var) : List Stmt := b.uses.getD (.fieldStore, v) []

def elementLoads (b : Body) (v : Var) : List Stmt := b.uses.getD (.elementLoad, v) []

def elementStores (b : Body) (v : Var) : List Stmt := b.uses.getD (.elementStore, v) []

def calls (b : Body) (v : Var) : List CallSite := (b.uses.getD (.call, v) []).filterMap Stmt.callSite?

end Body

end ObjectFlow
