import ObjectFlow.Collections.OrderMerge
import ObjectFlow.Collections.OrderedMap
import ObjectFlow.Text.Term
/-!
# Visitors over node classes

A visitor treats the nodes of each class by a handler. Visitors are declared as
classes with bases: a visitor has the handlers of its own body and inherits
those that its bases have at that moment, the first base first. Node classes have
bases as well, and with each comes the order in which it and the classes above it
are searched. A node is treated by the handler of the first class in the order of
its own, and if there is none, by the default handler. The choice is kept in the
table of the visitor that was called, where a visitor declared later inherits it.
-/

namespace ObjectFlow.Visitor

/-- What tells a node class apart. -/
structure NodeRef where
  id : Nat
  name : String
deriving DecidableEq

/-- A node class and the classes above it, in the order in which they are searched. -/
structure NodeClass where
  ref : NodeRef
  above : List NodeRef
deriving DecidableEq

namespace NodeClass

/-- The class of all objects. -/
def object : NodeClass := ⟨⟨0, "object"⟩, []⟩

/-- The class itself and all above it. -/
def order (c : NodeClass) : List NodeRef := c.ref :: c.above

/-- A class with bases, if these can be put in one order. Without bases it stands below the class of
all objects. -/
def declare (ref : NodeRef) (bases : List NodeClass) : Option NodeClass :=
  let bases := if bases.isEmpty then [object] else bases
  (OrderMerge.mergeBases (bases.map NodeClass.ref) (bases.map order)).map fun above => ⟨ref, above⟩

end NodeClass

/-- What a handler is declared for. -/
inductive Case where
  | node (c : NodeRef)
  | default
deriving DecidableEq

def Case.name : Case → String
  | .node c => c.name
  | .default => "default"

/-- A handler. The one that every visitor has to begin with refuses the node. -/
inductive Handler where
  | refuse
  | named (visitor name : String)
deriving DecidableEq

/-- What a handler is written for: node classes in nested groups, or what should have been one. -/
inductive CaseTree where
  | node (c : NodeRef)
  | other (t : Term)
  | group (items : List CaseTree)

/-- Why a visitor was refused. -/
inductive DeclarationError where
  | notAClass (given : Term)
  | repeated (visitor : String) (c : Case)
  | withoutDefault (visitor : String)
  /-- The bases cannot be put in one order. -/
  | inconsistentBases

def DeclarationError.message : DeclarationError → String
  | .notAClass t => "Expected a type, got " ++ t.render ++ " instead."
  | .repeated v c => v ++ " has declared with multiple handlers for type " ++ c.name
  | .withoutDefault v => v ++ " has no default dispatch"
  | .inconsistentBases => "inconsistent bases"

namespace CaseTree

mutual
/-- The node classes of a tree, in order. -/
def flatten : CaseTree → Except DeclarationError (List NodeRef)
  | node c => .ok [c]
  | other t => .error (.notAClass t)
  | group items => flattenAll items

def flattenAll : List CaseTree → Except DeclarationError (List NodeRef)
  | [] => .ok []
  | t :: ts => do
    let cs ← flatten t
    let ds ← flattenAll ts
    pure (cs ++ ds)
end

end CaseTree

/-- A handler as it is written: for node classes, or as the default. -/
structure Declaration where
  name : String
  cases : Option (List CaseTree)

/-- The cases of a written handler. -/
def Declaration.read (d : Declaration) : Except DeclarationError (String × List Case) :=
  match d.cases with
  | none => .ok (d.name, [.default])
  | some ts => (CaseTree.flattenAll ts).map fun cs => (d.name, cs.map .node)

/-! ## Visitor classes -/

abbrev Table := OrderedMap Case Handler

/-- A visitor class: the numbers of the classes it inherits from, nearest first and beginning with
its own, and its table. -/
structure VisitorClass where
  name : String
  order : List Nat
  table : Table

/-- The visitor classes by number. Number zero is the one that all others build on. -/
structure Registry where
  classes : List VisitorClass

namespace Registry

/-- The registry with the class that has only the refusing default. -/
def initial (name : String) : Registry :=
  ⟨[⟨name, [0], (∅ : Table).insert .default .refuse⟩]⟩

variable (r : Registry)

def class? (i : Nat) : Option VisitorClass := r.classes[i]?

def orderOf (i : Nat) : List Nat := ((r.class? i).map VisitorClass.order).getD []

def tableOf (i : Nat) : Table := ((r.class? i).map VisitorClass.table).getD ∅

/-! ### Declaring -/

/-- The table of a body. No case may be handled twice. -/
def ownTable (visitor : String) : List (String × Case) → Table → Except DeclarationError Table
  | [], t => .ok t
  | (h, c) :: rest, t =>
    if t.contains c then .error (.repeated visitor c)
    else ownTable visitor rest (t.insert c (.named visitor h))

/-- A table with what another has for cases that are still free. -/
def inherit (t u : Table) : Table :=
  u.entries.foldl (fun t e => if t.contains e.1 then t else t.insert e.1 e.2) t

/-- The order in which a class inherits from its bases, if there is one. -/
def linearize (bases : List Nat) : Option (List Nat) :=
  OrderMerge.mergeBases bases (bases.map r.orderOf)

/-- Declares a visitor. Of two handlers of one name the later takes the place of the earlier. -/
def declare (name : String) (bases : List Nat) (handlers : List Declaration) :
    Except DeclarationError (Nat × Registry) := do
  let written ← handlers.mapM Declaration.read
  let handlers := OrderedMap.ofList written
  let own ← ownTable name (handlers.entries.flatMap fun e => e.2.map fun c => (e.1, c)) ∅
  let table := (bases.flatMap r.orderOf).foldl (fun t i => inherit t (r.tableOf i)) own
  if table.contains .default then
    match r.linearize bases with
    | none => .error .inconsistentBases
    | some order =>
      let i := r.classes.length
      .ok (i, ⟨r.classes ++ [⟨name, i :: order, table⟩]⟩)
  else .error (.withoutDefault name)

/-! ### Calling -/

/-- The handler of a table for a node class. -/
def choose (t : Table) (c : NodeClass) : Option Handler :=
  match t.get? (.node c.ref) with
  | some h => some h
  | none =>
    match c.order.findSome? fun s => t.get? (.node s) with
    | some h => some h
    | none => t.get? .default

/-- A visitor can be called if it builds on class number zero. -/
def isCallable (i : Nat) : Bool := decide (0 ∈ r.orderOf i)

/-- The handler that a visitor treats a node with, and the registry that keeps the choice. There
is none for a visitor that cannot be called. -/
def call (i : Nat) (c : NodeClass) : Option (Handler × Registry) :=
  if r.isCallable i then
    (choose (r.tableOf i) c).map fun h =>
      (h, ⟨r.classes.modify i fun v => { v with table := v.table.insert (.node c.ref) h }⟩)
  else none

end Registry

end ObjectFlow.Visitor
