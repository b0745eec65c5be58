import ObjectFlow.Collections.Interner
import ObjectFlow.Graph.CallGraph
import ObjectFlow.PointsTo.Selector
import ObjectFlow.PointsTo.Pending
import ObjectFlow.Program.Stmt
/-!
# Elements of the pointer analysis

Variables, objects, methods and call sites, each in a context, and the pointers:
variables, static fields, fields of objects and elements of arrays. Equal keys
are one element. A manager numbers the elements of each kind as they appear.
-/

namespace ObjectFlow

namespace PointsTo

/-- What contexts are made of. A label is an element that a caller writes down by hand. -/
inductive ContextElement where
  | callSite (s : CallSite)
  | object (o : AllocSite)
  | type (c : ClassRef)
  | label (s : String)
deriving DecidableEq

def ContextElement.render : ContextElement → String
  | .callSite s => s.render
  | .object o => o.render
  | .type c => c.name
  | .label s => Text.quoted s

abbrev Ctx := Context ContextElement

/-- Text with the context it holds in. -/
def inContext (c : Ctx) (s : String) : String := c.render ContextElement.render ++ ":" ++ s

/-- The objects made at a place in a context. -/
structure CtxObject where
  context : Ctx
  site : AllocSite
deriving DecidableEq

def CtxObject.render (o : CtxObject) : String := inContext o.context o.site.render

structure CtxMethod where
  context : Ctx
  method : Method
deriving DecidableEq

def CtxMethod.render (m : CtxMethod) : String := inContext m.context m.method.render

/-- A call in a context of the method it stands in. -/
structure CtxCallSite where
  context : Ctx
  site : CallSite
deriving DecidableEq

namespace CtxCallSite

def container (s : CtxCallSite) : CtxMethod := ⟨s.context, s.site.method⟩

def render (s : CtxCallSite) : String := inContext s.context s.site.render

end CtxCallSite

/-- What can point to objects. The variable is missing for the receiver of a method that has
none. -/
inductive Pointer where
  | var (context : Ctx) (v : Option Var)
  | staticField (f : Field)
  | instanceField (base : CtxObject) (f : Field)
  | arrayIndex (array : CtxObject)
deriving DecidableEq

def Pointer.render : Pointer → String
  | .var c none => inContext c "null"
  | .var c (some v) => inContext c (v.method.render ++ "/" ++ v.name)
  | .staticField f => f.render
  | .instanceField b f => b.render ++ "." ++ f.name
  | .arrayIndex a => a.render ++ "[*]"

/-- An element of any kind. -/
inductive Element where
  | pointer (p : Pointer)
  | object (o : CtxObject)
  | method (m : CtxMethod)
  | callSite (s : CtxCallSite)
deriving DecidableEq

def Element.render : Element → String
  | .pointer p => p.render
  | .object o => o.render
  | .method m => m.render
  | .callSite s => s.render

/-- The elements that have appeared, kind by kind. -/
structure Manager where
  vars : Interner (Ctx × Option Var)
  staticFields : Interner Field
  instanceFields : Interner (CtxObject × Field)
  arrayIndexes : Interner CtxObject
  objects : Interner CtxObject
  methods : Interner CtxMethod
  callSites : Interner CtxCallSite

namespace Manager

def empty : Manager := ⟨∅, ∅, ∅, ∅, ∅, ∅, ∅⟩

instance : Inhabited Manager := ⟨empty⟩

def internPointer (m : Manager) : Pointer → Manager
  | .var c v => { m with vars := m.vars.intern (c, v) }
  | .staticField f => { m with staticFields := m.staticFields.intern f }
  | .instanceField b f => { m with instanceFields := m.instanceFields.intern (b, f) }
  | .arrayIndex a => { m with arrayIndexes := m.arrayIndexes.intern a }

def internObject (m : Manager) (o : CtxObject) : Manager :=
  { m with objects := m.objects.intern o }

def internMethod (m : Manager) (c : CtxMethod) : Manager :=
  { m with methods := m.methods.intern c }

/-- A call site brings the method that contains it. -/
def internCallSite (m : Manager) (s : CtxCallSite) : Manager :=
  { m.internMethod s.container with callSites := m.callSites.intern s }

/-- The manager once an element has appeared. -/
def intern (m : Manager) : Element → Manager
  | .pointer p => m.internPointer p
  | .object o => m.internObject o
  | .method c => m.internMethod c
  | .callSite s => m.internCallSite s

/-- The number of an element among those of its kind, if it has appeared. -/
def find? (m : Manager) : Element → Option Nat
  | .pointer (.var c v) => m.vars.find? (c, v)
  | .pointer (.staticField f) => m.staticFields.find? f
  | .pointer (.instanceField b f) => m.instanceFields.find? (b, f)
  | .pointer (.arrayIndex a) => m.arrayIndexes.find? a
  | .object o => m.objects.find? o
  | .method c => m.methods.find? c
  | .callSite s => m.callSites.find? s

/-- The number of elements of the kind of an element. -/
def count (m : Manager) : Element → Nat
  | .pointer (.var _ _) => m.vars.size
  | .pointer (.staticField _) => m.staticFields.size
  | .pointer (.instanceField _ _) => m.instanceFields.size
  | .pointer (.arrayIndex _) => m.arrayIndexes.size
  | .object _ => m.objects.size
  | .method _ => m.methods.size
  | .callSite _ => m.callSites.size

/-- The number of an element, which is the next free one if it appears now. -/
def get (m : Manager) (e : Element) : Nat × Manager := ((m.find? e).getD (m.count e), m.intern e)

def varPointers (m : Manager) : List Pointer := m.vars.toList.map fun k => .var k.1 k.2

def staticFieldPointers (m : Manager) : List Pointer := m.staticFields.toList.map .staticField

def instanceFieldPointers (m : Manager) : List Pointer :=
  m.instanceFields.toList.map fun k => .instanceField k.1 k.2

def arrayPointers (m : Manager) : List Pointer := m.arrayIndexes.toList.map .arrayIndex

/-- All pointers, kind by kind. -/
def pointers (m : Manager) : List Pointer :=
  m.varPointers ++ m.staticFieldPointers ++ m.instanceFieldPointers ++ m.arrayPointers

end Manager

end PointsTo

end ObjectFlow
