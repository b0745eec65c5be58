import ObjectFlow.Collections.Interner
import ObjectFlow.PointsTo.Selector
/-!
# Contexts that a selector hands out

A selector keeps every context that it has handed out and hands out its handle, so
contexts are told apart by their handles alone. The context without elements comes
first. A request names contexts by the handles that it was given before.
-/

namespace ObjectFlow

/-- The contexts that were handed out so far. -/
structure ContextTable (ε : Type) where
  contexts : Interner (Context ε)

/-- The object that a call arrives at, with the handle of its context. -/
structure ReceiverHandle (ε : Type) where
  context : Nat
  object : ε
  container : ε

/-- What a selector can be asked for. -/
inductive ContextRequest (ε : Type) where
  /-- The latest of some elements, up to a limit. -/
  | make (limit : Int) (elements : List ε)
  | append (limit : Int) (c : Nat) (e : ε)
  /-- The context of a callee. -/
  | callee (caller : Nat) (site : ε) (receiver : Option (ReceiverHandle ε))
  /-- The context of an object made in a context. -/
  | heap (c : Nat)

/-- The handles that a request mentions. -/
def ContextRequest.handles {ε : Type} : ContextRequest ε → List Nat
  | make _ _ => []
  | append _ c _ | heap c => [c]
  | callee caller _ receiver => caller :: (receiver.map ReceiverHandle.context).toList

namespace ContextTable

variable {ε : Type}

/-- The handle of the context without elements. -/
def emptyContext : Nat := 0

/-- The elements of a context that was handed out. -/
def elements (t : ContextTable ε) (h : Nat) : Context ε := (t.contexts.toList[h]?).getD []

variable [DecidableEq ε]

/-- Only the context without elements was handed out. -/
def fresh : ContextTable ε := ⟨Interner.empty.intern []⟩

def make (t : ContextTable ε) (limit : Int) (es : List ε) : Nat × ContextTable ε :=
  if limit ≤ 0 then (emptyContext, t)
  else ((t.contexts.get (Context.latest limit es)).1, ⟨(t.contexts.get (Context.latest limit es)).2⟩)

def append (t : ContextTable ε) (limit : Int) (c : Nat) (e : ε) : Nat × ContextTable ε :=
  t.make limit (t.elements c ++ [e])

/-- A static call hands out the context of the caller again unless call sites are told apart. -/
def calleeContext (t : ContextTable ε) (s : Selector) (caller : Nat) (site : ε)
    (receiver : Option (ReceiverHandle ε)) : Nat × ContextTable ε :=
  match s with
  | .insensitive => (emptyContext, t)
  | .limited .callSite k _ => t.append k caller site
  | .limited .object k _ =>
    match receiver with
    | none => (caller, t)
    | some r => t.append k r.context r.object
  | .limited .type k _ =>
    match receiver with
    | none => (caller, t)
    | some r => t.append k r.context r.container

def heapContext (t : ContextTable ε) (s : Selector) (c : Nat) : Nat × ContextTable ε :=
  match s with
  | .insensitive => (emptyContext, t)
  | .limited _ _ hk => t.make hk (t.elements c)

/-- The handle that answers a request, and the table after it. -/
def answer (t : ContextTable ε) (s : Selector) : ContextRequest ε → Nat × ContextTable ε
  | .make limit es => t.make limit es
  | .append limit c e => t.append limit c e
  | .callee caller site receiver => t.calleeContext s caller site receiver
  | .heap c => t.heapContext s c

end ContextTable

end ObjectFlow
