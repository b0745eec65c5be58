import ObjectFlow.Options
/-!
# Contexts and selectors

A context is a list of elements, oldest first: call sites, objects or classes. A
selector decides the context of each callee and of each allocated object, and
keeps only the latest elements. Its text is `ci`, or a length, a hyphen and one
of `call`, `obj` and `type`.
-/

namespace ObjectFlow

/-- A context, oldest element first. -/
abbrev Context (ε : Type) := List ε

namespace Context

variable {ε : Type}

/-- The latest elements, up to a limit. -/
def latest (limit : Int) (c : Context ε) : Context ε := c.drop (c.length - limit.toNat)

def append (limit : Int) (c : Context ε) (e : ε) : Context ε := latest limit (c ++ [e])

def render (element : ε → String) (c : Context ε) : String :=
  "[" ++ ", ".intercalate (c.map element) ++ "]"

end Context

/-- What a selector tells apart. -/
inductive Sensitivity where
  | callSite | object | type
deriving DecidableEq

namespace Sensitivity

def name : Sensitivity → String
  | callSite => "call"
  | object => "obj"
  | type => "type"

def title : Sensitivity → String
  | callSite => "CallSiteSelector"
  | object => "ObjectSelector"
  | type => "TypeSelector"

def all : List Sensitivity := [callSite, object, type]

def ofName? (s : String) : Option Sensitivity := all.find? fun f => decide (f.name = s)

end Sensitivity

/-- A selector of contexts. Method contexts have at most `k` elements, those of objects at most
`hk`. -/
inductive Selector where
  | insensitive
  | limited (sensitivity : Sensitivity) (k : Nat) (hk : Int)
deriving DecidableEq

/-- The object that a call arrives at: its own context and what stands for it in a context. -/
structure ReceiverObject (ε : Type) where
  context : Context ε
  object : ε
  container : ε

namespace Selector

def k : Selector → Nat
  | insensitive => 0
  | limited _ k _ => k

def hk : Selector → Int
  | insensitive => 0
  | limited _ _ hk => hk

def name : Selector → String
  | insensitive => "ci"
  | limited f _ _ => f.name

def render (s : Selector) : String :=
  let title := match s with
    | insensitive => "ContextInsensitiveSelector"
    | limited f _ _ => f.title
  title ++ "(k=" ++ toString s.k ++ ", hk=" ++ toString s.hk ++ ")"

variable {ε : Type}

/-- The context of a callee, from that of the caller, the call site and the object the call
arrives at. A static call keeps the context of the caller unless call sites are told apart. -/
def calleeContext (s : Selector) (caller : Context ε) (site : ε)
    (receiver : Option (ReceiverObject ε)) : Context ε :=
  match s with
  | insensitive => []
  | limited .callSite k _ => Context.append k caller site
  | limited .object k _ =>
    match receiver with
    | none => caller
    | some r => Context.append k r.context r.object
  | limited .type k _ =>
    match receiver with
    | none => caller
    | some r => Context.append k r.context r.container

/-- The context of an object, from that of the method that makes it. -/
def heapContext (s : Selector) (c : Context ε) : Context ε :=
  match s with
  | insensitive => []
  | limited _ _ hk => Context.latest hk c

/-! ## Reading -/

/-- The text less one line end at its end. -/
def dropLineEnd (cs : List Char) : List Char :=
  match cs.getLast? with
  | some '\n' => cs.dropLast
  | _ => cs

/-- The length and the kind that a text names. -/
def readParts? (name : String) : Option (Nat × Sensitivity) :=
  match (dropLineEnd name.toList).span Text.isDigit with
  | (digits, '-' :: kind) => do
    let k ← Text.readDigits? digits
    let f ← Sensitivity.ofName? (String.ofList kind)
    some (k, f)
  | _ => none

/-- The selector of a text. Without a heap depth, contexts of objects are one shorter. -/
def read (name : String) (heapDepth : Option Int) : Except OptionError Selector :=
  if name = "ci" then .ok insensitive
  else match readParts? name with
    | none => .error (.unknownSensitivity name)
    | some (0, _) => .error (.emptyContexts name)
    | some (k + 1, f) => .ok (limited f (k + 1) (heapDepth.getD k))

/-- The selector that options ask for. -/
def ofOptions (o : Options) : Except OptionError Selector :=
  read o.sensitivity (o.heapDepth.map fun d => d.toNat)

end Selector

end ObjectFlow
