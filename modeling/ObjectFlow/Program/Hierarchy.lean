import ObjectFlow.Collections.OrderedMap
import ObjectFlow.Collections.Search
import ObjectFlow.Program.Type
/-!
# The class hierarchy

Every class that is made gets a declaration; a class counts in the hierarchy
once it is attached, which takes its name and links it below its superclass and
interfaces. A class can only be declared below classes that were made before it,
so its number is greater than theirs and every upward walk ends.
-/

namespace ObjectFlow

/-- How a type stands below another: a class below its superclass or an interface below an
interface, or a class below an interface. -/
inductive Link where
  | inherits
  | implements
deriving DecidableEq

def Link.render : Link → String
  | .inherits => "extends"
  | .implements => "implements"

structure ClassDecl where
  ref : ClassRef
  superclass : Option ClassRef
  interfaces : List ClassRef
  isInterface : Bool
  isAbstract : Bool
  methods : OrderedMap Signature Method
  fields : OrderedMap String Field

/-- The classes of a program. The counts number the methods and fields that were declared. -/
structure Hierarchy where
  classes : List ClassDecl
  names : OrderedMap String ClassRef
  nodes : OrderedSet ClassRef
  links : OrderedMap (ClassRef × ClassRef) Link
  methodCount : Nat
  fieldCount : Nat

/-- Why a class was refused. -/
inductive DeclarationError where
  | alreadyDefined (name : String)
  | notAnInterface (c : ClassRef)

def DeclarationError.message : DeclarationError → String
  | .alreadyDefined name => "class " ++ name ++ " is already defined"
  | .notAnInterface c => c.name

namespace Hierarchy

def empty : Hierarchy := ⟨[], ∅, ∅, ∅, 0, 0⟩

instance : Inhabited Hierarchy := ⟨empty⟩

variable (h : Hierarchy)

/-! ## Looking up declarations -/

def decl? (c : ClassRef) : Option ClassDecl := h.classes[c.id]?

def superclass? (c : ClassRef) : Option ClassRef := (h.decl? c).bind ClassDecl.superclass

def isInterface (c : ClassRef) : Bool := (h.decl? c).any ClassDecl.isInterface

/-- The method that a class itself declares under a signature. -/
def declaredMethod? (c : ClassRef) (s : Signature) : Option Method :=
  (h.decl? c).bind fun d => d.methods.get? s

def declaredField? (c : ClassRef) (name : String) : Option Field :=
  (h.decl? c).bind fun d => d.fields.get? name

/-- The attached class of a name. -/
def class? (name : String) : Option ClassRef := h.names.get? name

def attached : List ClassRef := h.names.values

/-! ## Declaring -/

/-- Makes a class without attaching it. An interface counts as abstract. -/
def makeClass (name : String) (superclass : Option ClassRef) (interfaces : List ClassRef)
    (isInterface isAbstract : Bool) : ClassRef × Hierarchy :=
  let c : ClassRef := ⟨h.classes.length, name⟩
  let d : ClassDecl := ⟨c, superclass, interfaces, isInterface, isAbstract || isInterface, ∅, ∅⟩
  (c, { h with classes := h.classes ++ [d] })

/-- Links two types, which makes both known. A second link between the same two replaces the
kind of the first. -/
def link (upper lower : ClassRef) (kind : Link) : Hierarchy :=
  { h with
    nodes := (h.nodes.insert upper).insert lower
    links := h.links.insert (upper, lower) kind }

/-- Links a class below interfaces, in order, up to the first that is none. -/
def linkInterfaces (h : Hierarchy) (c : ClassRef) (kind : Link) :
    List ClassRef → Except DeclarationError Unit × Hierarchy
  | [] => (.ok (), h)
  | i :: is =>
    if h.isInterface i then linkInterfaces (h.link i c kind) c kind is
    else (.error (.notAnInterface i), h)

/-- Attaches a class. What was done before a fault stays done. -/
def attach (c : ClassRef) : Except DeclarationError Unit × Hierarchy :=
  if h.names.contains c.name then (.error (.alreadyDefined c.name), h)
  else
    let named := { h with names := h.names.insert c.name c, nodes := h.nodes.insert c }
    let below := match h.superclass? c with
      | none => named
      | some s => named.link s c .inherits
    let kind := if h.isInterface c then .inherits else .implements
    below.linkInterfaces c kind (((h.decl? c).map ClassDecl.interfaces).getD [])

/-- Makes a class and attaches it. No class is made for a name that is taken. -/
def addClass (name : String) (superclass : Option ClassRef) (interfaces : List ClassRef)
    (isInterface isAbstract : Bool) : Except DeclarationError ClassRef × Hierarchy :=
  if h.names.contains name then (.error (.alreadyDefined name), h)
  else
    let (c, made) := h.makeClass name superclass interfaces isInterface isAbstract
    let (r, attached) := made.attach c
    (r.map fun _ => c, attached)

def modifyDecl (c : ClassRef) (f : ClassDecl → ClassDecl) : Hierarchy :=
  { h with classes := h.classes.modify c.id f }

/-- Declares a method. It takes the place of one of the same signature. -/
def addMethod (c : ClassRef) (s : Signature) (isStatic isAbstract isNative : Bool) :
    Method × Hierarchy :=
  let m : Method := ⟨h.methodCount, c, s, isStatic, isAbstract, isNative⟩
  let declared := h.modifyDecl c fun d => { d with methods := d.methods.insert s m }
  (m, { declared with methodCount := h.methodCount + 1 })

/-- Declares a field. It takes the place of one of the same name. -/
def addField (c : ClassRef) (name : String) (type : Ty) (isStatic : Bool) : Field × Hierarchy :=
  let f : Field := ⟨h.fieldCount, c, name, type, isStatic⟩
  let declared := h.modifyDecl c fun d => { d with fields := d.fields.insert name f }
  (f, { declared with fieldCount := h.fieldCount + 1 })

/-! ## Subtypes -/

/-- The types directly below a type, in the order in which they were linked. -/
def below (c : ClassRef) : List ClassRef :=
  h.links.entries.filterMap fun e => if e.1.1 = c then some e.1.2 else none

/-- The types directly above a type. -/
def above (c : ClassRef) : List ClassRef :=
  h.links.entries.filterMap fun e => if e.1.2 = c then some e.1.1 else none

/-- The types directly below one that are linked in one way and are interfaces or not. -/
def directSubtypes (c : ClassRef) (kind : Link) (interfaces : Bool) : List ClassRef :=
  (h.below c).filter fun d =>
    decide (h.links.get? (c, d) = some kind) && decide (h.isInterface d = interfaces)

def directSubclasses (c : ClassRef) : List ClassRef :=
  if h.isInterface c then [] else h.directSubtypes c .inherits false

def directSubinterfaces (c : ClassRef) : List ClassRef :=
  if h.isInterface c then h.directSubtypes c .inherits true else []

def directImplementors (c : ClassRef) : List ClassRef :=
  if h.isInterface c then h.directSubtypes c .implements false else []

/-- All subtypes of a known type, itself first. -/
def subtypes (c : ClassRef) : List ClassRef := reachableFrom h.below (h.nodes.size + 1) c

/-- All supertypes of a known type, itself first. -/
def supertypes (c : ClassRef) : List ClassRef := reachableFrom h.above (h.nodes.size + 1) c

/-- A type is a subtype of itself and, if both are known, of all types above it. -/
def isSubtype (upper lower : ClassRef) : Bool :=
  decide (upper = lower) ||
  (decide (upper ∈ h.nodes) && decide (lower ∈ h.nodes) && decide (lower ∈ h.subtypes upper))

/-! ## Finding methods -/

/-- A class and at most `n - 1` of its superclasses, upwards. -/
def superChainUpTo (h : Hierarchy) : Nat → ClassRef → List ClassRef
  | 0, _ => []
  | n + 1, c => c :: match h.superclass? c with
    | none => []
    | some s => superChainUpTo h n s

/-- A class and its superclasses, upwards. -/
def superChain (c : ClassRef) : List ClassRef := h.superChainUpTo h.classes.length c

/-- The method that runs when a signature is called on an object of a class: the first one up the
chain that is not abstract. -/
def dispatch (c : ClassRef) (s : Signature) : Option Method :=
  (h.superChain c).findSome? fun d => (h.declaredMethod? d s).filter fun m => !m.isAbstract

/-- The first declaration of a signature among the interfaces above the classes of a chain. A
class that is not known makes the search fail with that class. -/
def interfaceMethod? (h : Hierarchy) (s : Signature) :
    List ClassRef → Except ClassRef (Option Method)
  | [] => .ok none
  | c :: cs =>
    if c ∉ h.nodes then .error c
    else
      let interfaces := (h.supertypes c).filter fun d => decide (d ≠ c) && h.isInterface d
      match interfaces.findSome? fun d => h.declaredMethod? d s with
      | some m => .ok (some m)
      | none => interfaceMethod? h s cs

/-- The declaration that a reference names: in the class, else up its chain, else in an
interface of one of these. -/
def resolve (r : MethodRef) : Except ClassRef (Option Method) :=
  let chain := h.superChain r.owner
  match chain.findSome? fun c => h.declaredMethod? c r.signature with
  | some m => .ok (some m)
  | none => h.interfaceMethod? r.signature chain

end Hierarchy

end ObjectFlow
