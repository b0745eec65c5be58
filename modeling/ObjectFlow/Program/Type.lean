/-!
# Types and members

The types of an object-oriented language and the members that its classes
declare. A class, a field and a method carry a number of their own: two
declarations that read the same are still two.
-/

namespace ObjectFlow

/-- A class or interface, by its place among all classes that were made. -/
structure ClassRef where
  id : Nat
  name : String
deriving DecidableEq

inductive Primitive where
  | byte | short | int | char | boolean | long | float | double
deriving DecidableEq

namespace Primitive

def name : Primitive → String
  | byte => "byte"
  | short => "short"
  | int => "int"
  | char => "char"
  | boolean => "boolean"
  | long => "long"
  | float => "float"
  | double => "double"

def all : List Primitive := [byte, short, int, char, boolean, long, float, double]

def ofName? (s : String) : Option Primitive := all.find? fun p => decide (p.name = s)

end Primitive

inductive Ty where
  | primitive (p : Primitive)
  | void
  | object (c : ClassRef)
  | array (element : Ty)
deriving DecidableEq

namespace Ty

def int : Ty := primitive .int

def boolean : Ty := primitive .boolean

def render : Ty → String
  | primitive p => p.name
  | void => "void"
  | object c => c.name
  | array t => t.render ++ "[]"

def isPrimitive : Ty → Bool
  | primitive _ => true
  | _ => false

def isReference : Ty → Bool
  | object _ | array _ => true
  | _ => false

/-- The values of the type are integers of at most 32 bits. -/
def holdsInt : Ty → Bool
  | primitive .byte | primitive .short | primitive .int | primitive .char
  | primitive .boolean => true
  | _ => false

end Ty

/-- What a method is called by, apart from its class. -/
structure Signature where
  name : String
  params : List Ty
  result : Ty
deriving DecidableEq

def Signature.render (s : Signature) : String :=
  s.result.render ++ " " ++ s.name ++ "(" ++ ",".intercalate (s.params.map Ty.render) ++ ")"

/-- A method as a call names it. -/
structure MethodRef where
  owner : ClassRef
  signature : Signature
deriving DecidableEq

def MethodRef.render (r : MethodRef) : String :=
  "<" ++ r.owner.name ++ ": " ++ r.signature.render ++ ">"

structure Field where
  id : Nat
  owner : ClassRef
  name : String
  type : Ty
  isStatic : Bool
deriving DecidableEq

def Field.render (f : Field) : String :=
  "<" ++ f.owner.name ++ ": " ++ f.type.render ++ " " ++ f.name ++ ">"

structure Method where
  id : Nat
  owner : ClassRef
  signature : Signature
  isStatic : Bool
  isAbstract : Bool
  isNative : Bool
deriving DecidableEq

namespace Method

/-- The reference that names the method itself. -/
def ref (m : Method) : MethodRef := ⟨m.owner, m.signature⟩

def render (m : Method) : String := m.ref.render

end Method

end ObjectFlow
