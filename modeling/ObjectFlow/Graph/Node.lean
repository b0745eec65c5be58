import ObjectFlow.Program.Stmt
/-!
# Nodes of control flow

The statements of a method, and two nodes where control enters and leaves it.
-/

namespace ObjectFlow

inductive Node where
  | entry (m : Method)
  | exit (m : Method)
  | stmt (s : Stmt)
deriving DecidableEq

namespace Node

def method : Node → Method
  | entry m | exit m => m
  | stmt s => s.place.method

def render : Node → String
  | entry m => "Entry<" ++ m.render ++ ">"
  | exit m => "Exit<" ++ m.render ++ ">"
  | stmt s => s.render

def isEntry : Node → Bool
  | entry _ => true
  | _ => false

def isExit : Node → Bool
  | exit _ => true
  | _ => false

def callSite? : Node → Option CallSite
  | stmt s => s.callSite?
  | _ => none

end Node

end ObjectFlow
