import ObjectFlow.Graph.Node
import ObjectFlow.Options
/-!
# Why an analysis stops

An analysis stops early for a cause: a call that nothing answers, a call with
the wrong number of arguments, options that do not hold, a program that no
analysis can treat, or a bound on its work.
-/

namespace ObjectFlow

/-- Why a run was called off. -/
inductive AbortReason where
  | roundLimit (n : Nat)
  | noCallGraph
  | requested (message : Term)

def AbortReason.message : AbortReason → String
  | .roundLimit n => "pointer analysis did not converge within " ++ toString n ++ " iterations"
  | .noCallGraph => "inter-constprop needs a call graph, run cha or pta first"
  | .requested t => t.display

inductive AnalysisError where
  /-- Nothing answers a reference, for a receiver of some type if there is one. -/
  | unresolved (ref : MethodRef) (receiver : Option Ty)
  | arity (site : CallSite) (callee : Method) (arguments parameters : Nat)
  | configuration (e : OptionError)
  | unknownStatement (s : Stmt)
  | unknownEdge (source target : Node)
  | aborted (reason : AbortReason)
  /-- The interfaces above a class are asked for, but the hierarchy does not know the class. -/
  | unknownClass (c : ClassRef)
  /-- Objects arrive at the receiver of a method that has none. -/
  | missingReceiver
  /-- A call leads to a method that is not counted as reachable. -/
  | unreachedCallee (m : Method)
  /-- A run is started a second time. -/
  | startedTwice
  /-- The steps that were granted did not suffice. -/
  | outOfFuel

namespace AnalysisError

/-- The text of an error. -/
def message : AnalysisError → String
  | unresolved r none => "cannot resolve " ++ r.render
  | unresolved r (some t) => "cannot resolve " ++ r.render ++ " on " ++ t.render
  | arity s m n k =>
    s.render ++ " passes " ++ toString n ++ " arguments to " ++ m.render ++
    ", which declares " ++ toString k ++ " parameters"
  | configuration e => e.message
  | unknownStatement s => "unknown statement class " ++ s.command.kindName ++ ": " ++ s.render
  | unknownEdge s t => "unknown ICFG edge ICFGEdge(" ++ s.render ++ " -> " ++ t.render ++ ")"
  | aborted r => r.message
  | unknownClass c => c.name ++ " is not in the hierarchy"
  | missingReceiver => "the method has no receiver"
  | unreachedCallee m => m.render ++ " is not reachable"
  | startedTwice => ""
  | outOfFuel => "out of fuel"

end AnalysisError

end ObjectFlow
