import ObjectFlow.Run
/-!
# Plans

A plan names analyses that run one after the other, as one phase. Each call
graph that an analysis brings is handed on to the later ones, and the first
analysis that fails ends the plan.
-/

namespace ObjectFlow

inductive Analysis where
  | hierarchy
  | pointsTo
  | constants
deriving DecidableEq

namespace Analysis

def name : Analysis → String
  | hierarchy => "cha"
  | pointsTo => "pta"
  | constants => "inter-constprop"

def all : List Analysis := [hierarchy, pointsTo, constants]

def ofName? (s : String) : Option Analysis := all.find? fun a => decide (a.name = s)

/-- The analysis that a term names. -/
def read (t : Term) : Except OptionError Analysis :=
  let found := match t with
    | .atom (.text s) => ofName? s
    | _ => none
  match found with
  | some a => .ok a
  | none => .error (.unknownAnalysis t)

end Analysis

/-- Analyses in the order in which they run. -/
structure Plan where
  analyses : List Analysis

namespace Plan

def default : Plan := ⟨[.pointsTo, .constants]⟩

/-- The plan of the named analyses. -/
def ofNames (names : List Term) : Except OptionError Plan := (names.mapM Analysis.read).map Plan.mk

/-- What was found so far: the latest of each analysis, the latest call graph, and which
analyses ran, in the order in which they ran first. -/
structure Outcome where
  order : OrderedSet Analysis
  callGraph : Option PlainCallGraph
  pointsTo : Option PointsTo.Findings
  constants : Option ConstantFindings

namespace Outcome

def empty : Outcome := ⟨∅, none, none, none⟩

def addHierarchy (o : Outcome) (g : PlainCallGraph) : Outcome :=
  { o with order := o.order.insert .hierarchy, callGraph := some g }

/-- A pointer analysis also brings its call graph. -/
def addPointsTo (o : Outcome) (f : PointsTo.Findings) : Outcome :=
  { o with
    order := o.order.insert .pointsTo
    pointsTo := some f
    callGraph := some f.callGraph }

def addConstants (o : Outcome) (c : ConstantFindings) : Outcome :=
  { o with order := o.order.insert .constants, constants := some c }

end Outcome

/-- One analysis of a plan. -/
def runOne (fuel : Nat) (w : World) (a : Analysis) (o : Outcome) (r : Run) :
    Except AnalysisError Outcome × Run :=
  match a with
  | .hierarchy =>
    let (g, r) := r.hierarchyGraph w
    (g.map o.addHierarchy, r)
  | .pointsTo =>
    let (f, r) := r.pointsTo fuel w
    (f.map o.addPointsTo, r)
  | .constants =>
    match o.callGraph with
    | none => (.error (.aborted .noCallGraph), r)
    | some g =>
      let (c, r) := r.constants fuel w.program g
      (c.map o.addConstants, r)

/-- Analyses in order, up to the first that fails. -/
def runAll (fuel : Nat) (w : World) : List Analysis → Outcome → Run →
    Except AnalysisError Outcome × Run
  | [], o, r => (.ok o, r)
  | a :: as, o, r =>
    match runOne fuel w a o r with
    | (.error e, r) => (.error e, r)
    | (.ok o, r) => runAll fuel w as o r

/-- The whole plan. -/
def run (fuel : Nat) (w : World) (p : Plan) (r : Run) : Except AnalysisError Outcome × Run :=
  r.scope "pipeline" fun r => runAll fuel w p.analyses .empty r

end Plan

end ObjectFlow
