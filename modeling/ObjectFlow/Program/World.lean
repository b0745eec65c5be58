import ObjectFlow.Program.Draft
import ObjectFlow.Program.Hierarchy
/-!
# Programs and worlds

A program is a class hierarchy with the bodies of its methods; a method without
a body is not looked into. A world is a program together with the methods where
a run of it starts.
-/

namespace ObjectFlow

structure Program where
  hierarchy : Hierarchy
  bodies : OrderedMap Method Body

namespace Program

def empty : Program := ⟨.empty, ∅⟩

instance : Inhabited Program := ⟨empty⟩

def body? (p : Program) (m : Method) : Option Body := p.bodies.get? m

def hasBody (p : Program) (m : Method) : Bool := (p.body? m).isSome

/-- The calls in the body of a method. -/
def callSites (p : Program) (m : Method) : List CallSite :=
  ((p.body? m).map Body.callSites).getD []

/-- The variables whose value a method returns. -/
def returnVars (p : Program) (m : Method) : List Var :=
  ((p.body? m).map Body.returnVars).getD []

/-- Puts a command of a kind that no analysis treats in front of a finished body. -/
def insertForeign (p : Program) (m : Method) (name : String) : Program :=
  match p.body? m with
  | none => p
  | some b =>
    let s : Stmt := ⟨⟨-1, -1, m⟩, .foreign name b.stmts.length⟩
    { p with bodies := p.bodies.insert m { b with stmts := s :: b.stmts } }

/-! ### The uses of a variable as a base, in all bodies -/

def fieldLoads (p : Program) (v : Var) : List Stmt :=
  p.bodies.values.flatMap fun b => b.fieldLoads v

def fieldStores (p : Program) (v : Var) : List Stmt :=
  p.bodies.values.flatMap fun b => b.fieldStores v

def elementLoads (p : Program) (v : Var) : List Stmt :=
  p.bodies.values.flatMap fun b => b.elementLoads v

def elementStores (p : Program) (v : Var) : List Stmt :=
  p.bodies.values.flatMap fun b => b.elementStores v

def calls (p : Program) (v : Var) : List CallSite :=
  p.bodies.values.flatMap fun b => b.calls v

end Program

structure World where
  program : Program
  entries : List Method
  main : Option Method

/-! ## Building a program -/

/-- A program whose bodies are being written. Drafts stand in the order in which they were
begun. -/
structure ProgramDraft where
  program : Program
  drafts : OrderedMap Method Draft

namespace ProgramDraft

def empty : ProgramDraft := ⟨.empty, ∅⟩

instance : Inhabited ProgramDraft := ⟨empty⟩

def hierarchy (p : ProgramDraft) : Hierarchy := p.program.hierarchy

def setHierarchy (p : ProgramDraft) (h : Hierarchy) : ProgramDraft :=
  { p with program := { p.program with hierarchy := h } }

def setDraft (p : ProgramDraft) (d : Draft) : ProgramDraft :=
  { p with drafts := p.drafts.insert d.method d }

/-- Declares a method and begins its body. The method stays declared if its parameters cannot be
named as told. -/
def beginMethod (p : ProgramDraft) (c : ClassRef) (s : Signature) (isStatic : Bool)
    (names : Option (List String)) : Except DraftError Method × ProgramDraft :=
  let (m, h) := p.hierarchy.addMethod c s isStatic false false
  let declared := p.setHierarchy h
  match Draft.start m names with
  | .error e => (.error e, declared)
  | .ok d => (.ok m, declared.setDraft d)

/-- Finishes a draft, which gives its method a body. -/
def finish (p : ProgramDraft) (d : Draft) : Except DraftError Body × ProgramDraft :=
  match d.finish with
  | (.error e, d) => (.error e, p.setDraft d)
  | (.ok b, d) =>
    (.ok b, { p.setDraft d with
      program := { p.program with bodies := p.program.bodies.insert b.method b } })

/-- Finishes the drafts that are still open, in order, up to the first that cannot be. -/
def finishAll (p : ProgramDraft) : List Draft → Except DraftError Unit × ProgramDraft
  | [] => (.ok (), p)
  | d :: ds =>
    if d.finished then finishAll p ds
    else match p.finish d with
      | (.error e, p) => (.error e, p)
      | (.ok _, p) => finishAll p ds

/-- Closes the program. Without entry methods a run starts in the main method. -/
def build (p : ProgramDraft) (entries : Option (List Method)) (main : Option Method) :
    Except DraftError World × ProgramDraft :=
  let (r, p) := p.finishAll p.drafts.values
  (r.map fun _ => ⟨p.program, entries.getD main.toList, main⟩, p)

end ProgramDraft

end ObjectFlow
