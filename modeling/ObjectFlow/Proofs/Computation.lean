import Mathlib.Data.List.Forall2
import Mathlib.Logic.Function.Basic
import ObjectFlow.Graph.Icfg
import ObjectFlow.Proofs.Words
/-!
# Computations on integers

What a program computes on integers alone: frames call each other along the
edges of a call graph, and each frame gives values to the integer variables of
its method. What is read from an object, from an array or from a variable that
holds no integer may be any value, and so may the result of a method without a
body. A computation gets stuck when it divides by zero or reads a variable that
has no value yet.
-/

namespace ObjectFlow.Constants

/-! ## Values -/

/-- The values of integer variables, nothing for one that was not assigned. -/
abbrev Values := Var → Option Int32

namespace Values

/-- Gives an integer variable a value, or takes it away. Other variables are not kept. -/
def assign (ρ : Values) (v : Var) (x : Option Int32) : Values :=
  if v.type.holdsInt then Function.update ρ v x else ρ

/-- The variable that waits for a result gets it, if one does. -/
def receive (ρ : Values) (v : Option Var) (x : Option Int32) : Values :=
  match v with
  | none => ρ
  | some v => ρ.assign v x

/-- Parameters are bound one after the other. -/
def bind (ρ : Values) (pairs : List (Var × Int32)) : Values :=
  pairs.foldl (fun ρ e => ρ.assign e.1 (some e.2)) ρ

def unassigned : Values := fun _ => none

theorem assign_other (ρ : Values) {v : Var} (hv : ¬ v.type.holdsInt) (x : Option Int32) :
    ρ.assign v x = ρ := if_neg hv

theorem bind_cons (ρ : Values) (v : Var) (x : Int32) (pairs : List (Var × Int32)) :
    ρ.bind ((v, x) :: pairs) = (ρ.assign v (some x)).bind pairs := rfl

end Values

/-- The values that an expression can have. -/
inductive Evaluates (ρ : Values) : Expr → Int32 → Prop where
  | int {v x} : v.type.holdsInt → ρ v = some x → Evaluates ρ (.var v) x
  | other {v} (x : Int32) : ¬ v.type.holdsInt → Evaluates ρ (.var v) x
  | literal (n : Int) : Evaluates ρ (.literal n) (Int32.ofInt n)
  | binary {op l r a b x} : Evaluates ρ l a → Evaluates ρ r b → op.onWords a b = some x →
      Evaluates ρ (.binary op l r) x
  | alloc (t : Ty) (x : Int32) : Evaluates ρ (.alloc t) x
  | field (a : FieldAccess) (x : Int32) : Evaluates ρ (.field a) x
  | element {b i k} (x : Int32) : Evaluates ρ i k → Evaluates ρ (.element b i) x

/-! ## Statements -/

/-- A statement of a body, the values before it, the node that control goes to, the values there,
and what is returned if control goes to the exit. -/
inductive Moves (b : Body) (s : Stmt) (ρ : Values) : Node → Values → Option Int32 → Prop where
  | assign {v e x t} : s.command.defined? = some v → s.command.source? = some e →
      Evaluates ρ e x → [s, t] <:+: b.stmts → Moves b s ρ (.stmt t) (ρ.assign v (some x)) none
  | storeField {a v x t} : s.command = .storeField a v → Evaluates ρ (.var v) x →
      [s, t] <:+: b.stmts → Moves b s ρ (.stmt t) ρ none
  | storeElement {base i v k x t} : s.command = .storeElement base i v → Evaluates ρ i k →
      Evaluates ρ (.var v) x → [s, t] <:+: b.stmts → Moves b s ρ (.stmt t) ρ none
  | jump {op l r i x t} : s.command = .branch op l r i → Evaluates ρ (.binary op l r) x → x ≠ 0 →
      b.target? i = some t → Moves b s ρ (.stmt t) ρ none
  | noJump {op l r i t} : s.command = .branch op l r i → Evaluates ρ (.binary op l r) 0 →
      [s, t] <:+: b.stmts → Moves b s ρ (.stmt t) ρ none
  | goto {i t} : s.command = .goto i → b.target? i = some t → Moves b s ρ (.stmt t) ρ none
  | nop {t} : s.command = .nop → [s, t] <:+: b.stmts → Moves b s ρ (.stmt t) ρ none
  | foreign {name n t} : s.command = .foreign name n → [s, t] <:+: b.stmts →
      Moves b s ρ (.stmt t) ρ none
  | ret {v x} : s.command = .ret (some v) → Evaluates ρ (.var v) x →
      Moves b s ρ (.exit b.method) ρ (some x)
  | retNothing : s.command = .ret none → Moves b s ρ (.exit b.method) ρ none

/-! ## Frames -/

/-- A method that is being run and the node it stands before. At its exit it has an answer, unless
it returns without a value. -/
structure Frame where
  method : Method
  node : Node
  values : Values
  answer : Option Int32

/-- The values with which a method is entered when it is passed some. -/
def passed (p : Program) (m : Method) (xs : List Int32) : Values :=
  Values.unassigned.bind ((((p.body? m).map Body.params).getD []).zip xs)

/-- One step of the topmost frame. -/
inductive Step (p : Program) (calls : PlainCallGraph) : List Frame → List Frame → Prop where
  | enter {m b t ρ rest} : p.body? m = some b → b.stmts.head? = some t →
      Step p calls (⟨m, .entry m, ρ, none⟩ :: rest) (⟨m, .stmt t, ρ, none⟩ :: rest)
  /-- A method without a body may return anything. -/
  | answer {m ρ rest} (x : Option Int32) : p.body? m = none →
      Step p calls (⟨m, .entry m, ρ, none⟩ :: rest) (⟨m, .exit m, ρ, x⟩ :: rest)
  | move {m b s ρ n ρ' x rest} : p.body? m = some b → s ∈ b.stmts → Moves b s ρ n ρ' x →
      Step p calls (⟨m, .stmt s, ρ, none⟩ :: rest) (⟨m, n, ρ', x⟩ :: rest)
  /-- The caller stays before the call until the callee leaves. -/
  | call {m ρ rest} {s : CallSite} {e : CallEdge Method CallSite} {xs : List Int32} :
      e ∈ calls.edges → e.site = s →
      List.Forall₂ (fun a x => Evaluates ρ (.var a) x) s.call.args xs →
      Step p calls (⟨m, .stmt s.stmt, ρ, none⟩ :: rest)
        (⟨e.callee, .entry e.callee, passed p e.callee xs, none⟩ ::
          ⟨m, .stmt s.stmt, ρ, none⟩ :: rest)
  | leave {m ρ x m' b t ρ' rest} {s : CallSite} : p.body? m' = some b →
      [s.stmt, t] <:+: b.stmts →
      Step p calls (⟨m, .exit m, ρ, x⟩ :: ⟨m', .stmt s.stmt, ρ', none⟩ :: rest)
        (⟨m', .stmt t, ρ'.receive s.result x, none⟩ :: rest)
  /-- An entry method returns to nobody. -/
  | finish {m ρ x} : Step p calls [⟨m, .exit m, ρ, x⟩] []

/-- The stacks that can be reached from an entry method, whatever values its parameters have. -/
inductive Run (p : Program) (calls : PlainCallGraph) : List Frame → Prop where
  | start {m} (xs : List Int32) : m ∈ calls.entries →
      Run p calls [⟨m, .entry m, passed p m xs, none⟩]
  | step {fs fs'} : Run p calls fs → Step p calls fs fs' → Run p calls fs'

end ObjectFlow.Constants
