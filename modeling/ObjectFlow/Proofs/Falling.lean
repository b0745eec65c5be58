import ObjectFlow.Proofs.OneMethod
import ObjectFlow.Proofs.Propagation
/-!
# What falls when facts rise

A higher fact gives every expression a value that is at least as high, and flows on
as a higher one, with one exception: a quotient or remainder that has no single value
while its divisor is unknown has no value once the divisor is zero.
-/

namespace ObjectFlow

/-! ## Values -/

/-- Operands that rise give a result that rises, unless the divisor was unknown and is now zero, and
the dividend has no single value. -/
theorem Value.binary_le_iff {op : BinaryOp} {v v' w w' : Value} (hv : v ≤ v') (hw : w ≤ w') :
    binary op v w ≤ binary op v' w' ↔
      ¬ ((op = .div ∨ op = .rem) ∧ v = nac ∧ w = undef ∧ w' = const 0) := by
  constructor
  · rintro hle ⟨hop, rfl, rfl, rfl⟩
    rw [binary_by_zero hop, binary_nac_left (by simp)] at hle
    rcases hle with h | h | h <;> cases h
  · intro h
    exact binary_mono hv hw fun hop hnac hundef hzero => h ⟨hop, hnac, hundef, hzero⟩

/-! ## Expressions -/

namespace Expr

/-- The expression itself, or an operand of an operation in it. -/
inductive Part (e : Expr) : Expr → Prop
  | whole : Part e e
  | left {op : BinaryOp} {l r : Expr} (part : Part e l) : Part e (.binary op l r)
  | right {op : BinaryOp} {l r : Expr} (part : Part e r) : Part e (.binary op l r)

/-- Under the lower fact, some dividend in the expression has no single value and its divisor has
none; under the higher one the divisor is zero. -/
inductive Drops (f g : ConstFact) : Expr → Prop
  | here {op : BinaryOp} {l r : Expr} (divides : op = .div ∨ op = .rem)
      (dividend : l.value f = .nac) (unknown : r.value f = .undef) (zero : r.value g = .const 0) :
      Drops f g (.binary op l r)
  | left {op : BinaryOp} {l r : Expr} (drops : Drops f g l) : Drops f g (.binary op l r)
  | right {op : BinaryOp} {l r : Expr} (drops : Drops f g r) : Drops f g (.binary op l r)

variable {f g : ConstFact} {e : Expr}

theorem Drops.exists_part (h : e.Drops f g) : ∃ op l r, (Expr.binary op l r).Part e ∧
    (op = .div ∨ op = .rem) ∧ l.value f = .nac ∧ r.value f = .undef ∧ r.value g = .const 0 := by
  induction h with
  | here hop hl hr hz => exact ⟨_, _, _, .whole, hop, hl, hr, hz⟩
  | left _ ih =>
    obtain ⟨op, l, r, hpart, h⟩ := ih
    exact ⟨op, l, r, .left hpart, h⟩
  | right _ ih =>
    obtain ⟨op, l, r, hpart, h⟩ := ih
    exact ⟨op, l, r, .right hpart, h⟩

theorem Drops.of_part {e' : Expr} (hp : e'.Part e) (h : e'.Drops f g) : e.Drops f g := by
  induction hp with
  | whole => exact h
  | left _ ih => exact .left ih
  | right _ ih => exact .right ih

theorem value_le_of_not_drops (hfg : f ≤ g) (h : ¬ e.Drops f g) : e.value f ≤ e.value g := by
  induction e with
  | var v => exact v.value_mono hfg
  | binary op l r ihl ihr =>
    have hl := ihl fun hd => h (.left hd)
    have hr := ihr fun hd => h (.right hd)
    exact (Value.binary_le_iff hl hr).2 fun ⟨hop, hnac, hundef, hzero⟩ =>
      h (.here hop hnac hundef hzero)
  | literal n => exact le_refl _
  | alloc t => exact le_refl _
  | field a => exact le_refl _
  | element b i => exact le_refl _

/-- All parts of an expression rise with the facts exactly if no quotient in it drops. -/
theorem parts_rise_iff (hfg : f ≤ g) :
    (∀ e' : Expr, e'.Part e → e'.value f ≤ e'.value g) ↔ ¬ e.Drops f g := by
  constructor
  · intro h hd
    obtain ⟨op, l, r, hpart, hop, hl, hr, hz⟩ := hd.exists_part
    have hle := h _ hpart
    simp only [Expr.value] at hle
    rw [hl, hr, hz, Value.binary_by_zero hop, Value.binary_nac_left (by simp)] at hle
    rcases hle with h | h | h <;> cases h
  · exact fun h e' hp => value_le_of_not_drops hfg fun hd => h (hd.of_part hp)

end Expr

/-! ## Facts -/

theorem ConstFact.update_le_iff {f g : ConstFact} (hfg : f ≤ g) {v : Var} {x y : Value} :
    (f.update v x).2 ≤ (g.update v y).2 ↔ x ≤ y := by
  constructor
  · intro h
    have hv := h v
    rwa [Fact.get_update, if_pos rfl, Fact.get_update, if_pos rfl] at hv
  · exact fun h => ConstFact.update_mono hfg h v

/-- Learning something of a variable of which nothing was known. -/
theorem ConstFact.le_update {f : ConstFact} {v : Var} (h : f.get v = .undef) (x : Value) :
    f ≤ (f.update v x).2 := by
  intro j
  rw [Fact.get_update]
  split
  · rename_i hj
    rw [hj, h]
    exact Value.undef_le x
  · exact le_refl _

namespace Constants

open Dataflow

section
variable {p : Program} {f g : ConstFact}

/-- The statement at a node gives an integer variable the value of an expression. -/
inductive Assigns : Node → Expr → Prop
  | stmt {s : Stmt} {v : Var} {e : Expr} (defines : s.command.defined? = some v)
      (integer : v.type.holdsInt) (source : s.command.source? = some e) : Assigns (.stmt s) e

/-- What leaves a node rises with what enters it exactly if the value it assigns does. -/
theorem afterNode_le_iff (hfg : f ≤ g) (n : Node) :
    afterNode n f ≤ afterNode n g ↔ ∀ e, Assigns n e → e.value f ≤ e.value g := by
  cases n with
  | entry m => exact ⟨fun _ e he => (nomatch he), fun _ => hfg⟩
  | exit m => exact ⟨fun _ e he => (nomatch he), fun _ => hfg⟩
  | stmt s =>
    show afterStmt s f ≤ afterStmt s g ↔ _
    constructor
    · rintro h e ⟨hd, hv, he⟩
      simp only [afterStmt, hd, hv, if_true, ConstFact.update_le_iff hfg, assigned, he] at h
      exact h
    · intro h
      unfold afterStmt
      cases hd : s.command.defined? with
      | none => exact hfg
      | some v =>
        dsimp only
        by_cases hv : v.type.holdsInt
        · rw [if_pos hv, if_pos hv, ConstFact.update_le_iff hfg]
          unfold assigned
          cases he : s.command.source? with
          | none => exact le_refl _
          | some e => exact h e (.stmt hd hv he)
        · rw [if_neg hv, if_neg hv]
          exact hfg

theorem afterInterNode_le_of (hfg : f ≤ g) {n : Node} (h : afterNode n f ≤ afterNode n g) :
    afterInterNode n f ≤ afterInterNode n g := by
  unfold afterInterNode
  split
  · exact hfg
  · exact h

/-- Whether arguments fit does not depend on the facts, and what flows into a callee rises with what
leaves the call. -/
theorem intoCallee_rises (hfg : f ≤ g) (s : CallSite) (m : Method) :
    Both (· ≤ ·) (intoCallee p s m f) (intoCallee p s m g) := by
  unfold intoCallee
  cases p.body? m with
  | none => exact le_refl (∅ : ConstFact)
  | some b =>
    dsimp only
    split
    · rfl
    · exact parameterFact_mono _ _ hfg

/-- What flows along any edge rises with what leaves its source. -/
theorem alongEdge_rises (hfg : f ≤ g) (e : Icfg.Edge) :
    Both (· ≤ ·) (alongEdge p e f) (alongEdge p e g) := by
  cases e with
  | normal s t => exact hfg
  | callToReturn s t => exact pastCall_mono s hfg
  | call s m => exact intoCallee_rises hfg s m
  | ret m t s vs => exact behindCall_mono s m vs hfg
  | foreign s t => rfl

/-- An expression rises with the facts, and with it all its parts, exactly if no quotient in it had
a dividend of no single value over an unknown divisor that turns out to be zero. So a statement's
fact rises unless it assigns such an expression to an integer variable, and what flows along an edge
always does. -/
theorem transfer_rises (hfg : f ≤ g) :
    (∀ e : Expr, (∀ e' : Expr, e'.Part e → e'.value f ≤ e'.value g) ↔ ¬ e.Drops f g) ∧
    (∀ n, (∀ e, Assigns n e → ¬ e.Drops f g) →
      afterNode n f ≤ afterNode n g ∧ afterInterNode n f ≤ afterInterNode n g) ∧
    ∀ (p : Program) (e : Icfg.Edge), Both (· ≤ ·) (alongEdge p e f) (alongEdge p e g) := by
  refine ⟨fun e => Expr.parts_rise_iff hfg, fun n h => ?_, fun p e => alongEdge_rises hfg e⟩
  have hafter : afterNode n f ≤ afterNode n g :=
    (afterNode_le_iff hfg n).2 fun e he => Expr.value_le_of_not_drops hfg (h e he)
  exact ⟨hafter, afterInterNode_le_of hfg hafter⟩

end

/-! ## A quotient of a parameter -/

namespace Loop

/-- The parameter may have any value. -/
def anyDividend : ConstFact := .ofList [(n, .nac)]

/-- The parameter may have any value, and the divisor is known. -/
def divisorIs (d : Int32) : ConstFact := .ofList [(n, .nac), (y, .const d)]

theorem anyDividend_le (d : Int32) : anyDividend ≤ divisorIs d :=
  ConstFact.le_update (f := anyDividend) rfl (.const d)

def quotient : Expr := .binary .div (.var n) (.var y)

def divide : Stmt := ⟨⟨1, 2, main⟩, .binary v .div (.var n) (.var y)⟩

theorem assigns_divide {e : Expr} (h : Assigns (.stmt divide) e) : e = quotient := by
  obtain ⟨-, -, he⟩ := h
  exact (Option.some.inj he).symm

/-- A divisor of two is not zero. -/
theorem not_drops_by_two : ¬ quotient.Drops anyDividend (divisorIs 2) := by
  rintro (⟨_, _, _, hzero⟩ | h | h)
  · cases hzero
  · cases h
  · cases h

/-- Once the divisor is two, the quotient still has no single value. -/
theorem transfer_rises_by_two : anyDividend ≤ divisorIs 2 ∧
    (∀ e, Assigns (.stmt divide) e → ¬ e.Drops anyDividend (divisorIs 2)) ∧
    quotient.value anyDividend ≤ quotient.value (divisorIs 2) ∧
    afterNode (.stmt divide) anyDividend ≤ afterNode (.stmt divide) (divisorIs 2) := by
  obtain ⟨hparts, hnodes, -⟩ := transfer_rises (anyDividend_le 2)
  have hdrops : ∀ e, Assigns (.stmt divide) e → ¬ e.Drops anyDividend (divisorIs 2) :=
    fun e he => assigns_divide he ▸ not_drops_by_two
  exact ⟨anyDividend_le 2, hdrops, (hparts quotient).2 not_drops_by_two _ .whole,
    (hnodes _ hdrops).1⟩

/-- Once the divisor is zero, the quotient has no value, and what leaves its statement falls. -/
theorem transfer_falls_by_zero : anyDividend ≤ divisorIs 0 ∧
    quotient.value anyDividend = .nac ∧ quotient.value (divisorIs 0) = .undef ∧
    ¬ quotient.value anyDividend ≤ quotient.value (divisorIs 0) ∧
    ¬ afterNode (.stmt divide) anyDividend ≤ afterNode (.stmt divide) (divisorIs 0) := by
  have hnac : quotient.value anyDividend = .nac := rfl
  have hundef : quotient.value (divisorIs 0) = .undef := rfl
  have hfalls : ¬ quotient.value anyDividend ≤ quotient.value (divisorIs 0) := by
    rw [hnac, hundef]
    rintro (h | h | h) <;> cases h
  refine ⟨anyDividend_le 0, hnac, hundef, hfalls, fun h => hfalls ?_⟩
  exact (afterNode_le_iff (anyDividend_le 0) (.stmt divide)).1 h quotient (.stmt rfl rfl rfl)

end Loop

end Constants

end ObjectFlow
