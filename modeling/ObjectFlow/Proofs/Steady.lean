import ObjectFlow.Proofs.Facts
/-!
# Which statements are monotone

A statement is steady if a higher fact before it never gives a lower value. Only
division and remainder can fail to be: by a divisor of which nothing is known the
result has no single value if the dividend has none, by zero it has no value.
-/

namespace ObjectFlow

namespace Value

theorem binary_nac_right (op : BinaryOp) (v : Value) : binary op v nac = nac := by
  unfold binary
  rw [if_neg (by simp)]
  cases v <;> rfl

theorem binary_by_zero {op : BinaryOp} (h : op = .div ∨ op = .rem) (v : Value) :
    binary op v (const 0) = undef := if_pos ⟨h, rfl⟩

theorem binary_nac_left {op : BinaryOp} {w : Value}
    (h : ¬ ((op = .div ∨ op = .rem) ∧ w = const 0)) : binary op nac w = nac := by
  unfold binary
  rw [if_neg h]

/-- Where an operand is missing and none has more than one value, nothing comes out. -/
theorem binary_eq_undef {op : BinaryOp} {v w : Value} (hv : v ≠ nac) (hw : w ≠ nac)
    (h : v = undef ∨ w = undef) : binary op v w = undef := by
  unfold binary
  split
  · rfl
  · cases v with
    | nac => exact absurd rfl hv
    | undef =>
      cases w with
      | nac => exact absurd rfl hw
      | undef => rfl
      | const b => rfl
    | const a =>
      rcases h with h | rfl
      · cases h
      · rfl

theorem eq_of_le_of_ne {v w : Value} (h : v ≤ w) (hv : v ≠ undef) (hw : w ≠ nac) : v = w := by
  rcases h with h | h | h
  · exact absurd h hv
  · exact h
  · exact absurd h hw

/-- An operation is monotone, but for a divisor that turns out to be zero. -/
theorem binary_mono {op : BinaryOp} {v v' w w' : Value} (hv : v ≤ v') (hw : w ≤ w')
    (h : op = .div ∨ op = .rem → v = nac → w = undef → w' ≠ const 0) :
    binary op v w ≤ binary op v' w' := by
  by_cases hz : (op = .div ∨ op = .rem) ∧ w' = const 0
  · obtain ⟨hop, rfl⟩ := hz
    rcases hw with rfl | rfl | hw
    · have hne : v ≠ nac := fun hnac => h hop hnac rfl rfl
      rw [binary_eq_undef hne (by simp) (.inr rfl)]
      exact undef_le _
    · rw [binary_by_zero hop]
      exact undef_le _
    · cases hw
  · by_cases hv' : v' = nac
    · rw [hv', binary_nac_left hz]
      exact le_nac _
    · by_cases hw' : w' = nac
      · rw [hw', binary_nac_right]
        exact le_nac _
      · have hvn : v ≠ nac := fun hnac => hv' (le_antisymm (le_nac _) (hnac ▸ hv))
        have hwn : w ≠ nac := fun hnac => hw' (le_antisymm (le_nac _) (hnac ▸ hw))
        by_cases hu : v = undef ∨ w = undef
        · rw [binary_eq_undef hvn hwn hu]
          exact undef_le _
        · rw [not_or] at hu
          rw [eq_of_le_of_ne hv hu.1 hv', eq_of_le_of_ne hw hu.2 hw']

end Value

/-! ## Expressions and commands -/

theorem Var.value_mono {f g : ConstFact} (h : f ≤ g) (v : Var) : v.value f ≤ v.value g := by
  unfold Var.value
  split
  · exact h v
  · exact le_refl _

/-- A variable or a literal. -/
def Expr.atomic : Expr → Bool
  | .var _ | .literal _ => true
  | _ => false

theorem Expr.atomic_mono {f g : ConstFact} (h : f ≤ g) {e : Expr} (he : e.atomic) :
    e.value f ≤ e.value g := by
  cases e with
  | var v => exact v.value_mono h
  | literal n => exact le_refl _
  | _ => cases he

/-- A quotient of two variables falls from no single value to no value when its divisor turns out
to be zero. -/
theorem Expr.binary_falls {op : BinaryOp} {x y : Var} (hop : op = .div ∨ op = .rem)
    (hy : y.type.holdsInt) (hne : x ≠ y) :
    ∃ f g : ConstFact, f ≤ g ∧
      ¬ (Expr.binary op (.var x) (.var y)).value f ≤ (Expr.binary op (.var x) (.var y)).value g := by
  have hle : ((∅ : ConstFact).update x .nac).2 ≤
      (((∅ : ConstFact).update x .nac).2.update y (.const 0)).2 := by
    intro j
    rw [Fact.get_update _ y]
    split
    · rename_i hj
      rw [hj, Fact.get_update, if_neg (Ne.symm hne)]
      exact Value.undef_le _
    · exact le_refl _
  have hx : x.value ((∅ : ConstFact).update x .nac).2 = .nac := by
    unfold Var.value
    split
    · rw [Fact.get_update, if_pos rfl]
    · rfl
  have hbefore : y.value ((∅ : ConstFact).update x .nac).2 = .undef := by
    rw [Var.value, if_pos hy, Fact.get_update, if_neg (Ne.symm hne)]
    rfl
  have hafter : y.value (((∅ : ConstFact).update x .nac).2.update y (.const 0)).2 = .const 0 := by
    rw [Var.value, if_pos hy, Fact.get_update, if_pos rfl]
  refine ⟨_, _, hle, fun hvalue => ?_⟩
  simp only [Expr.value] at hvalue
  rw [hx, hbefore, hafter, Value.binary_by_zero hop, Value.binary_nac_left (by simp)] at hvalue
  rcases hvalue with h | h | h <;> cases h

/-- An operation on variables and literals is monotone exactly if it does not divide a variable by
another that holds an integer. -/
theorem Expr.binary_mono_iff {op : BinaryOp} {l r : Expr} (hl : l.atomic) (hr : r.atomic) :
    (∀ f g : ConstFact, f ≤ g → (Expr.binary op l r).value f ≤ (Expr.binary op l r).value g) ↔
      ∀ x y, l = .var x → r = .var y → op = .div ∨ op = .rem → y.type.holdsInt → x = y := by
  constructor
  · rintro h x y rfl rfl hop hy
    by_contra hne
    obtain ⟨f, g, hfg, hfalls⟩ := Expr.binary_falls hop hy hne
    exact hfalls (h f g hfg)
  · intro h f g hfg
    refine Value.binary_mono (atomic_mono hfg hl) (atomic_mono hfg hr) fun hop hnac hundef hzero => ?_
    -- only two variables can be the dividend and the divisor that this is about
    cases r with
    | literal n => cases hundef
    | var y =>
      cases l with
      | literal n => cases hnac
      | var x =>
        have hy : y.type.holdsInt := by
          by_contra hy
          rw [Expr.value, Var.value, if_neg hy] at hundef
          cases hundef
        obtain rfl := h x y rfl rfl hop hy
        rw [hnac] at hundef
        cases hundef
      | _ => cases hl
    | _ => cases hr

/-- A quotient or a remainder, or an operation with one among its operands. -/
def Expr.divides : Expr → Bool
  | binary op l r => decide (op = .div ∨ op = .rem) || l.divides || r.divides
  | _ => false

theorem Expr.value_mono {f g : ConstFact} (h : f ≤ g) {e : Expr} (he : e.divides = false) :
    e.value f ≤ e.value g := by
  induction e with
  | var v => exact v.value_mono h
  | binary op l r ihl ihr =>
    simp only [divides, Bool.or_eq_false_iff, decide_eq_false_iff_not] at he
    obtain ⟨⟨hop, hl⟩, hr⟩ := he
    exact Value.binary_mono (ihl hl) (ihr hr) fun hdiv => absurd hdiv hop
  | _ => exact le_refl _

def Command.divides : Command Nat → Bool
  | .binary _ op l r => (Expr.binary op l r).divides
  | _ => false

namespace Constants

/-- A higher fact never gives a lower value to the integer variable that a command assigns. -/
def Steady (c : Command Nat) : Prop :=
  ∀ v, c.defined? = some v → v.type.holdsInt → ∀ f g, f ≤ g → assigned f c ≤ assigned g c

/-- A command with simple operands is steady exactly if it does not divide a variable by another
that holds an integer. -/
theorem steady_iff {c : Command Nat}
    (hflat : ∀ v op l r, c = .binary v op l r → l.atomic ∧ r.atomic) :
    Steady c ↔ ∀ v op x y, c = .binary v op (.var x) (.var y) → op = .div ∨ op = .rem →
      v.type.holdsInt → y.type.holdsInt → x = y := by
  constructor
  · rintro h v op x y rfl hop hv hy
    have hmono := h v rfl hv
    exact (Expr.binary_mono_iff rfl rfl).1 hmono x y rfl rfl hop hy
  · intro h v hd hv f g hfg
    cases c with
    | literal t n => exact le_refl _
    | copy t w => exact w.value_mono hfg
    | binary t op l r =>
      obtain rfl := Option.some.inj hd
      obtain ⟨hl, hr⟩ := hflat t op l r rfl
      refine (Expr.binary_mono_iff hl hr).2 (fun x y hx hy hop hint => ?_) f g hfg
      subst hx hy
      exact h t op x y rfl hop hv hint
    | _ => exact le_refl _

/-- Only a division can fail to be steady. -/
theorem steady_of_not_divides {c : Command Nat} (h : c.divides = false) : Steady c := by
  intro v _ _ f g hfg
  cases c with
  | copy t w => exact w.value_mono hfg
  | binary t op l r => exact Expr.value_mono hfg h
  | _ => exact le_refl _

/-- A steady statement takes a higher fact to a higher one. -/
theorem afterStmt_mono {s : Stmt} (h : Steady s.command) {f g : ConstFact} (hfg : f ≤ g) :
    afterStmt s f ≤ afterStmt s g := by
  unfold afterStmt
  cases hd : s.command.defined? with
  | none => exact hfg
  | some v =>
    dsimp only
    split
    · rename_i hv
      exact ConstFact.update_mono hfg (h v hd hv f g hfg) v
    · exact hfg

/-- Within a method nothing is known of the result of a call. -/
theorem afterStmt_call (s : CallSite) (f : ConstFact) :
    afterStmt s.stmt f = match s.result with
      | some v => if v.type.holdsInt then (f.update v .nac).2 else f
      | none => f := by
  unfold afterStmt
  cases hr : s.result with
  | none => simp only [CallSite.stmt, hr, Command.defined?]
  | some v => simp only [CallSite.stmt, hr, Command.defined?, assigned, Command.source?]

theorem afterNode_mono {n : Node} (h : ∀ s, n = .stmt s → Steady s.command) {f g : ConstFact}
    (hfg : f ≤ g) : afterNode n f ≤ afterNode n g := by
  cases n with
  | stmt s => exact afterStmt_mono (h s rfl) hfg
  | entry m => exact hfg
  | exit m => exact hfg

end Constants

end ObjectFlow
