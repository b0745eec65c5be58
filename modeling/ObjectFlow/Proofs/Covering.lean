import ObjectFlow.Proofs.Computation
import ObjectFlow.Proofs.JoinedGraph
import ObjectFlow.Proofs.Universe
/-!
# Facts that cover values

A fact covers the values of a frame if no variable has a value other than what
the fact knows of it. Expressions are found to be what they evaluate to, the fact
after a statement covers the values after it, and parameters are covered by what
is known of the arguments.
-/

namespace ObjectFlow.Constants

/-! ## Facts and values -/

/-- Each integer variable that has a value has one that the fact covers. -/
def Covers (f : ConstFact) (ρ : Values) : Prop :=
  ∀ v x, v.type.holdsInt → ρ v = some x → .const x ≤ f.get v

theorem eq_or_nac_of_const_le {x : Int32} {w : Value} (h : .const x ≤ w) :
    w = .const x ∨ w = .nac := by
  rcases h with h | h | h
  · cases h
  · exact .inl h.symm
  · exact .inr h

section
variable {f g : ConstFact} {ρ σ : Values}

namespace Covers

theorem mono (h : Covers f ρ) (hfg : f ≤ g) : Covers g ρ :=
  fun v x hv hx => (h v x hv hx).trans (hfg v)

theorem unassigned : Covers f Values.unassigned := by
  intro v x _ hx
  cases hx

theorem assign {v : Var} {x : Option Int32} {w : Value} (h : Covers f ρ)
    (hx : v.type.holdsInt → ∀ y, x = some y → .const y ≤ w) :
    Covers (f.update v w).2 (ρ.assign v x) := by
  intro u y hu hy
  rw [Fact.get_update]
  unfold Values.assign at hy
  by_cases huv : u = v
  · subst huv
    rw [if_pos hu, Function.update_self] at hy
    rw [if_pos rfl]
    exact hx hu y hy
  · rw [if_neg huv]
    apply h u y hu
    split at hy
    · rwa [Function.update_of_ne huv] at hy
    · exact hy

/-- A constant that is found is the value, and a variable with a value is not found to have none. -/
theorem exact {v : Var} {x : Int32} (h : Covers f ρ) (hv : v.type.holdsInt) (hx : ρ v = some x) :
    (∀ n, f.get v = .const n → x = n) ∧ f.get v ≠ .undef := by
  rcases eq_or_nac_of_const_le (h v x hv hx) with heq | heq
  · rw [heq]
    constructor
    · intro n hn
      exact Value.const.inj hn
    · intro hn
      cases hn
  · rw [heq]
    constructor
    · intro n hn
      cases hn
    · intro hn
      cases hn

end Covers

/-- The value that is found for an expression covers every value it can have. -/
theorem Evaluates.le {e : Expr} {x : Int32} (h : Covers f ρ) (he : Evaluates ρ e x) :
    .const x ≤ e.value f := by
  induction he with
  | int hv hx =>
    unfold Expr.value Var.value
    rw [if_pos hv]
    exact h _ _ hv hx
  | other x hv =>
    unfold Expr.value Var.value
    rw [if_neg hv]
    exact Value.le_nac _
  | literal n => exact le_refl _
  | @binary op l r a b x _ _ hop hl hr =>
    unfold Expr.value Value.binary
    have hzero : ¬ ((op = .div ∨ op = .rem) ∧ r.value f = .const 0) := by
      rintro ⟨hdiv, hr0⟩
      rw [hr0] at hr
      rcases eq_or_nac_of_const_le hr with hb | hb
      · obtain rfl := Value.const.inj hb
        rcases hdiv with rfl | rfl <;> cases hop
      · cases hb
    rw [if_neg hzero]
    rcases eq_or_nac_of_const_le hl with hl | hl
    · rcases eq_or_nac_of_const_le hr with hr | hr
      · rw [hl, hr]
        simp only [BinaryOp.fold_eq_onWords, hop]
        exact le_refl _
      · rw [hl, hr]
        exact Value.le_nac _
    · rw [hl]
      exact Value.le_nac _
  | alloc t x => exact Value.le_nac _
  | field a x => exact Value.le_nac _
  | element x _ _ => exact Value.le_nac _

/-- The arguments of a call cover the parameters that they are bound to. -/
theorem Covers.parameters {t : ConstFact} {args params : List Var} {xs : List Int32}
    (h : Covers f ρ) (ht : Covers t σ)
    (hargs : List.Forall₂ (fun a x => Evaluates ρ (.var a) x) args xs) :
    Covers (t.updateAll (((args.zip params).filter fun e => e.2.type.holdsInt).map
      fun e => (e.2, e.1.value f))) (σ.bind (params.zip xs)) := by
  induction hargs generalizing params t σ with
  | nil => simpa [Fact.updateAll, Values.bind] using ht
  | @cons a x args xs ha _ ih =>
    cases params with
    | nil => simpa [Fact.updateAll, Values.bind] using ht
    | cons v params =>
      have hle : .const x ≤ a.value f := Evaluates.le h ha
      rw [List.zip_cons_cons, List.zip_cons_cons, Values.bind_cons, List.filter_cons]
      split
      · apply ih
        apply ht.assign
        rintro - y hy
        rwa [← Option.some.inj hy]
      · rename_i hv
        rw [Values.assign_other σ hv]
        exact ih ht

theorem le_updateAll_nac (t : ConstFact) (vs : List Var) :
    t ≤ t.updateAll (vs.map fun v => (v, .nac)) := by
  induction vs generalizing t with
  | nil => exact le_refl t
  | cons v vs ih => exact (ConstFact.le_update_nac t v).trans (ih (t.update v .nac).2)

theorem get_updateAll_nac {t : ConstFact} {vs : List Var} {v : Var} (hv : v ∈ vs) :
    (t.updateAll (vs.map fun v => (v, .nac))).get v = .nac := by
  induction vs generalizing t with
  | nil => cases hv
  | cons u vs ih =>
    rcases List.mem_cons.1 hv with rfl | hv
    · have hle := le_updateAll_nac (t.update v .nac).2 vs v
      rw [Fact.get_update, if_pos rfl] at hle
      exact le_antisymm (Value.le_nac _) hle
    · exact ih hv

/-- Parameters of which nothing is known may be bound to anything, or stay unbound. -/
theorem Covers.anyParameters {t : ConstFact} {params : List Var} {xs : List Int32}
    (ht : Covers t σ) :
    Covers (t.updateAll ((params.filter fun v => v.type.holdsInt).map fun v => (v, .nac)))
      (σ.bind (params.zip xs)) := by
  induction params generalizing t σ xs with
  | nil => simpa [Fact.updateAll, Values.bind] using ht
  | cons v params ih =>
    cases xs with
    | nil =>
      rw [List.zip_nil_right]
      exact ht.mono (le_updateAll_nac t _)
    | cons x xs =>
      rw [List.zip_cons_cons, Values.bind_cons, List.filter_cons]
      split
      · apply ih
        apply ht.assign
        intro _ _ _
        exact Value.le_nac _
      · rename_i hv
        rw [Values.assign_other σ hv]
        exact ih ht

end

/-! ## Within a body -/

namespace Moves

variable {b : Body} {s : Stmt} {f : ConstFact} {ρ ρ' : Values} {n : Node} {x : Option Int32}

theorem not_call (hm : Moves b s ρ n ρ' x) : s.callSite? = none := by
  cases hm with
  | assign _ hc _ _ =>
    unfold Stmt.callSite?
    split
    · rename_i hcmd
      rw [hcmd] at hc
      cases hc
    · rfl
  | storeField hc | storeElement hc | jump hc | noJump hc | goto hc | nop hc | foreign hc | ret hc
  | retNothing hc =>
    unfold Stmt.callSite?
    rw [hc]

theorem mem_succs (hm : Moves b s ρ n ρ' x) (hs : s ∈ b.stmts) :
    n ∈ (Cfg.ofBody b).succs (.stmt s) := by
  cases hm with
  | assign _ hc _ ht =>
    apply Cfg.next_mem_succs ht
    cases hcmd : s.command <;> rw [hcmd] at hc <;> first | rfl | cases hc
  | storeField hc _ ht | storeElement hc _ _ ht | noJump hc _ ht | nop hc ht | foreign hc ht =>
    apply Cfg.next_mem_succs ht
    rw [hc]
    rfl
  | jump hc _ _ ht | goto hc ht =>
    refine Cfg.target_mem_succs hs ?_ ht
    rw [hc]
    rfl
  | ret hc => exact Cfg.exit_mem_succs hs hc
  | retNothing hc => exact Cfg.exit_mem_succs hs hc

theorem mem_nodes (hm : Moves b s ρ n ρ' x) : n ∈ (Cfg.ofBody b).nodes := by
  have next : ∀ {t : Stmt}, [s, t] <:+: b.stmts → .stmt t ∈ (Cfg.ofBody b).nodes := fun ht =>
    Cfg.stmt_mem_nodes (ht.subset (List.mem_cons_of_mem _ List.mem_cons_self))
  cases hm with
  | assign _ _ _ ht | storeField _ _ ht | storeElement _ _ _ ht | noJump _ _ ht | nop _ ht
  | foreign _ ht => exact next ht
  | jump _ _ _ ht | goto _ ht => exact Cfg.stmt_mem_nodes (List.mem_of_find?_eq_some ht)
  | ret | retNothing => exact Cfg.exit_mem_nodes

/-- The fact after a statement covers the values after it. -/
theorem covers (hm : Moves b s ρ n ρ' x) (h : Covers f ρ) : Covers (afterStmt s f) ρ' := by
  cases hm with
  | @assign v e y t hd hc he _ =>
    unfold afterStmt assigned
    rw [hd, hc]
    dsimp only
    split
    · apply h.assign
      rintro - y' hy
      obtain rfl := Option.some.inj hy
      exact he.le h
    · rename_i hv
      rwa [Values.assign_other ρ hv]
  | storeField hc | storeElement hc | jump hc | noJump hc | goto hc | nop hc | foreign hc | ret hc
  | retNothing hc =>
    unfold afterStmt
    rw [hc]
    exact h

/-- What is returned is the value of a variable that the body returns. -/
theorem answer {y : Int32} (hm : Moves b s ρ n ρ' x) (hs : s ∈ b.stmts) (h : Covers f ρ)
    (hx : x = some y) :
    n = .exit b.method ∧ ∃ v ∈ b.returnVars, .const y ≤ v.value (afterStmt s f) := by
  cases hm with
  | @ret v y' hc he =>
    obtain rfl := Option.some.inj hx
    have hsame : afterStmt s f = f := by
      unfold afterStmt
      rw [hc]
      rfl
    rw [hsame]
    exact ⟨rfl, v, Body.mem_returnVars.2 ⟨s, hs, hc⟩, he.le h⟩
  | _ => cases hx

end Moves

end ObjectFlow.Constants
