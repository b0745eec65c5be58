import ObjectFlow.Proofs.Complete
import ObjectFlow.Proofs.Conservation
import ObjectFlow.Proofs.Derived
/-!
# Why an analysis fails

Whether a task fails is up to the program and the task; the state has no part in
it. A request to the analysis therefore has three ends: its work is done, it is
called off between two rounds with everything in place, or it met a task that
fails in every run of the program.
-/

namespace ObjectFlow

/-- An error that a task of the analysis can meet. -/
def AnalysisError.Fault : AnalysisError → Prop
  | .aborted _ => False
  | .startedTwice => False
  | .outOfFuel => False
  | _ => True

namespace PointsTo

/-! ## Tasks -/

/-- The task fails with the error. -/
inductive Fails (p : Program) : Task → AnalysisError → Prop
  | foreign {m : CtxMethod} {s : Stmt} {name : String} {n : Nat} (hc : s.command = .foreign name n) :
    Fails p (.visit m s) (.unknownStatement s)
  | static {m : CtxMethod} {s : Stmt} {r : Option Var} {c : Call} {e : AnalysisError}
    (hc : s.command = .invoke r c) (hst : c.isStatic)
    (he : staticCallee p.hierarchy c.ref = .error e) : Fails p (.visit m s) e
  | receiver {c : Ctx} {o : CtxObject} : Fails p (.receive c none o) .missingReceiver
  | onObject {site : CtxCallSite} {o : CtxObject} {e : AnalysisError}
    (he : instanceCallee p.hierarchy site.site.call o = .error e) : Fails p (.call site o) e
  | arity {e : CtxEdge} {b : Body} (hb : p.body? e.callee.method = some b)
    (hl : e.site.site.call.args.length ≠ b.params.length) :
    Fails p (.wire e)
      (.arity e.site.site e.callee.method e.site.site.call.args.length b.params.length)

section
variable {p : Program} {s : Selector} {setup : Setup} {F : Set Conclusion} {st st' : State}
  {k : Task} {e : AnalysisError}

theorem staticCallee_error {h : Hierarchy} {r : MethodRef} (he : staticCallee h r = .error e) :
    (∃ c, h.resolve r = .error c ∧ e = .unknownClass c) ∨
      (h.resolve r = .ok none ∧ e = .unresolved r none) := by
  unfold staticCallee at he
  split at he
  · rename_i c hr
    exact .inl ⟨c, hr, (Except.error.inj he).symm⟩
  · rename_i hr
    exact .inr ⟨hr, (Except.error.inj he).symm⟩
  · cases he

theorem instanceCallee_error {h : Hierarchy} {c : Call} {o : CtxObject}
    (he : instanceCallee h c o = .error e) : e = .unresolved c.ref (some (receiverType c o)) := by
  unfold instanceCallee at he
  dsimp only at he
  split at he
  · exact (Except.error.inj he).symm
  · cases he

theorem visit_fails {m : CtxMethod} {stmt : Stmt} (hx : visit p s m stmt st = .error e) :
    Fails p (.visit m stmt) e := by
  unfold visit at hx
  dsimp only at hx
  split at hx
  · cases hx
  · cases hx
  · cases hx
  · cases hx
  · rename_i r c hc
    split at hx
    · rename_i hst
      unfold visitStaticCall at hx
      cases hcallee : staticCallee p.hierarchy c.ref with
      | error e' =>
        rw [hcallee] at hx
        obtain rfl : e' = e := Except.error.inj hx
        exact .static hc hst hcallee
      | ok callee =>
        rw [hcallee] at hx
        cases hx
    · cases hx
  · rename_i hc
    obtain rfl := Except.error.inj hx
    exact .foreign hc
  · cases hx

theorem exec_fails (hx : exec p s k st = .error e) : Fails p k e := by
  cases k with
  | enter m => cases hx
  | visit m stmt => exact visit_fails hx
  | receive c v o =>
    cases v with
    | none =>
      obtain rfl := Except.error.inj hx
      exact .receiver
    | some v => cases hx
  | call site o =>
    simp only [exec, call] at hx
    cases hcallee : instanceCallee p.hierarchy site.site.call o with
    | error e' =>
      rw [hcallee] at hx
      obtain rfl : e' = e := Except.error.inj hx
      exact .onObject hcallee
    | ok callee =>
      rw [hcallee] at hx
      cases hx
  | wire edge =>
    simp only [exec, wire] at hx
    cases hb : p.body? edge.callee.method with
    | none =>
      rw [hb] at hx
      cases hx
    | some b =>
      rw [hb] at hx
      dsimp only at hx
      split at hx
      · rename_i hl
        obtain rfl := Except.error.inj hx
        exact .arity hb hl
      · cases hx

theorem Fails.fault (h : Fails p k e) : e.Fault := by
  cases h with
  | foreign | receiver | arity => trivial
  | static _ _ he =>
    rcases staticCallee_error he with ⟨c, -, rfl⟩ | ⟨-, rfl⟩
    · trivial
    · trivial
  | onObject he =>
    obtain rfl := instanceCallee_error he
    trivial

/-- Where the rules give rise to a task that fails, there is a fault. -/
theorem Fails.not_faultless (h : Fails p k e) (hk : Justified p F k) : ¬ Faultless p F := by
  intro hx
  cases h with
  | foreign hc => exact hx.known hk hc
  | static hc hst he =>
    obtain ⟨callee, hcallee⟩ := hx.static hk hc hst
    rw [he] at hcallee
    cases hcallee
  | receiver => exact hx.receiver hk
  | onObject he =>
    obtain ⟨v, ho, hs, hv⟩ := hk
    obtain ⟨callee, hcallee⟩ := hx.onObject ho hs rfl hv
    rw [he] at hcallee
    cases hcallee
  | arity hb hl => exact hl (hx.arity hk hb)

/-! ## Agendas -/

/-- An agenda that fails has met a task that fails, unless it wants fuel. -/
theorem settle_fails {P : List Task → State → Prop}
    (hstep : ∀ {k A st st' new}, P (k :: A) st → exec p s k st = .ok (st', new) →
      P (new ++ A) st')
    {fuel : Nat} {A : List Task} (h : P A st) (hr : settle p s fuel A st = (.error e, st')) :
    e = .outOfFuel ∨ ∃ k B, P (k :: B) st' ∧ Fails p k e := by
  induction fuel generalizing A st with
  | zero =>
    cases A with
    | nil => cases hr
    | cons k A =>
      obtain ⟨he, -⟩ := Prod.mk.inj hr
      exact .inl (Except.error.inj he).symm
  | succ fuel ih =>
    cases A with
    | nil => cases hr
    | cons k A =>
      simp only [settle] at hr
      cases hx : exec p s k st with
      | error e' =>
        rw [hx] at hr
        obtain ⟨he, rfl⟩ := Prod.mk.inj hr
        obtain rfl := Except.error.inj he
        exact .inr ⟨k, A, h, exec_fails hx⟩
      | ok r =>
        rw [hx] at hr
        exact ih (hstep h hx) hr

/-- Some task fails with the error, and whatever is closed under the rules gives rise to it. -/
def Faulty (p : Program) (setup : Setup) (e : AnalysisError) : Prop :=
  ∃ k, Fails p k e ∧ ∀ F, Closed p setup F → Justified p F k

theorem Faulty.fault (h : Faulty p setup e) : e.Fault := by
  obtain ⟨k, hk, -⟩ := h
  exact hk.fault

theorem Faulty.not_faultless (h : Faulty p setup e) (hF : Closed p setup F) : ¬ Faultless p F := by
  obtain ⟨k, hk, hj⟩ := h
  exact hk.not_faultless (hj F hF)

theorem settle_faulty {fuel : Nat} {A : List Task}
    (h : ∀ F, Closed p setup F → Sound p F st A)
    (hr : settle p setup.selector fuel A st = (.error e, st')) :
    e = .outOfFuel ∨ Faulty p setup e := by
  rcases settle_fails (P := fun A st => ∀ F, Closed p setup F → Sound p F st A)
    (fun h hx F hF => (h F hF).after hF hx) h hr with he | ⟨k, B, hB, hk⟩
  · exact .inl he
  · -- the task that failed stood on an agenda that every closed set accounts for
    exact .inr ⟨k, hk, fun F hF => (hB F hF).2 k List.mem_cons_self⟩

/-! ## Requests -/

theorem Operations.started (h : Operations st st') : st'.started = st.started := by
  induction h with
  | refl => rfl
  | tail _ ho ih =>
    rw [← ih]
    cases ho with
    | connect s t kind =>
      unfold State.connect
      dsimp only
      split
      · rfl
      · split <;> rfl
    | _ => rfl

/-- What is owed stays the same where only flow edges and waiting objects come. -/
theorem Owed.extend {A : List Task} (h : Owed p setup A st) (he : st.Extends st') :
    Owed p setup A st' := by
  have keep : ∀ {k}, Todo p setup.selector A st k → Todo p setup.selector A st' k := fun hk =>
    hk.imp id fun hs => hs.mono he.grows
  refine ⟨fun m hm => keep (h.entered m hm), fun hm hb hs => ?_, fun ho => ?_, fun ho => ?_,
    fun hc => ?_, he.flowing h.flowing⟩
  · rw [he.calls] at hm
    exact keep (h.visited hm hb hs)
  · rw [he.objects] at ho
    exact keep (h.received ho)
  · rw [he.objects] at ho
    exact (h.called ho).imp id fun hc site hs => keep (hc site hs)
  · rw [he.calls] at hc ⊢
    exact ⟨(h.wired hc).1, keep (h.wired hc).2⟩

/-- A state between two rounds of a run in which no task failed. -/
structure Running (p : Program) (setup : Setup) (st : State) : Prop where
  started : st.started = true
  owed : Owed p setup [] st
  within : ∀ F, Closed p setup F → Within F st

/-- What comes of a request: the run can go on, called off at most by the bound on its rounds, or
it met a fault. -/
def Outcome (p : Program) (setup : Setup) (st' : State) {α : Type} (r : Except AnalysisError α) :
    Prop :=
  (Running p setup st' ∧ ∀ e, r = .error e →
    setup.roundLimit ≠ 0 ∧ e = .aborted (.roundLimit setup.roundLimit)) ∨
  ∃ e, r = .error e ∧ Faulty p setup e

theorem Outcome.running {α : Type} {a : α} (h : Outcome p setup st' (.ok a)) :
    Running p setup st' := by
  rcases h with ⟨h, -⟩ | ⟨e, he, -⟩
  · exact h
  · cases he

theorem start_outcome {fuel : Nat} {r : Except AnalysisError Unit}
    (h : start fuel p setup .empty = (r, st')) (hr : r ≠ .error .outOfFuel) :
    Outcome p setup st' r := by
  have hsettle : settle p setup.selector fuel (setup.entries.map fun m => .enter ⟨[], m⟩)
      { State.empty with started := true } = (r, st') := h
  cases r with
  | error e =>
    rcases settle_faulty (fun F hF => initial_sound hF) hsettle with rfl | he
    · exact absurd rfl hr
    · exact .inr ⟨e, rfl, he⟩
  | ok u =>
    refine .inl ⟨⟨?_, Owed.start h, fun F hF => ?_⟩, fun e he => by cases he⟩
    · have hs := (settle_operations p setup.selector fuel
        (setup.entries.map fun m => .enter ⟨[], m⟩) { State.empty with started := true }).started
      rw [hsettle] at hs
      exact hs
    · have hw := start_within fuel hF
      rwa [h] at hw

theorem Running.step {fuel : Nat} {r : Except AnalysisError Bool} (hst : Running p setup st)
    (h : step fuel p setup st = (r, st')) (hr : r ≠ .error .outOfFuel) :
    Outcome p setup st' r := by
  have hstarted : st'.started = true := by
    have hs := (step_operations fuel p setup st).started
    rw [h] at hs
    exact hs.trans hst.started
  cases r with
  | ok b =>
    refine .inl ⟨?_, fun e he => by cases he⟩
    rcases step_eq_ok h with ⟨-, rfl, -⟩ | ⟨-, hn⟩
    · exact hst
    · exact ⟨hstarted, hst.owed.nextRound hn, fun F hF => hn.within hF (hst.within F hF)⟩
  | error e =>
    unfold PointsTo.step at h
    split at h
    · cases (Prod.mk.inj h).1
    · rename_i q objs rest hp
      unfold round at h
      dsimp only at h
      split at h
      · -- the bound is checked before anything is taken
        rename_i hlim
        obtain ⟨he, rfl⟩ := Prod.mk.inj h
        refine .inl ⟨⟨hst.started, ?_, fun F hF => (hst.within F hF).congr rfl rfl rfl rfl⟩,
          fun e' he' => ⟨hlim.1, ?_⟩⟩
        · exact hst.owed.extend (.of_eq rfl rfl rfl rfl)
        · exact Except.error.inj (he'.symm.trans he.symm)
      · generalize hs : settle p setup.selector fuel _ _ = x at h
        obtain ⟨x, st₁⟩ := x
        obtain ⟨hx, rfl⟩ := Prod.mk.inj h
        cases x with
        | ok u => cases hx
        | error e' =>
          obtain rfl := Except.error.inj hx
          rcases settle_faulty (fun F hF => propagate_sound hF (hst.within F hF)
            (Pending.take?_of_poll? hp)) hs with rfl | he
          · exact absurd rfl hr
          · exact .inr ⟨_, rfl, he⟩

theorem Running.rounds {fuel n : Nat} {r : Except AnalysisError Unit} (hst : Running p setup st)
    (h : rounds fuel p setup n st = (r, st')) (hr : r ≠ .error .outOfFuel) :
    Outcome p setup st' r := by
  induction n generalizing st with
  | zero =>
    obtain ⟨rfl, -⟩ := Prod.mk.inj h
    exact absurd rfl hr
  | succ n ih =>
    simp only [PointsTo.rounds] at h
    cases hs : PointsTo.step fuel p setup st with
    | mk x st₁ =>
      rw [hs] at h
      cases x with
      | error e =>
        obtain ⟨rfl, rfl⟩ := Prod.mk.inj h
        rcases hst.step hs fun he => hr (congrArg Except.error (Except.error.inj he)) with
          ⟨hrun, hno⟩ | ⟨e', he, hf⟩
        · exact .inl ⟨hrun, fun e' he => hno e' (congrArg Except.error (Except.error.inj he))⟩
        · exact .inr ⟨e', congrArg Except.error (Except.error.inj he), hf⟩
      | ok b =>
        have hrun := (hst.step hs (by simp)).running
        cases b with
        | false =>
          obtain ⟨rfl, rfl⟩ := Prod.mk.inj h
          exact .inl ⟨hrun, fun e he => by cases he⟩
        | true => exact ih hrun h

/-- An analysis from the empty state. -/
theorem analyze_outcome {fuel : Nat} {r : Except AnalysisError Unit}
    (h : analyze fuel p setup .empty = (r, st')) (hr : r ≠ .error .outOfFuel) :
    Outcome p setup st' r := by
  unfold analyze at h
  simp only [State.empty, Bool.false_eq_true, if_false] at h
  split at h
  · rename_i e st₁ hs
    obtain ⟨rfl, rfl⟩ := Prod.mk.inj h
    exact start_outcome hs hr
  · rename_i u st₁ hs
    exact (start_outcome hs (by simp)).running.rounds h hr

end

end PointsTo

end ObjectFlow
