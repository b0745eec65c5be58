import ObjectFlow.Proofs.Building
import ObjectFlow.Proofs.Faults
import ObjectFlow.Proofs.Least
/-!
# When an analysis of a built program fails

The least solution of the rules exists whether or not an analysis succeeds: a
call that nothing answers contributes nothing to it. It tells how the analysis
ends. It fails exactly if the solution has a call that nothing answers, a call
edge with the wrong number of arguments, or a call on an object that leads to a
static method.
-/

namespace ObjectFlow

/-! ## Receivers -/

namespace Draft

theorem Built.receiver_eq {d : Draft} (hb : d.Built) : d.receiver = receiverOf d.method := by
  induction hb with
  | @start m names d h =>
    obtain ⟨params, -, rfl⟩ := start_eq_ok h
    rfl
  | addVar _ ih => exact ih
  | append _ happ ih =>
    obtain rfl := append_eq_ok happ
    exact ih
  | mark _ hmark ih =>
    obtain rfl := mark_eq_ok hmark
    exact ih
  | @finish d _ ih =>
    obtain ⟨cs, finished, hleaves⟩ := finish_leaves d
    rw [hleaves]
    exact ih

end Draft

theorem Body.Built.receiver_eq {b : Body} (hb : b.Built) :
    b.receiver = Draft.receiverOf b.method := by
  induction hb with
  | @finish d d' b hd hfin =>
    obtain ⟨cs, -, rfl⟩ := Draft.finish_eq_ok hfin
    exact hd.receiver_eq
  | foreign _ ih => exact ih

/-- A body lacks a receiver exactly if its method is static. -/
theorem Program.Built.receiver_eq_none {p : Program} (hp : p.Built) {m : Method} {b : Body}
    (hb : p.body? m = some b) : b.receiver = none ↔ m.isStatic := by
  rw [(hp.body hb).receiver_eq, hp.method hb, Draft.receiverOf]
  cases m.isStatic <;> simp

namespace PointsTo

/-! ## The least solution -/

section
variable {p : Program} {setup : Setup} {F : Set Conclusion}

/-- What the rules give rise to. -/
def derivable (p : Program) (setup : Setup) : Set Conclusion := {x | ∀ F, Closed p setup F → x ∈ F}

theorem derivable_subset (hF : Closed p setup F) : derivable p setup ⊆ F := fun _ hx => hx F hF

theorem closed_derivable (p : Program) (setup : Setup) : Closed p setup (derivable p setup) where
  entry m hm _ hF := hF.entry m hm
  alloc hs hc _ hF := hF.alloc (hs.mono (derivable_subset hF)) hc
  copy hs hc _ hF := hF.copy (hs.mono (derivable_subset hF)) hc
  staticLoad hs hc _ hF := hF.staticLoad (hs.mono (derivable_subset hF)) hc
  staticStore hs hc _ hF := hF.staticStore (hs.mono (derivable_subset hF)) hc
  staticCall hs hc hst hr _ hF := hF.staticCall (hs.mono (derivable_subset hF)) hc hst hr
  fieldStore ho hs hc F hF := hF.fieldStore (ho F hF) hs hc
  fieldLoad ho hs hc F hF := hF.fieldLoad (ho F hF) hs hc
  elementStore ho hs hc F hF := hF.elementStore (ho F hF) hs hc
  elementLoad ho hs hc F hF := hF.elementLoad (ho F hF) hs hc
  instanceCall ho hs hc hv hr F hF := hF.instanceCall (ho F hF) hs hc hv hr
  receiver ho hs hc hv hr hb F hF := hF.receiver (ho F hF) hs hc hv hr hb
  callee he hb F hF := hF.callee (he F hF) hb
  argument he hb hl hz F hF := hF.argument (he F hF) hb hl hz
  result he hb hl hw hv F hF := hF.result (he F hF) hb hl hw hv
  flow he ho F hF := hF.flow (he F hF) (ho F hF)
  bodiless he hb F hF := hF.bodiless (he F hF) hb

theorem derivable_isLeast (p : Program) (setup : Setup) :
    IsLeast {F | Closed p setup F} (derivable p setup) :=
  ⟨closed_derivable p setup, fun _ hF => derivable_subset hF⟩

/-! ## What leads to a fault -/

/-- A call on the object leads to a method with a body. -/
structure Delivered (p : Program) (F : Set Conclusion) (o : CtxObject) (callee : Method)
    (b : Body) : Prop where
  call : ∃ x v s r c, .holds (varIn x v) o ∈ F ∧ p.Has s ∧ s.command = .invoke r c ∧
    c.base? = some v ∧ instanceCallee p.hierarchy c o = .ok callee
  body : p.body? callee = some b

/-- What may be concluded of the receivers that methods lack. -/
def receiverless (p : Program) (F : Set Conclusion) : Set Conclusion
  | .flow _ (.var _ none) => False
  | .holds (.var _ none) o => ∃ callee b, Delivered p F o callee b ∧ b.receiver = none
  | _ => True

/-- Only calls deliver objects to a receiver that is lacking: no flow edge leads there. -/
theorem closed_receiverless (hF : Closed p setup F) :
    Closed p setup (F ∩ receiverless p F) where
  entry m hm := ⟨hF.entry m hm, trivial⟩
  alloc hs hc := ⟨hF.alloc (hs.mono Set.inter_subset_left) hc, trivial⟩
  copy hs hc := ⟨hF.copy (hs.mono Set.inter_subset_left) hc, trivial⟩
  staticLoad hs hc := ⟨hF.staticLoad (hs.mono Set.inter_subset_left) hc, trivial⟩
  staticStore hs hc := ⟨hF.staticStore (hs.mono Set.inter_subset_left) hc, trivial⟩
  staticCall hs hc hst hr := ⟨hF.staticCall (hs.mono Set.inter_subset_left) hc hst hr, trivial⟩
  fieldStore ho hs hc := ⟨hF.fieldStore ho.1 hs hc, trivial⟩
  fieldLoad ho hs hc := ⟨hF.fieldLoad ho.1 hs hc, trivial⟩
  elementStore ho hs hc := ⟨hF.elementStore ho.1 hs hc, trivial⟩
  elementLoad ho hs hc := ⟨hF.elementLoad ho.1 hs hc, trivial⟩
  instanceCall ho hs hc hv hr := ⟨hF.instanceCall ho.1 hs hc hv hr, trivial⟩
  receiver {x v o s r c callee b} ho hs hc hv hr hb := by
    refine ⟨hF.receiver ho.1 hs hc hv hr hb, ?_⟩
    -- the one rule that brings objects to a receiver, whether the callee has one or not
    cases hrec : b.receiver with
    | none => exact ⟨callee, b, ⟨⟨x, v, s, r, c, ho.1, hs, hc, hv, hr⟩, hb⟩, hrec⟩
    | some w => trivial
  callee he hb := ⟨hF.callee he.1 hb, trivial⟩
  argument he hb hl hz := ⟨hF.argument he.1 hb hl hz, trivial⟩
  result he hb hl hw hv := ⟨hF.result he.1 hb hl hw hv, trivial⟩
  flow {s t o} he ho := by
    refine ⟨hF.flow he.1 ho.1, ?_⟩
    -- the edge is among the conclusions, so its end is no lacking receiver
    match t, he.2 with
    | .var _ (some _), _ => trivial
    | .staticField _, _ => trivial
    | .instanceField _ _, _ => trivial
    | .arrayIndex _, _ => trivial
  bodiless he hb := ⟨hF.bodiless he.1 hb, trivial⟩

theorem delivered_of_derivable {c : Ctx} {o : CtxObject}
    (h : .holds (.var c none) o ∈ derivable p setup) :
    ∃ callee b, Delivered p (derivable p setup) o callee b ∧ b.receiver = none :=
  (h _ (closed_receiverless (closed_derivable p setup))).2

/-- An error, and what leads to it where `F` says. -/
inductive Cause (p : Program) (F : Set Conclusion) : AnalysisError → Prop
  /-- A static call of a reachable method names a method that there is not. -/
  | unresolved {m : CtxMethod} {s : Stmt} {r : Option Var} {c : Call} (hs : Executes p F m s)
    (hc : s.command = .invoke r c) (hst : c.isStatic)
    (hr : p.hierarchy.resolve c.ref = .ok none) : Cause p F (.unresolved c.ref none)
  /-- Nothing answers a call on an object. -/
  | unanswered {x : Ctx} {v : Var} {o : CtxObject} {s : Stmt} {r : Option Var} {c : Call}
    {e : AnalysisError} (ho : .holds (varIn x v) o ∈ F) (hs : p.Has s)
    (hc : s.command = .invoke r c) (hv : c.base? = some v)
    (hr : instanceCallee p.hierarchy c o = .error e) :
    Cause p F (.unresolved c.ref (some (receiverType c o)))
  /-- A call edge leads to a body with another number of parameters. -/
  | mismatched {e : CtxEdge} {b : Body} (he : .call e ∈ F)
    (hb : p.body? e.callee.method = some b)
    (hl : e.site.site.call.args.length ≠ b.params.length) :
    Cause p F
      (.arity e.site.site e.callee.method e.site.site.call.args.length b.params.length)
  /-- A call on an object leads to the body of a static method. -/
  | misdirected {o : CtxObject} {callee : Method} {b : Body} (h : Delivered p F o callee b)
    (hst : callee.isStatic) : Cause p F .missingReceiver

/-- The programs of class and method builders: bodies have no statements of other kinds and use only
variables of their own, and what static calls name is looked up in known classes. -/
structure WellBuilt (p : Program) : Prop where
  built : p.Built
  owned : p.Scoped
  treated : ∀ {s}, p.Has s → ∀ {name n}, s.command ≠ .foreign name n
  known : ∀ {s r c}, p.Has s → s.command = .invoke r c → c.isStatic →
    ∀ d ∈ p.hierarchy.superChain c.ref.owner, d ∈ p.hierarchy.nodes

theorem interfaceMethod?_ne_error {h : Hierarchy} {s : Signature} {cs : List ClassRef}
    (hcs : ∀ c ∈ cs, c ∈ h.nodes) (c : ClassRef) : h.interfaceMethod? s cs ≠ .error c := by
  induction cs with
  | nil => intro he; cases he
  | cons d cs ih =>
    rw [Hierarchy.interfaceMethod?, if_neg (not_not.2 (hcs d List.mem_cons_self))]
    dsimp only
    split
    · intro he; cases he
    · exact ih fun d hd => hcs d (List.mem_cons_of_mem _ hd)

theorem resolve_ne_error {h : Hierarchy} {r : MethodRef}
    (hr : ∀ d ∈ h.superChain r.owner, d ∈ h.nodes) (c : ClassRef) : h.resolve r ≠ .error c := by
  unfold Hierarchy.resolve
  dsimp only
  split
  · intro he; cases he
  · exact interfaceMethod?_ne_error hr c

/-- The causes of an error are the tasks that the rules give rise to and that fail with it. -/
theorem cause_iff_fails (hp : WellBuilt p) {e : AnalysisError} :
    Cause p (derivable p setup) e ↔
      ∃ k, Fails p k e ∧ Justified p (derivable p setup) k := by
  constructor
  · intro h
    cases h with
    | unresolved hs hc hst hr =>
      exact ⟨.visit _ _, .static hc hst (by simp only [staticCallee, hr]), hs⟩
    | @unanswered x v o s r c e ho hs hc hv hr =>
      obtain rfl := instanceCallee_error hr
      refine ⟨.call ⟨x, ⟨s.place, r, c⟩⟩ o, .onObject hr, v, ho, ?_, hv⟩
      exact (stmt_of_invoke hc).symm ▸ hs
    | @mismatched e b he hb hl => exact ⟨.wire e, .arity hb hl, he⟩
    | @misdirected o callee b h hst =>
      obtain ⟨⟨x, v, s, r, c, ho, hs, hc, hv, hr⟩, hb⟩ := h
      have hin := (closed_derivable p setup).receiver ho hs hc hv hr hb
      rw [(hp.built.receiver_eq_none hb).2 hst] at hin
      exact ⟨.receive _ none o, .receiver, hin⟩
  · rintro ⟨k, hk, hj⟩
    cases hk with
    | foreign hc => exact absurd hc (hp.treated hj.has)
    | static hc hst he =>
      rcases staticCallee_error he with ⟨d, hr, -⟩ | ⟨hr, rfl⟩
      · exact absurd hr (resolve_ne_error (hp.known hj.has hc hst) d)
      · exact .unresolved hj hc hst hr
    | receiver =>
      obtain ⟨callee, b, hd, hb⟩ := delivered_of_derivable hj
      exact .misdirected hd ((hp.built.receiver_eq_none hd.body).1 hb)
    | onObject he =>
      obtain ⟨v, ho, hs, hv⟩ := hj
      obtain rfl := instanceCallee_error he
      exact .unanswered ho hs rfl hv he
    | arity hb hl => exact .mismatched hj hb hl

/-- The analysis of a well-built program without a bound on its rounds comes to an end. It fails
exactly if the least solution of the rules has a cause of an error, and it fails with an error that
has a cause there. -/
theorem analysis_fails_iff (hp : WellBuilt p) (hlim : setup.roundLimit = 0) :
    IsLeast {F | Closed p setup F} (derivable p setup) ∧
    ∃ n r st, r ≠ .error .outOfFuel ∧ (∀ fuel, n ≤ fuel → analyze fuel p setup .empty = (r, st)) ∧
      (∀ e, r = .error e → Cause p (derivable p setup) e) ∧
      ((∃ e, r = .error e) ↔ ∃ e, Cause p (derivable p setup) e) := by
  obtain ⟨n, ⟨r, st⟩, hr, hn⟩ := analyze_ends p setup
  have hrun := hn n (Nat.le_refl n)
  have hcause : ∀ e, r = .error e → Cause p (derivable p setup) e := by
    rintro e rfl
    rcases analyze_outcome hrun hr with ⟨-, hno⟩ | ⟨e', he, k, hk, hj⟩
    · exact absurd hlim (hno e rfl).1
    · obtain rfl := Except.error.inj he
      exact (cause_iff_fails hp).2 ⟨k, hk, hj _ (closed_derivable p setup)⟩
  refine ⟨derivable_isLeast p setup, n, r, st, hr, hn, hcause, ?_, ?_⟩
  · rintro ⟨e, he⟩
    exact ⟨e, hcause e he⟩
  · rintro ⟨e, he⟩
    obtain ⟨k, hk, hj⟩ := (cause_iff_fails hp).1 he
    cases r with
    | error e' => exact ⟨e', rfl⟩
    | ok u =>
      -- an analysis that returns has found the least solution and met no fault
      obtain ⟨st₀, hs, hreach, hw⟩ := analyze_eq_ok hrun
      have hleast := least_of_reaches hs hreach hw
      rw [(derivable_isLeast p setup).unique hleast] at hj
      exact absurd ((Owed.start hs).reaches hreach).faultless (hk.not_faultless hj)

end

/-! ### A static method called on an object -/

namespace StaticTarget

def owner : ClassRef := ⟨0, "A"⟩

def main : Method := ⟨0, owner, ⟨"main", [], .void⟩, true, false, false⟩

def tool : Method := ⟨1, owner, ⟨"tool", [], .void⟩, true, false, false⟩

def hierarchy : Hierarchy :=
  let h := (Hierarchy.empty.addClass "A" none [] false false).2
  let h := (h.addMethod owner main.signature true false false).2
  (h.addMethod owner tool.signature true false false).2

def x : Var := ⟨0, "x", .object owner, main⟩

def alloc : Stmt := ⟨⟨0, 1, main⟩, .alloc x (.object owner)⟩

def site : CallSite := ⟨⟨1, 2, main⟩, none, ⟨.virtual x, tool.ref, []⟩⟩

def draft : Draft :=
  ⟨main, none, [], [x], [.alloc x (.object owner), .invoke none site.call], ∅, false⟩

def body : Body := ⟨main, none, [], [x], [alloc, site.stmt, ⟨⟨2, 3, main⟩, .ret none⟩]⟩

def toolBody : Body := ⟨tool, none, [], [], [⟨⟨0, 1, tool⟩, .ret none⟩]⟩

/-- The main method makes an object and calls a static method on it. -/
def program : Program := ⟨hierarchy, OrderedMap.ofList [(main, body), (tool, toolBody)]⟩

def setup : Setup := ⟨[main], .insensitive, 0⟩

theorem hierarchy_built : hierarchy.Built := by
  have hmain : ((Hierarchy.empty.addClass "A" none [] false false).2.addMethod owner
      main.signature true false false).2.Built :=
    Hierarchy.Built.empty.addRoot.addMethod ⟨_, rfl, rfl⟩
  exact hmain.addMethod ⟨_, rfl, rfl⟩

theorem draft_built : draft.Built := by
  have hstart : Draft.Built ⟨main, none, [], [], [], ∅, false⟩ :=
    .start (show Draft.start main none = .ok _ from rfl)
  have hvar : Draft.Built ⟨main, none, [], [x], [], ∅, false⟩ := hstart.addVar
  exact hvar.appendAll rfl

theorem body_of_program {m : Method} {b : Body} (hb : program.body? m = some b) :
    (m = main ∧ b = body) ∨ (m = tool ∧ b = toolBody) := by
  have hin : (m, b) ∈ [(main, body), (tool, toolBody)] := OrderedMap.mem_entries_iff.2 hb
  simpa using hin

theorem program_built : program.Built where
  hierarchy := hierarchy_built
  body hb := by
    rcases body_of_program hb with ⟨-, rfl⟩ | ⟨-, rfl⟩
    · exact .finish draft_built rfl
    · exact .finish (.start (show Draft.start tool none = .ok _ from rfl)) rfl
  method hb := by
    rcases body_of_program hb with ⟨rfl, rfl⟩ | ⟨rfl, rfl⟩ <;> rfl

theorem stmt_of_program {s : Stmt} (hs : program.Has s) :
    s = alloc ∨ s = site.stmt ∨ s.command = .ret none := by
  obtain ⟨m, b, hb, hs⟩ := hs
  rcases body_of_program hb with ⟨-, rfl⟩ | ⟨-, rfl⟩
  · rcases List.mem_cons.1 hs with rfl | hs
    · exact .inl rfl
    · rcases List.mem_cons.1 hs with rfl | hs
      · exact .inr (.inl rfl)
      · obtain rfl := List.mem_singleton.1 hs
        exact .inr (.inr rfl)
  · obtain rfl := List.mem_singleton.1 hs
    exact .inr (.inr rfl)

theorem wellBuilt : WellBuilt program where
  built := program_built
  owned := by decide
  treated hs name n hc := by
    rcases stmt_of_program hs with rfl | rfl | h
    · cases hc
    · cases hc
    · rw [h] at hc
      cases hc
  known hs hc hst := by
    rcases stmt_of_program hs with rfl | rfl | h
    · cases hc
    · cases hc
      cases hst
    · rw [h] at hc
      cases hc

/-- The call is a cause in the least solution, so the analysis fails. -/
theorem analysis_fails_iff_misdirected :
    WellBuilt program ∧ setup.roundLimit = 0 ∧
    Cause program (derivable program setup) .missingReceiver ∧
    ∃ n e st, e ≠ .outOfFuel ∧
      ∀ fuel, n ≤ fuel → analyze fuel program setup .empty = (.error e, st) := by
  have hF := closed_derivable program setup
  have hmain : Executes program (derivable program setup) ⟨[], main⟩ alloc :=
    ⟨hF.entry main List.mem_cons_self, body, rfl, List.mem_cons_self⟩
  have hcall : program.Has site.stmt := ⟨main, body, rfl, List.mem_cons_of_mem _ List.mem_cons_self⟩
  have hcause : Cause program (derivable program setup) .missingReceiver :=
    .misdirected ⟨⟨[], x, site.stmt, none, site.call, hF.alloc hmain rfl, hcall, rfl, rfl, rfl⟩, rfl⟩
      rfl
  obtain ⟨-, n, r, st, hr, hn, -, hiff⟩ := analysis_fails_iff wellBuilt
    (show setup.roundLimit = 0 from rfl)
  obtain ⟨e, rfl⟩ := hiff.2 ⟨_, hcause⟩
  exact ⟨wellBuilt, rfl, hcause, n, e, st, fun he => hr (congrArg Except.error he), hn⟩

/-- The error says neither that nothing answers a call nor that a call has the wrong number of
arguments. -/
theorem not_only_unresolved_or_arity :
    WellBuilt program ∧ setup.roundLimit = 0 ∧
    ¬ ∀ fuel e, (analyze fuel program setup .empty).1 = .error e → e = .outOfFuel ∨
      (∃ r t, e = .unresolved r t) ∨ ∃ s m n k, e = .arity s m n k := by
  refine ⟨wellBuilt, rfl, fun h => ?_⟩
  have hrun : (analyze 10 program setup .empty).1 = .error .missingReceiver := rfl
  rcases h 10 _ hrun with he | ⟨r, t, he⟩ | ⟨s, m, n, k, he⟩
  · cases he
  · cases he
  · cases he

end StaticTarget

end PointsTo

end ObjectFlow
