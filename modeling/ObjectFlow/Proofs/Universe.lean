import Mathlib.Data.Set.Finite.Lattice
import Mathlib.Data.Set.Finite.List
import ObjectFlow.Proofs.Rules
/-!
# Finitely many conclusions

Contexts grow during a run, but a selector keeps them short and builds them from
the call sites and allocations that stand in the bodies. So the rules never lead
out of a finite set of conclusions that the program fixes beforehand.
-/

namespace ObjectFlow

/-! ## Bounded contexts -/

namespace Context

variable {ε : Type}

theorem length_latest_le (limit : Int) (c : Context ε) : (latest limit c).length ≤ limit.toNat := by
  simp only [latest, List.length_drop]
  omega

theorem latest_length_le (limit : Int) (c : Context ε) : (latest limit c).length ≤ c.length := by
  simp only [latest, List.length_drop]
  omega

theorem mem_of_mem_latest {limit : Int} {c : Context ε} {e : ε} (h : e ∈ latest limit c) :
    e ∈ c := List.mem_of_mem_drop h

/-- The contexts of at most `n` elements, all from `E`. -/
def upTo (n : Nat) (E : Set ε) : Set (Context ε) := {c | c.length ≤ n ∧ ∀ e ∈ c, e ∈ E}

theorem nil_mem_upTo {n : Nat} {E : Set ε} : [] ∈ upTo n E :=
  ⟨Nat.zero_le n, fun _ he => absurd he List.not_mem_nil⟩

theorem append_mem_upTo {n : Nat} {E : Set ε} {c : Context ε} {e : ε} (hc : ∀ x ∈ c, x ∈ E)
    (he : e ∈ E) : append n c e ∈ upTo n E := by
  refine ⟨length_latest_le _ _, fun x hx => ?_⟩
  rcases List.mem_append.1 (mem_of_mem_latest hx) with hx | hx
  · exact hc x hx
  · obtain rfl := List.mem_singleton.1 hx
    exact he

theorem finite_upTo (n : Nat) {E : Set ε} (hE : E.Finite) : (upTo n E).Finite := by
  have : Finite E := hE
  refine ((List.finite_length_le E n).image (List.map Subtype.val)).subset ?_
  rintro c ⟨hl, hm⟩
  refine ⟨c.attach.map fun e => ⟨e.1, hm e.1 e.2⟩, ?_, ?_⟩
  · simpa using hl
  · simp

end Context

namespace Selector

variable {ε : Type} {s : Selector} {E : Set ε}

/-- Callee contexts stay short and are built from the caller's, the site and the receiver. -/
theorem calleeContext_mem {c : Context ε} {site : ε} {r : Option (ReceiverObject ε)}
    (hc : c ∈ Context.upTo s.k E) (hs : site ∈ E)
    (hr : ∀ o, r = some o → (∀ e ∈ o.context, e ∈ E) ∧ o.object ∈ E ∧ o.container ∈ E) :
    s.calleeContext c site r ∈ Context.upTo s.k E := by
  match s, r with
  | .insensitive, _ => exact Context.nil_mem_upTo
  | .limited .callSite _ _, _ => exact Context.append_mem_upTo hc.2 hs
  | .limited .object _ _, none | .limited .type _ _, none => exact hc
  | .limited .object _ _, some o => exact Context.append_mem_upTo (hr o rfl).1 (hr o rfl).2.1
  | .limited .type _ _, some o => exact Context.append_mem_upTo (hr o rfl).1 (hr o rfl).2.2

/-- The context of an object is the latest part of the one it was made in. -/
theorem heapContext_mem {n : Nat} {c : Context ε} (hc : c ∈ Context.upTo n E) :
    s.heapContext c ∈ Context.upTo n E := by
  cases s with
  | insensitive => exact Context.nil_mem_upTo
  | limited f k hk =>
    exact ⟨(Context.latest_length_le hk c).trans hc.1,
      fun e he => hc.2 e (Context.mem_of_mem_latest he)⟩

end Selector

/-! ## What a program mentions -/

/-- The variables of a command that can come to hold an object or give one away. -/
def Command.vars {τ : Type} : Command τ → List Var
  | .alloc v _ => [v]
  | .copy v w => [v, w]
  | .loadField v _ | .storeField _ v | .loadElement v _ _ | .storeElement _ _ v => [v]
  | .invoke r c => r.toList ++ c.args
  | .ret r => r.toList
  | _ => []

def Command.fields {τ : Type} : Command τ → List Field
  | .loadField _ a | .storeField a _ => [a.field]
  | _ => []

/-- The variable whose value a statement returns. -/
def Stmt.returned? (s : Stmt) : Option Var :=
  match s.command with
  | .ret v => v
  | _ => none

theorem Stmt.returned?_eq_some {s : Stmt} {v : Var} :
    s.returned? = some v ↔ s.command = .ret (some v) := by
  unfold Stmt.returned?
  cases s.command <;> simp

/-- The variables that a body returns stand once each, in the order of their first return. -/
theorem Body.returnVars_eq (b : Body) :
    b.returnVars = (b.stmts.filterMap Stmt.returned?).eraseDups := by
  -- each statement adds the variable that it returns
  have fold : ∀ f : List Var → Stmt → List Var,
      (∀ (vs : OrderedSet Var) s, f vs.toList s = (vs.insertAll s.returned?.toList).toList) →
      ∀ (l : List Stmt) (vs : OrderedSet Var),
        l.foldl f vs.toList = (vs.insertAll (l.filterMap Stmt.returned?)).toList := by
    intro f hf l
    induction l with
    | nil => exact fun _ => rfl
    | cons s l ih =>
      intro vs
      rw [List.foldl_cons, hf, ih, List.filterMap_cons]
      cases s.returned? <;> rfl
  rw [← OrderedSet.toList_ofList]
  refine fold _ (fun vs s => ?_) b.stmts ∅
  unfold Stmt.returned?
  cases s.command with
  | ret v =>
    cases v with
    | none => rfl
    | some v => exact (OrderedSet.toList_insert vs v).symm
  | _ => rfl

theorem Body.mem_returnVars {b : Body} {v : Var} :
    v ∈ b.returnVars ↔ ∃ s ∈ b.stmts, s.command = .ret (some v) := by
  simp only [returnVars_eq, List.mem_eraseDups, List.mem_filterMap, Stmt.returned?_eq_some]

namespace Program

variable (p : Program)

def stmts : List Stmt := p.bodies.values.flatMap Body.stmts

def sites : List CallSite := p.stmts.filterMap Stmt.callSite?

def allocs : List AllocSite := p.stmts.filterMap Stmt.allocSite?

/-- What contexts are made of. -/
def elements : List PointsTo.ContextElement :=
  p.sites.map .callSite ++ p.allocs.map .object ++ p.allocs.map fun o => .type o.method.owner

def vars : List (Option Var) :=
  (p.stmts.flatMap fun s => s.command.vars).map some ++
    (p.bodies.values.flatMap fun b => b.receiver :: b.params.map some)

def fields : List Field := p.stmts.flatMap fun s => s.command.fields

/-- The entries and all methods that a call can find. -/
def methods (entries : List Method) : List Method :=
  entries ++ (p.sites.filterMap fun s => (PointsTo.staticCallee p.hierarchy s.call.ref).toOption) ++
    p.sites.flatMap fun s => p.allocs.filterMap fun a =>
      (PointsTo.instanceCallee p.hierarchy s.call ⟨[], a⟩).toOption

variable {p}

theorem mem_stmts {s : Stmt} : s ∈ p.stmts ↔ p.Has s := by
  rw [PointsTo.has_iff, stmts, List.mem_flatMap]

theorem mem_sites {s : CallSite} : s ∈ p.sites ↔ p.Has s.stmt := by
  simp only [sites, List.mem_filterMap, mem_stmts, PointsTo.callSite?_eq_some]
  constructor
  · rintro ⟨s', hs, hp, hc⟩
    have heq : s' = s.stmt := by
      rw [← PointsTo.stmt_of_invoke hc, hp]
    exact heq ▸ hs
  · intro h
    exact ⟨s.stmt, h, rfl, rfl⟩

theorem alloc_mem_allocs {s : Stmt} {v : Var} {t : Ty} (h : p.Has s)
    (hc : s.command = .alloc v t) : ⟨s.place, t⟩ ∈ p.allocs :=
  List.mem_filterMap.2 ⟨s, mem_stmts.2 h, by simp [Stmt.allocSite?, hc]⟩

theorem invoke_mem_sites {s : Stmt} {r : Option Var} {c : Call} (h : p.Has s)
    (hc : s.command = .invoke r c) : ⟨s.place, r, c⟩ ∈ p.sites :=
  List.mem_filterMap.2 ⟨s, mem_stmts.2 h, by simp [Stmt.callSite?, hc]⟩

theorem var_mem_vars {s : Stmt} {v : Var} (h : p.Has s) (hv : v ∈ s.command.vars) :
    some v ∈ p.vars :=
  List.mem_append_left _ (List.mem_map.2 ⟨v, List.mem_flatMap.2 ⟨s, mem_stmts.2 h, hv⟩, rfl⟩)

theorem field_mem_fields {s : Stmt} {f : Field} (h : p.Has s) (hf : f ∈ s.command.fields) :
    f ∈ p.fields := List.mem_flatMap.2 ⟨s, mem_stmts.2 h, hf⟩

theorem receiver_mem_vars {m : Method} {b : Body} (h : p.body? m = some b) :
    b.receiver ∈ p.vars :=
  List.mem_append_right _ (List.mem_flatMap.2 ⟨b, OrderedMap.mem_values_iff.2 ⟨m, h⟩, by simp⟩)

theorem param_mem_vars {m : Method} {b : Body} {v : Var} (h : p.body? m = some b)
    (hv : v ∈ b.params) : some v ∈ p.vars :=
  List.mem_append_right _ (List.mem_flatMap.2 ⟨b, OrderedMap.mem_values_iff.2 ⟨m, h⟩, by simp [hv]⟩)

theorem returnVar_mem_vars {m : Method} {b : Body} {v : Var} (h : p.body? m = some b)
    (hv : v ∈ b.returnVars) : some v ∈ p.vars := by
  obtain ⟨s, hs, hc⟩ := Body.mem_returnVars.1 hv
  exact var_mem_vars ⟨m, b, h, hs⟩ (by simp [hc, Command.vars])

end Program

/-! ## What is possible in a program -/

namespace PointsTo

variable (p : Program) (setup : Setup)

/-- The contexts that the selector can build in the program. -/
def contexts : Set Ctx := Context.upTo setup.selector.k {e | e ∈ p.elements}

def objects : Set CtxObject := {o | o.context ∈ contexts p setup ∧ o.site ∈ p.allocs}

def ctxMethods : Set CtxMethod :=
  {m | m.context ∈ contexts p setup ∧ m.method ∈ p.methods setup.entries}

def pointers : Set Pointer
  | .var c v => c ∈ contexts p setup ∧ v ∈ p.vars
  | .staticField f => f ∈ p.fields
  | .instanceField o f => o ∈ objects p setup ∧ f ∈ p.fields
  | .arrayIndex o => o ∈ objects p setup

/-- All conclusions about what the program mentions, in contexts that the selector can build. -/
def possible : Set Conclusion
  | .reachable m => m ∈ ctxMethods p setup
  | .call e => (e.site.context ∈ contexts p setup ∧ e.site.site ∈ p.sites) ∧
      e.callee ∈ ctxMethods p setup
  | .flow s t => s ∈ pointers p setup ∧ t ∈ pointers p setup
  | .holds q o => q ∈ pointers p setup ∧ o ∈ objects p setup

theorem finite_contexts : (contexts p setup).Finite :=
  Context.finite_upTo _ (List.finite_toSet p.elements)

theorem finite_objects : (objects p setup).Finite := by
  refine (((finite_contexts p setup).prod (List.finite_toSet p.allocs)).image
    fun x : Ctx × AllocSite => (⟨x.1, x.2⟩ : CtxObject)).subset ?_
  rintro ⟨c, a⟩ h
  exact ⟨(c, a), h, rfl⟩

theorem finite_methods : (ctxMethods p setup).Finite := by
  refine (((finite_contexts p setup).prod (List.finite_toSet (p.methods setup.entries))).image
    fun x : Ctx × Method => (⟨x.1, x.2⟩ : CtxMethod)).subset ?_
  rintro ⟨c, m⟩ h
  exact ⟨(c, m), h, rfl⟩

theorem finite_pointers : (pointers p setup).Finite := by
  have hc := finite_contexts p setup
  have ho := finite_objects p setup
  have hv := (hc.prod (List.finite_toSet p.vars)).image fun x : Ctx × Option Var =>
    Pointer.var x.1 x.2
  have hs := (List.finite_toSet p.fields).image Pointer.staticField
  have hi := (ho.prod (List.finite_toSet p.fields)).image fun x : CtxObject × Field =>
    Pointer.instanceField x.1 x.2
  refine (((hv.union hs).union hi).union (ho.image Pointer.arrayIndex)).subset ?_
  rintro (⟨c, v⟩ | f | ⟨o, f⟩ | o) h
  · exact .inl (.inl (.inl ⟨(c, v), h, rfl⟩))
  · exact .inl (.inl (.inr ⟨f, h, rfl⟩))
  · exact .inl (.inr ⟨(o, f), h, rfl⟩)
  · exact .inr ⟨o, h, rfl⟩

theorem finite_possible : (possible p setup).Finite := by
  have hm := finite_methods p setup
  have hq := finite_pointers p setup
  have hsites := ((finite_contexts p setup).prod (List.finite_toSet p.sites)).image
    fun x : Ctx × CallSite => (⟨x.1, x.2⟩ : CtxCallSite)
  have hkinds : (Set.univ : Set CallKind).Finite :=
    (List.finite_toSet CallKind.all).subset fun k _ => by cases k <;> simp [CallKind.all]
  have he := ((hkinds.prod (hsites.prod hm)).image
    fun x : CallKind × CtxCallSite × CtxMethod => Conclusion.call ⟨x.1, x.2.1, x.2.2⟩)
  have hf := (hq.prod hq).image fun x : Pointer × Pointer => Conclusion.flow x.1 x.2
  have hh := (hq.prod (finite_objects p setup)).image
    fun x : Pointer × CtxObject => Conclusion.holds x.1 x.2
  refine ((((hm.image Conclusion.reachable).union he).union hf).union hh).subset ?_
  rintro (m | ⟨k, s, m⟩ | ⟨a, b⟩ | ⟨q, o⟩) h
  · exact .inl (.inl (.inl ⟨m, h, rfl⟩))
  · exact .inl (.inl (.inr ⟨(k, s, m), ⟨trivial, ⟨(s.context, s.site), h.1, rfl⟩, h.2⟩, rfl⟩))
  · exact .inl (.inr ⟨(a, b), h, rfl⟩)
  · exact .inr ⟨(q, o), h, rfl⟩

/-! ### No rule leads out of it -/

variable {p setup}

theorem varIn_mem {c : Ctx} {s : Stmt} {v : Var} (hc : c ∈ contexts p setup) (hs : p.Has s)
    (hv : v ∈ s.command.vars) : varIn c v ∈ pointers p setup := ⟨hc, Program.var_mem_vars hs hv⟩

theorem site_mem_elements {s : Stmt} {r : Option Var} {c : Call} (hs : p.Has s)
    (hc : s.command = .invoke r c) : .callSite ⟨s.place, r, c⟩ ∈ p.elements := by
  have := Program.invoke_mem_sites hs hc
  simp [Program.elements, this]

/-- The callee that a static call finds, in its context. -/
theorem staticCallee_mem {x : Ctx} {s : Stmt} {r : Option Var} {c : Call} {callee : Method}
    (hx : x ∈ contexts p setup) (hs : p.Has s) (hc : s.command = .invoke r c)
    (h : staticCallee p.hierarchy c.ref = .ok callee) :
    calleeAt setup.selector ⟨x, ⟨s.place, r, c⟩⟩ none callee ∈ ctxMethods p setup := by
  constructor
  · have hnone : ∀ o : ReceiverObject ContextElement, none = some o →
        (∀ e ∈ o.context, e ∈ p.elements) ∧ o.object ∈ p.elements ∧ o.container ∈ p.elements :=
      fun o ho => by cases ho
    exact Selector.calleeContext_mem hx (site_mem_elements hs hc) hnone
  · refine List.mem_append_left _ (List.mem_append_right _ (List.mem_filterMap.2
      ⟨_, Program.invoke_mem_sites hs hc, ?_⟩))
    rw [h]
    rfl

/-- The callee that a call on an object finds, in its context. -/
theorem instanceCallee_mem {x : Ctx} {s : Stmt} {r : Option Var} {c : Call} {callee : Method}
    {o : CtxObject} (hx : x ∈ contexts p setup) (hs : p.Has s) (hc : s.command = .invoke r c)
    (ho : o ∈ objects p setup) (h : instanceCallee p.hierarchy c o = .ok callee) :
    calleeAt setup.selector ⟨x, ⟨s.place, r, c⟩⟩ (some o) callee ∈ ctxMethods p setup := by
  constructor
  · have hobject : (receiverObject o).object ∈ p.elements :=
      List.mem_append_left _ (List.mem_append_right _ (List.mem_map.2 ⟨o.site, ho.2, rfl⟩))
    have hcontainer : (receiverObject o).container ∈ p.elements :=
      List.mem_append_right _ (List.mem_map.2 ⟨o.site, ho.2, rfl⟩)
    have hsome : ∀ o', some (receiverObject o) = some o' →
        (∀ e ∈ o'.context, e ∈ p.elements) ∧ o'.object ∈ p.elements ∧
          o'.container ∈ p.elements := by
      intro o' ho'
      obtain rfl := Option.some.inj ho'
      exact ⟨ho.1.2, hobject, hcontainer⟩
    exact Selector.calleeContext_mem hx (site_mem_elements hs hc) hsome
  · refine List.mem_append_right _ (List.mem_flatMap.2 ⟨_, Program.invoke_mem_sites hs hc,
      List.mem_filterMap.2 ⟨o.site, ho.2, ?_⟩⟩)
    -- the callee depends on the type of the object alone
    have hsame : instanceCallee p.hierarchy c ⟨[], o.site⟩ = instanceCallee p.hierarchy c o := rfl
    rw [hsame, h]
    rfl

theorem Executes.has {F : Set Conclusion} {m : CtxMethod} {s : Stmt} (h : Executes p F m s) :
    p.Has s := ⟨m.method, h.2⟩

theorem closed_possible (p : Program) (setup : Setup) : Closed p setup (possible p setup) where
  entry m hm := ⟨Context.nil_mem_upTo, List.mem_append_left _ (List.mem_append_left _ hm)⟩
  alloc hs hc := ⟨varIn_mem hs.1.1 hs.has (by simp [hc, Command.vars]),
    Selector.heapContext_mem hs.1.1, Program.alloc_mem_allocs hs.has hc⟩
  copy hs hc := ⟨varIn_mem hs.1.1 hs.has (by simp [hc, Command.vars]),
    varIn_mem hs.1.1 hs.has (by simp [hc, Command.vars])⟩
  staticLoad hs hc := ⟨
    Program.field_mem_fields hs.has (by simp [hc, Command.fields, FieldAccess.field]),
    varIn_mem hs.1.1 hs.has (by simp [hc, Command.vars])⟩
  staticStore hs hc := ⟨varIn_mem hs.1.1 hs.has (by simp [hc, Command.vars]),
    Program.field_mem_fields hs.has (by simp [hc, Command.fields, FieldAccess.field])⟩
  staticCall hs hc _ hcallee := ⟨⟨hs.1.1, Program.invoke_mem_sites hs.has hc⟩,
    staticCallee_mem hs.1.1 hs.has hc hcallee⟩
  fieldStore ho hs hc := ⟨varIn_mem ho.1.1 hs (by simp [hc, Command.vars]), ho.2,
    Program.field_mem_fields hs (by simp [hc, Command.fields, FieldAccess.field])⟩
  fieldLoad ho hs hc := ⟨⟨ho.2,
    Program.field_mem_fields hs (by simp [hc, Command.fields, FieldAccess.field])⟩,
    varIn_mem ho.1.1 hs (by simp [hc, Command.vars])⟩
  elementStore ho hs hc := ⟨varIn_mem ho.1.1 hs (by simp [hc, Command.vars]), ho.2⟩
  elementLoad ho hs hc := ⟨ho.2, varIn_mem ho.1.1 hs (by simp [hc, Command.vars])⟩
  instanceCall ho hs hc _ hcallee := ⟨⟨ho.1.1, Program.invoke_mem_sites hs hc⟩,
    instanceCallee_mem ho.1.1 hs hc ho.2 hcallee⟩
  receiver ho hs hc _ hcallee hb :=
    ⟨⟨(instanceCallee_mem ho.1.1 hs hc ho.2 hcallee).1, Program.receiver_mem_vars hb⟩, ho.2⟩
  callee he _ := he.2
  argument {e b v w} he hb _ hz := by
    obtain ⟨hv, hw⟩ := List.of_mem_zip hz
    exact ⟨varIn_mem he.1.1 (Program.mem_sites.1 he.1.2) (by simp [CallSite.stmt, Command.vars, hv]),
      he.2.1, Program.param_mem_vars hb hw⟩
  result {e b v w} he hb _ hw hv := ⟨⟨he.2.1, Program.returnVar_mem_vars hb hv⟩,
    varIn_mem he.1.1 (Program.mem_sites.1 he.1.2) (by simp [CallSite.stmt, Command.vars, hw])⟩
  flow he ho := ⟨he.2, ho.2⟩
  bodiless he _ := he.2

end PointsTo

end ObjectFlow
