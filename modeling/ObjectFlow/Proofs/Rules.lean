import Mathlib.Order.Bounds.Defs
import ObjectFlow.PointsTo.Analysis
import ObjectFlow.Proofs.Containers
/-!
# The rules of the analysis

What an analysis finds is a set of conclusions: reachable methods, call edges,
flow edges, and objects that a pointer holds. The rules say which conclusions
follow from others. They speak of the program and the selector alone, not of
states, agendas or the order of work.
-/

namespace ObjectFlow

/-- A statement of some body. -/
def Program.Has (p : Program) (s : Stmt) : Prop := ∃ m b, p.body? m = some b ∧ s ∈ b.stmts

/-- The noted uses of a variable are the statements with such a use, in the order of the body. -/
theorem Body.getD_uses (b : Body) (u : Use × Var) :
    b.uses.getD u [] = b.stmts.filter fun s => decide (s.command.use? = some u) := by
  have note : ∀ (l : List Stmt) (uses : OrderedMap (Use × Var) (List Stmt)),
      (l.foldl Body.noteUse uses).getD u [] =
        uses.getD u [] ++ l.filter fun s => decide (s.command.use? = some u) := by
    intro l
    induction l with
    | nil => exact fun uses => (List.append_nil _).symm
    | cons s l ih =>
      intro uses
      rw [List.foldl_cons, ih, Body.noteUse]
      cases hu : s.command.use? with
      | none => simp [hu]
      | some u' =>
        by_cases heq : u = u'
        · simp [heq, hu, OrderedMap.getD_insert]
        · simp [heq, Ne.symm heq, hu, OrderedMap.getD_insert]
  exact note b.stmts ∅

namespace PointsTo

/-- One thing that an analysis finds. -/
inductive Conclusion where
  | reachable (m : CtxMethod)
  | call (e : CtxEdge)
  | flow (source target : Pointer)
  | holds (q : Pointer) (o : CtxObject)

/-- The conclusions that a state stands for. -/
def State.conclusions (st : State) : Set Conclusion
  | .reachable m => m ∈ st.calls.reachable
  | .call e => e ∈ st.calls.edges
  | .flow s t => st.flow.hasEdge s t
  | .holds q o => o ∈ st.objectsOf q

/-- The statement stands in the body of a method that is reachable by `F`. -/
def Executes (p : Program) (F : Set Conclusion) (m : CtxMethod) (s : Stmt) : Prop :=
  .reachable m ∈ F ∧ ∃ b, p.body? m.method = some b ∧ s ∈ b.stmts

theorem Executes.mono {p : Program} {F G : Set Conclusion} {m : CtxMethod} {s : Stmt} (h : F ⊆ G)
    (hs : Executes p F m s) : Executes p G m s := ⟨h hs.1, hs.2⟩

/-- The pointer of a variable in a context. -/
abbrev varIn (c : Ctx) (v : Var) : Pointer := .var c (some v)

/-- Closed under all rules that do not concern callees without a body. -/
structure BodyClosed (p : Program) (setup : Setup) (F : Set Conclusion) : Prop where
  entry : ∀ m ∈ setup.entries, .reachable ⟨[], m⟩ ∈ F
  alloc : ∀ {m s v t}, Executes p F m s → s.command = .alloc v t →
    .holds (varIn m.context v) ⟨setup.selector.heapContext m.context, ⟨s.place, t⟩⟩ ∈ F
  copy : ∀ {m s v w}, Executes p F m s → s.command = .copy v w →
    .flow (varIn m.context w) (varIn m.context v) ∈ F
  staticLoad : ∀ {m s v f}, Executes p F m s → s.command = .loadField v (.static f) →
    .flow (.staticField f) (varIn m.context v) ∈ F
  staticStore : ∀ {m s f v}, Executes p F m s → s.command = .storeField (.static f) v →
    .flow (varIn m.context v) (.staticField f) ∈ F
  staticCall : ∀ {m s r c callee}, Executes p F m s → s.command = .invoke r c → c.isStatic →
    staticCallee p.hierarchy c.ref = .ok callee →
    .call ⟨.static, ⟨m.context, ⟨s.place, r, c⟩⟩,
      calleeAt setup.selector ⟨m.context, ⟨s.place, r, c⟩⟩ none callee⟩ ∈ F
  fieldStore : ∀ {c v o s f w}, .holds (varIn c v) o ∈ F → p.Has s →
    s.command = .storeField (.onObject v f) w → .flow (varIn c w) (.instanceField o f) ∈ F
  fieldLoad : ∀ {c v o s f w}, .holds (varIn c v) o ∈ F → p.Has s →
    s.command = .loadField w (.onObject v f) → .flow (.instanceField o f) (varIn c w) ∈ F
  elementStore : ∀ {c v o s i w}, .holds (varIn c v) o ∈ F → p.Has s →
    s.command = .storeElement v i w → .flow (varIn c w) (.arrayIndex o) ∈ F
  elementLoad : ∀ {c v o s i w}, .holds (varIn c v) o ∈ F → p.Has s →
    s.command = .loadElement w v i → .flow (.arrayIndex o) (varIn c w) ∈ F
  /-- A call on an object has its edge. -/
  instanceCall : ∀ {x v o s r c callee}, .holds (varIn x v) o ∈ F → p.Has s →
    s.command = .invoke r c → c.base? = some v → instanceCallee p.hierarchy c o = .ok callee →
    .call ⟨c.kind, ⟨x, ⟨s.place, r, c⟩⟩,
      calleeAt setup.selector ⟨x, ⟨s.place, r, c⟩⟩ (some o) callee⟩ ∈ F
  /-- The object that a call arrives at reaches the receiver of the callee. -/
  receiver : ∀ {x v o s r c callee b}, .holds (varIn x v) o ∈ F → p.Has s →
    s.command = .invoke r c → c.base? = some v → instanceCallee p.hierarchy c o = .ok callee →
    p.body? callee = some b →
    .holds (.var (calleeAt setup.selector ⟨x, ⟨s.place, r, c⟩⟩ (some o) callee).context
      b.receiver) o ∈ F
  callee : ∀ {e b}, .call e ∈ F → p.body? e.callee.method = some b → .reachable e.callee ∈ F
  argument : ∀ {e b v w}, .call e ∈ F → p.body? e.callee.method = some b →
    e.site.site.call.args.length = b.params.length → (v, w) ∈ e.site.site.call.args.zip b.params →
    .flow (varIn e.site.context v) (varIn e.callee.context w) ∈ F
  result : ∀ {e b v w}, .call e ∈ F → p.body? e.callee.method = some b →
    e.site.site.call.args.length = b.params.length → e.site.site.result = some w →
    v ∈ b.returnVars → .flow (varIn e.callee.context v) (varIn e.site.context w) ∈ F
  flow : ∀ {s t o}, .flow s t ∈ F → .holds s o ∈ F → .holds t o ∈ F

/-- Closed under all rules: the callee of an edge is also reachable if it has no body. -/
structure Closed (p : Program) (setup : Setup) (F : Set Conclusion) : Prop
    extends BodyClosed p setup F where
  bodiless : ∀ {e}, .call e ∈ F → p.body? e.callee.method = none → .reachable e.callee ∈ F

namespace Closed

variable {p : Program} {setup : Setup} {F : Set Conclusion}

/-- Every callee is reachable, with a body or without. -/
theorem reaches (h : Closed p setup F) {e : CtxEdge} (he : .call e ∈ F) :
    .reachable e.callee ∈ F := by
  cases hb : p.body? e.callee.method with
  | none => exact h.bodiless he hb
  | some b => exact h.callee he hb

end Closed

/-! ## The uses of a variable -/

section Uses
variable {p : Program} {v : Var} {s : Stmt}

theorem has_iff : p.Has s ↔ ∃ b ∈ p.bodies.values, s ∈ b.stmts := by
  simp only [Program.Has, Program.body?, OrderedMap.mem_values_iff]
  constructor
  · rintro ⟨m, b, hb, hs⟩
    exact ⟨b, ⟨m, hb⟩, hs⟩
  · rintro ⟨b, ⟨m, hb⟩, hs⟩
    exact ⟨m, b, hb, hs⟩

theorem mem_accesses : s ∈ accesses p v ↔ p.Has s ∧
    ((∃ f w, s.command = .storeField (.onObject v f) w) ∨
     (∃ f w, s.command = .loadField w (.onObject v f)) ∨
     (∃ i w, s.command = .storeElement v i w) ∨ ∃ i w, s.command = .loadElement w v i) := by
  simp only [accesses, Program.fieldStores, Program.fieldLoads, Program.elementStores,
    Program.elementLoads, Body.fieldStores, Body.fieldLoads, Body.elementStores, Body.elementLoads,
    Body.getD_uses, List.mem_append, List.mem_flatMap, List.mem_filter, has_iff]
  constructor
  · rintro (((⟨b, hb, hs, hc⟩ | ⟨b, hb, hs, hc⟩) | ⟨b, hb, hs, hc⟩) | ⟨b, hb, hs, hc⟩)
    all_goals
      refine ⟨⟨b, hb, hs⟩, ?_⟩
      have hu := of_decide_eq_true hc
      unfold Command.use? at hu
      split at hu <;> simp_all
  · rintro ⟨⟨b, hb, hs⟩, ⟨f, w, h⟩ | ⟨f, w, h⟩ | ⟨i, w, h⟩ | ⟨i, w, h⟩⟩
    · exact .inl (.inl (.inl ⟨b, hb, hs, by simp [h, Command.use?]⟩))
    · exact .inl (.inl (.inr ⟨b, hb, hs, by simp [h, Command.use?]⟩))
    · exact .inl (.inr ⟨b, hb, hs, by simp [h, Command.use?]⟩)
    · exact .inr ⟨b, hb, hs, by simp [h, Command.use?]⟩

/-- A call that was taken from a statement stands for it. -/
theorem stmt_of_invoke {s : Stmt} {r : Option Var} {c : Call} (hc : s.command = .invoke r c) :
    CallSite.stmt ⟨s.place, r, c⟩ = s := by
  cases s
  simp_all [CallSite.stmt]

theorem callSite?_eq_some {s : Stmt} {site : CallSite} :
    s.callSite? = some site ↔ s.place = site.place ∧ s.command = .invoke site.result site.call := by
  unfold Stmt.callSite?
  split
  · rename_i r c h
    simp only [Option.some.injEq, h, Command.invoke.injEq]
    constructor
    · rintro rfl
      exact ⟨rfl, rfl, rfl⟩
    · rintro ⟨h1, h2, h3⟩
      cases site
      simp_all
  · rename_i h
    constructor
    · intro hn
      cases hn
    · rintro ⟨-, hc⟩
      exact absurd hc (h _ _)

theorem mem_calls {site : CallSite} :
    site ∈ p.calls v ↔ p.Has site.stmt ∧ site.call.base? = some v := by
  simp only [Program.calls, Body.calls, Body.getD_uses, List.mem_flatMap, List.mem_filter,
    List.mem_filterMap, decide_eq_true_eq, has_iff]
  constructor
  · rintro ⟨b, hb, s, ⟨hs, hu⟩, hsite⟩
    obtain ⟨hp, hc⟩ := callSite?_eq_some.1 hsite
    have heq : s = site.stmt := by
      rw [← stmt_of_invoke hc, hp]
    rw [hc] at hu
    exact ⟨⟨b, hb, heq ▸ hs⟩, by simpa [Command.use?] using hu⟩
  · rintro ⟨⟨b, hb, hs⟩, hv⟩
    have hu : site.stmt.command.use? = some (.call, v) := by
      simp [CallSite.stmt, Command.use?, hv]
    exact ⟨b, hb, site.stmt, ⟨hs, hu⟩, callSite?_eq_some.2 ⟨rfl, rfl⟩⟩

end Uses

end PointsTo

end ObjectFlow
