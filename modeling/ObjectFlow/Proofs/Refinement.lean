import ObjectFlow.Proofs.ClassGraph
import ObjectFlow.Proofs.Records
/-!
# The analysis refines the class hierarchy

The analysis looks callees up at the types of objects, the class hierarchy at all
subtypes of the named class. Where every object that a call on an object arrives
at is of a subtype of the class that the call names, what the analysis reaches
and calls is reached and called in the call graph of the class hierarchy. That is
so as long as no method uses a variable of another one: objects bring up the calls
on a variable wherever they stand, even in methods that are never reached.
-/

namespace ObjectFlow

theorem Program.mem_callSites {p : Program} {m : Method} {s : CallSite} :
    s ∈ p.callSites m ↔ ∃ b, p.body? m = some b ∧ s.stmt ∈ b.stmts := by
  have hsite : ∀ b : Body, s ∈ b.callSites ↔ s.stmt ∈ b.stmts := by
    intro b
    simp only [Body.callSites, List.mem_filterMap, PointsTo.callSite?_eq_some]
    constructor
    · rintro ⟨s', hs', hp, hc⟩
      have heq : s' = s.stmt := by
        rw [← PointsTo.stmt_of_invoke hc, hp]
      exact heq ▸ hs'
    · intro hs
      exact ⟨s.stmt, hs, rfl, rfl⟩
  unfold Program.callSites
  cases p.body? m with
  | none => simp
  | some b => simp [hsite]

namespace PointsTo

/-! ## One call -/

section
variable {h : Hierarchy} {site : CallSite} {ms : List Method} {callee : Method} {o : CtxObject}

/-- A static call runs its one target. -/
theorem mem_targets_static (hst : site.call.isStatic)
    (hcallee : staticCallee h site.call.ref = .ok callee) (ht : Cha.targets h site = .ok ms) :
    callee ∈ ms := by
  have hk : site.call.kind = .static := of_decide_eq_true hst
  simp only [Cha.targets, hk] at ht
  unfold staticCallee at hcallee
  cases hr : h.resolve site.call.ref with
  | error c =>
    rw [hr] at hcallee
    cases hcallee
  | ok found =>
    rw [hr] at hcallee ht
    cases found with
    | none => cases hcallee
    | some m =>
      obtain rfl := Except.ok.inj hcallee
      obtain rfl := Except.ok.inj ht
      exact List.mem_singleton.2 rfl

/-- A call on an object that names its callee runs its one target. -/
theorem mem_targets_special (hk : site.call.kind = .special)
    (hcallee : instanceCallee h site.call o = .ok callee) (ht : Cha.targets h site = .ok ms) :
    callee ∈ ms := by
  simp only [Cha.targets, hk] at ht
  simp only [instanceCallee, receiverType, hk] at hcallee
  cases hd : h.dispatch site.call.ref.owner site.call.ref.signature with
  | none =>
    rw [hd] at hcallee
    cases hcallee
  | some m =>
    rw [hd] at hcallee ht
    obtain rfl := Except.ok.inj hcallee
    obtain rfl := Except.ok.inj ht
    exact List.mem_singleton.2 rfl

/-- A call on an object of a subtype runs one of its targets. -/
theorem mem_targets_virtual (hc : h.Consistent) (hw : h.WellFormed)
    (hk : site.call.kind = .virtual ∨ site.call.kind = .interface) {d : ClassRef}
    (hd : o.site.type = .object d) (hi : h.isInterface d = false)
    (hs : h.isSubtype site.call.ref.owner d)
    (hcallee : instanceCallee h site.call o = .ok callee) (ht : Cha.targets h site = .ok ms) :
    callee ∈ ms := by
  have hms : ms = Cha.virtualTargets h site.call.ref := by
    rcases hk with hk | hk <;> simp only [Cha.targets, hk] at ht <;>
      exact (Except.ok.inj ht).symm
  have hdispatch : h.dispatch d site.call.ref.signature = some callee := by
    have htype : receiverType site.call o = .object d := by
      rcases hk with hk | hk <;> simp only [receiverType, hk, hd]
    simp only [instanceCallee, htype] at hcallee
    cases hf : h.dispatch d site.call.ref.signature with
    | none =>
      rw [hf] at hcallee
      cases hcallee
    | some m =>
      rw [hf] at hcallee
      rw [Except.ok.inj hcallee]
  rw [hms]
  exact Cha.mem_virtualTargets.2
    ⟨d, Hierarchy.reachableFrom_of_isSubtype hc hw hs, hi, hdispatch⟩

end

/-! ## All conclusions -/

/-- At every virtual or interface call of a method in `reached`, each site that is found for the
receiver is of a class below the one that the call names. -/
def ReceiversBelow (p : Program) (reached : Method → Prop) (found : Var → AllocSite → Prop) :
    Prop :=
  ∀ m, reached m → ∀ site ∈ p.callSites m, site.call.kind = .virtual ∨
    site.call.kind = .interface → ∀ v, site.call.base? = some v → ∀ a, found v a →
    ∃ c, a.type = .object c ∧ p.hierarchy.isSubtype site.call.ref.owner c

/-- No interface is allocated. -/
def AllocatesClasses (p : Program) : Prop :=
  ∀ a ∈ p.allocs, ∀ c, a.type = .object c → p.hierarchy.isInterface c = false

section
variable {p : Program} {setup : Setup} {st : State} {g : PlainCallGraph}

/-- The graph and the state both reach the method. -/
def Shared (g : PlainCallGraph) (st : State) (m : Method) : Prop :=
  m ∈ g.reachable ∧ ∃ c, ⟨c, m⟩ ∈ st.calls.reachable

/-- The pointer is no variable of a method that is not shared. -/
def Near (g : PlainCallGraph) (st : State) : Pointer → Prop
  | .var _ (some v) => Shared g st v.method
  | _ => True

/-- The conclusions of a state that the graph of the class hierarchy bears out. -/
def borneOut (p : Program) (g : PlainCallGraph) (st : State) : Set Conclusion
  | .reachable m => m ∈ st.calls.reachable ∧ m.method ∈ g.reachable
  | .call e => e ∈ st.calls.edges ∧ p.Has e.site.site.stmt ∧ Shared g st e.site.site.method ∧
      Findings.plainEdge e ∈ g.edges ∧ e.callee.method ∈ g.reachable
  | .flow s t => st.flow.hasEdge s t ∧ Near g st t
  | .holds q o => o ∈ st.objectsOf q ∧ Near g st q ∧
      ∀ c, o.site.type = .object c → p.hierarchy.isInterface c = false

theorem Executes.shared {m : CtxMethod} {s : Stmt} (h : Executes p (borneOut p g st) m s) :
    Executes p st.conclusions m s ∧ Shared g st m.method :=
  ⟨⟨h.1.1, h.2⟩, h.1.2, m.context, h.1.1⟩

/-- What a statement mentions belongs to the method that it stands in. -/
theorem method_of_executes (hown : p.Scoped) {F : Set Conclusion} {m : CtxMethod} {s : Stmt}
    (h : Executes p F m s) : ∀ v ∈ s.command.mentions, v.method = m.method := by
  obtain ⟨-, b, hb, hs⟩ := h
  exact fun v hv => hown.method hb hs hv

/-- A statement that mentions a variable of a shared method stands in that method. -/
theorem shared_of_has (hp : p.Built) (hown : p.Scoped) {s : Stmt} (hs : p.Has s) {v : Var}
    (hv : v ∈ s.command.mentions) (hn : Shared g st v.method) :
    (∃ m b, p.body? m = some b ∧ s ∈ b.stmts ∧ s.place.method = m) ∧
      Shared g st s.place.method ∧ ∀ w ∈ s.command.mentions, Shared g st w.method := by
  obtain ⟨m, b, hb, hin⟩ := hs
  have hplace := hp.placed hb hin
  have hm : Shared g st m := by rwa [hown.method hb hin hv] at hn
  exact ⟨⟨m, b, hb, hin, hplace⟩, hplace ▸ hm, fun w hw => (hown.method hb hin hw) ▸ hm⟩

/-- A target that the graph of the hierarchy has for a call of a method that it reaches. -/
theorem edge_of_target (hg : Cha.Complete p setup.entries g) (site : CallSite) {callee : Method}
    {b : Body} (hb : p.body? site.place.method = some b) (hs : site.stmt ∈ b.stmts)
    (hm : site.place.method ∈ g.reachable)
    (ht : ∀ ms, Cha.targets p.hierarchy site = .ok ms → callee ∈ ms) :
    ⟨site.call.kind, site, callee⟩ ∈ g.edges ∧ callee ∈ g.reachable := by
  obtain ⟨ms, hms, hall⟩ := hg.called _ hm site (Program.mem_callSites.2 ⟨b, hb, hs⟩)
  exact hall callee (ht ms hms)

/-- The receivers that a state found are of classes below those that the calls name. -/
def Below (p : Program) (st : State) : Prop :=
  ReceiversBelow p (fun m => ∃ c, ⟨c, m⟩ ∈ st.calls.reachable)
    fun v a => ∃ c, ∃ o ∈ st.objectsOf (varIn c v), o.site = a

/-- A call on an object that was borne out finds a callee that the graph of the hierarchy has. -/
theorem borneOut_call (hp : p.Built) (hown : p.Scoped) (hw : p.hierarchy.WellFormed)
    (hg : Cha.Complete p setup.entries g) (hbelow : Below p st) {x : Ctx} {v : Var} {o : CtxObject}
    {s : Stmt} {r : Option Var} {c : Call} {callee : Method}
    (ho : .holds (varIn x v) o ∈ borneOut p g st) (hs : p.Has s) (hc : s.command = .invoke r c)
    (hv : c.base? = some v) (hcallee : instanceCallee p.hierarchy c o = .ok callee) :
    Shared g st s.place.method ∧ ⟨c.kind, ⟨s.place, r, c⟩, callee⟩ ∈ g.edges ∧
      callee ∈ g.reachable := by
  obtain ⟨hin, hnear, hclass⟩ := ho
  have hmention : v ∈ s.command.mentions := by simp [hc, Command.mentions, hv]
  obtain ⟨⟨m, b, hb, hsb, hplace⟩, hshared, -⟩ := shared_of_has hp hown hs hmention hnear
  have hstmt := stmt_of_invoke hc
  refine ⟨hshared, ?_⟩
  apply edge_of_target hg ⟨s.place, r, c⟩ (hplace ▸ hb) (hstmt ▸ hsb) hshared.1
  intro ms ht
  have hsite : ⟨s.place, r, c⟩ ∈ p.callSites s.place.method :=
    Program.mem_callSites.2 ⟨b, hplace ▸ hb, hstmt ▸ hsb⟩
  -- the kind of the call says how its targets are found
  cases hk : c.kind with
  | static =>
    simp only [Call.kind, Call.base?] at hk hv
    cases hd : c.dispatch <;> simp [hd, Dispatch.kind, Dispatch.base?] at hk hv
  | special => exact mem_targets_special hk hcallee ht
  | virtual =>
    obtain ⟨d, hd, hsub⟩ := hbelow _ hshared.2 _ hsite (.inl hk) v hv o.site ⟨x, o, hin, rfl⟩
    exact mem_targets_virtual hp.hierarchy.consistent hw (.inl hk) hd (hclass d hd) hsub hcallee ht
  | interface =>
    obtain ⟨d, hd, hsub⟩ := hbelow _ hshared.2 _ hsite (.inr hk) v hv o.site ⟨x, o, hin, rfl⟩
    exact mem_targets_virtual hp.hierarchy.consistent hw (.inr hk) hd (hclass d hd) hsub hcallee ht

theorem closed_borneOut (hp : p.Built) (hown : p.Scoped) (hw : p.hierarchy.WellFormed)
    (ha : AllocatesClasses p) (hg : Cha.Complete p setup.entries g)
    (hC : Closed p setup st.conclusions) (hbelow : Below p st) :
    Closed p setup (borneOut p g st) where
  entry m hm := ⟨hC.entry m hm, hg.entry m hm⟩
  alloc {m s v t} hs hc := by
    obtain ⟨hs', hm⟩ := hs.shared
    have hv := method_of_executes hown hs v (by simp [hc, Command.mentions])
    refine ⟨hC.alloc hs' hc, ?_, ?_⟩
    · simpa only [Near, hv] using hm
    · exact ha _ (Program.alloc_mem_allocs hs.has hc)
  copy {m s v w} hs hc := by
    obtain ⟨hs', hm⟩ := hs.shared
    have hv := method_of_executes hown hs v (by simp [hc, Command.mentions])
    exact ⟨hC.copy hs' hc, by simpa only [Near, hv] using hm⟩
  staticLoad {m s v f} hs hc := by
    obtain ⟨hs', hm⟩ := hs.shared
    have hv := method_of_executes hown hs v (by simp [hc, Command.mentions])
    exact ⟨hC.staticLoad hs' hc, by simpa only [Near, hv] using hm⟩
  staticStore hs hc := ⟨hC.staticStore hs.shared.1 hc, trivial⟩
  staticCall {m s r c callee} hs hc hst hcallee := by
    obtain ⟨hs', hm⟩ := hs.shared
    obtain ⟨-, b, hb, hsb⟩ := hs
    have hplace := hp.placed hb hsb
    have hstmt := stmt_of_invoke hc
    have hkind : c.kind = .static := of_decide_eq_true hst
    have hedge := edge_of_target hg ⟨s.place, r, c⟩ (hplace ▸ hb) (hstmt ▸ hsb)
      (hplace ▸ hm.1) fun ms ht => mem_targets_static hst hcallee ht
    rw [hkind] at hedge
    refine ⟨hC.staticCall hs' hc hst hcallee, ⟨_, b, hb, hstmt ▸ hsb⟩, ?_, hedge⟩
    rw [CallSite.method, hplace]
    exact hm
  fieldStore ho hs hc := ⟨hC.fieldStore ho.1 hs hc, trivial⟩
  fieldLoad {x v o s f w} ho hs hc := by
    obtain ⟨-, -, hall⟩ := shared_of_has hp hown hs
      (by simp [hc, Command.mentions, FieldAccess.mentions]) ho.2.1
    exact ⟨hC.fieldLoad ho.1 hs hc, hall w (by simp [hc, Command.mentions])⟩
  elementStore ho hs hc := ⟨hC.elementStore ho.1 hs hc, trivial⟩
  elementLoad {x v o s i w} ho hs hc := by
    obtain ⟨-, -, hall⟩ := shared_of_has hp hown hs (by simp [hc, Command.mentions]) ho.2.1
    exact ⟨hC.elementLoad ho.1 hs hc, hall w (by simp [hc, Command.mentions])⟩
  instanceCall {x v o s r c callee} ho hs hc hv hcallee := by
    obtain ⟨hm, he, hr⟩ := borneOut_call hp hown hw hg hbelow ho hs hc hv hcallee
    refine ⟨hC.instanceCall ho.1 hs hc hv hcallee, ?_, hm, he, hr⟩
    rw [stmt_of_invoke hc]
    exact hs
  receiver {x v o s r c callee b} ho hs hc hv hcallee hb := by
    obtain ⟨-, -, hr⟩ := borneOut_call hp hown hw hg hbelow ho hs hc hv hcallee
    refine ⟨hC.receiver ho.1 hs hc hv hcallee hb, ?_, ho.2.2⟩
    have hreach := hC.reaches (hC.instanceCall ho.1 hs hc hv hcallee)
    -- the receiver of the callee is a variable of the callee, if there is one
    cases hthis : b.receiver with
    | none => trivial
    | some w =>
      have hwm := (hp.own hb).receiver w hthis
      rw [hp.method hb] at hwm
      simp only [Near, hwm]
      exact ⟨hr, _, hreach⟩
  callee he _ := ⟨hC.reaches he.1, he.2.2.2.2⟩
  argument {e b v w} he hb hl hz := by
    refine ⟨hC.argument he.1 hb hl hz, ?_⟩
    have hwm := (hp.own hb).params w (List.of_mem_zip hz).2
    rw [hp.method hb] at hwm
    simp only [Near, hwm]
    exact ⟨he.2.2.2.2, _, hC.reaches he.1⟩
  result {e b v w} he hb hl hw' hv := by
    obtain ⟨hin, hhas, hm, -, -⟩ := he
    refine ⟨hC.result hin hb hl hw' hv, ?_⟩
    obtain ⟨m, b', hb', hsb⟩ := hhas
    have hwm := hown.method hb' hsb (v := w) (by simp [CallSite.stmt, Command.mentions, hw'])
    have hplace := hp.placed hb' hsb
    simp only [Near, hwm, ← hplace]
    exact hm
  flow he ho := ⟨hC.flow he.1 ho.1, he.2, ho.2.2⟩
  bodiless he _ := ⟨hC.reaches he.1, he.2.2.2.2⟩

/-- What the analysis reaches and calls, in a program that can be built, is reached and called in
the call graph of the class hierarchy, provided that the hierarchy is well formed, no method uses a
variable of another one, no interface is allocated and the receivers that were found are of subtypes
of the classes that the calls name. -/
theorem callGraph_refines_hierarchy {fuel : Nat} (hp : p.Built) (hown : p.Scoped)
    (hw : p.hierarchy.WellFormed) (ha : AllocatesClasses p)
    (hg : Cha.build p setup.entries = .ok g)
    (h : analyze fuel p setup .empty = (.ok (), st))
    (hbelow : ReceiversBelow p (fun m => m ∈ (Findings.ofState st).callGraph.reachable)
      fun v a => a ∈ (Findings.ofState st).variableSites v) :
    (∀ m ∈ (Findings.ofState st).callGraph.reachable, m ∈ g.reachable) ∧
      (Findings.ofState st).callGraph.edges ⊆ g.edges := by
  obtain ⟨st₀, hs, hr, hpoll⟩ := analyze_eq_ok h
  have hleast := least_of_reaches hs hr hpoll
  have hcomplete := Cha.build_complete hp.hierarchy.numbered hg
  have hbelow' : Below p st := by
    intro m hm site hsite hk v hv a hfound
    refine hbelow m ?_ site hsite hk v hv a ?_
    · exact (Findings.callGraph_reachable h m).2 hm
    · exact (Findings.mem_variableSites (analyze_recorded h)).2 hfound
  have hsub := hleast.2 (closed_borneOut hp hown hw ha hcomplete hleast.1 hbelow')
  constructor
  · intro m hm
    obtain ⟨c, hc⟩ := (Findings.callGraph_reachable h m).1 hm
    exact (hsub (a := .reachable ⟨c, m⟩) hc).2
  · intro e he
    obtain ⟨e', he', rfl⟩ := Findings.mem_callGraph_edges.1 he
    exact (hsub (a := .call e') he').2.2.2.1

end

/-! ### A shape that is drawn -/

namespace Shapes

def shape : ClassRef := ⟨0, "Shape"⟩

def circle : ClassRef := ⟨1, "Circle"⟩

def square : ClassRef := ⟨2, "Square"⟩

def drawing : Signature := ⟨"draw", [], .void⟩

def main : Method := ⟨0, shape, ⟨"main", [], .void⟩, true, false, false⟩

def drawSquare : Method := ⟨2, square, drawing, false, false, true⟩

def classes : Hierarchy :=
  let h := (Hierarchy.empty.addClass "Shape" none [] false true).2
  let h := (h.addClass "Circle" (some shape) [] false false).2
  (h.addClass "Square" (some shape) [] false false).2

def hierarchy : Hierarchy :=
  let h := (classes.addMethod shape main.signature true false false).2
  let h := (h.addMethod circle drawing false false true).2
  (h.addMethod square drawing false false true).2

def s : Var := ⟨0, "s", .object shape, main⟩

def site : CallSite := ⟨⟨1, 2, main⟩, none, ⟨.virtual s, ⟨shape, drawing⟩, []⟩⟩

def draft : Draft :=
  ⟨main, none, [], [s], [.alloc s (.object circle), .invoke none site.call], ∅, false⟩

def body : Body where
  method := main
  receiver := none
  params := []
  vars := [s]
  stmts := [⟨⟨0, 1, main⟩, .alloc s (.object circle)⟩, site.stmt, ⟨⟨2, 3, main⟩, .ret none⟩]

/-- The main method makes a circle and draws it as a shape. -/
def program : Program := ⟨hierarchy, OrderedMap.ofList [(main, body)]⟩

def setup : Setup := ⟨[main], .limited .object 1 0, 0⟩

def final : State := (analyze 10 program setup .empty).2

def graph : PlainCallGraph := ((Cha.build program [main]).toOption).getD .empty

theorem classes_built : classes.Built := by
  have none : ∀ (h : Hierarchy), ∀ c ∈ ([] : List ClassRef), h.Made c := fun h c hc =>
    absurd hc List.not_mem_nil
  have hshape : (Hierarchy.empty.addClass "Shape" .none [] false true).2.Built :=
    Hierarchy.Built.empty.addRoot
  have hcircle : ((Hierarchy.empty.addClass "Shape" .none [] false true).2.addClass "Circle"
      (some shape) [] false false).2.Built := by
    apply hshape.addClass
    · intro c hc
      obtain rfl := Option.some.inj hc
      exact ⟨_, rfl, rfl⟩
    · exact none _
  apply hcircle.addClass
  · intro c hc
    obtain rfl := Option.some.inj hc
    exact ⟨_, rfl, rfl⟩
  · exact none _

theorem hierarchy_built : hierarchy.Built := by
  have hmain : (classes.addMethod shape main.signature true false false).2.Built :=
    classes_built.addMethod ⟨_, rfl, rfl⟩
  have hcircle : ((classes.addMethod shape main.signature true false false).2.addMethod circle
      drawing false false true).2.Built := hmain.addMethod ⟨_, rfl, rfl⟩
  exact hcircle.addMethod ⟨_, rfl, rfl⟩

theorem draft_built : draft.Built := by
  have hstart : Draft.Built ⟨main, none, [], [], [], ∅, false⟩ :=
    .start (show Draft.start main none = .ok _ from rfl)
  have hvar : Draft.Built ⟨main, none, [], [s], [], ∅, false⟩ := hstart.addVar
  exact hvar.appendAll rfl

theorem body_of_program {m : Method} {b : Body} (hb : program.body? m = some b) :
    m = main ∧ b = body :=
  Prod.mk.inj (List.mem_singleton.1 (OrderedMap.mem_entries_iff.2 hb))

theorem program_built : program.Built where
  hierarchy := hierarchy_built
  body hb := by
    obtain ⟨-, rfl⟩ := body_of_program hb
    exact .finish draft_built rfl
  method hb := by
    obtain ⟨rfl, rfl⟩ := body_of_program hb
    rfl

theorem mem_nodes {c : ClassRef} (hc : c ∈ program.hierarchy.nodes) :
    c = shape ∨ c = circle ∨ c = square := by
  have hlist : c ∈ [shape, circle, square] := hc
  simpa using hlist

theorem wellFormed : program.hierarchy.WellFormed where
  superclass c hc up hs := by
    rcases mem_nodes hc with rfl | rfl | rfl
    · cases hs
    · obtain rfl := Option.some.inj hs
      rfl
    · obtain rfl := Option.some.inj hs
      rfl
  interface c hc hi := by
    rcases mem_nodes hc with rfl | rfl | rfl <;> cases hi

theorem allocatesClasses : AllocatesClasses program := by
  intro a ha c hc
  obtain rfl := List.mem_singleton.1 (show a ∈ [(⟨⟨0, 1, main⟩, .object circle⟩ : AllocSite)] from ha)
  obtain rfl := Ty.object.inj hc
  rfl

theorem receiversBelow : ReceiversBelow program
    (fun m => m ∈ (Findings.ofState final).callGraph.reachable)
    fun v a => a ∈ (Findings.ofState final).variableSites v := by
  intro m _ x hx _ v hv a ha
  -- there is one call, and one site was found for its receiver
  obtain ⟨b, hb, hs⟩ := Program.mem_callSites.1 hx
  obtain ⟨-, rfl⟩ := body_of_program hb
  have hx : x ∈ body.callSites := List.mem_filterMap.2 ⟨_, hs, callSite?_eq_some.2 ⟨rfl, rfl⟩⟩
  obtain rfl : x = site := List.mem_singleton.1 hx
  obtain rfl : s = v := Option.some.inj hv
  have ha : a ∈ [(⟨⟨0, 1, main⟩, .object circle⟩ : AllocSite)] := ha
  obtain rfl := List.mem_singleton.1 ha
  exact ⟨circle, rfl, by decide⟩

/-- The class hierarchy also calls the square's method. -/
theorem callGraph_refines_hierarchy_shapes :
    (program.Built ∧ program.Scoped ∧ program.hierarchy.WellFormed ∧ AllocatesClasses program) ∧
    Cha.build program setup.entries = .ok graph ∧
    analyze 10 program setup .empty = (.ok (), final) ∧
    ⟨.virtual, site, drawSquare⟩ ∈ graph.edges ∧
    (∀ m ∈ (Findings.ofState final).callGraph.reachable, m ∈ graph.reachable) ∧
    (Findings.ofState final).callGraph.edges ⊆ graph.edges :=
  ⟨⟨program_built, by decide, wellFormed, allocatesClasses⟩, rfl, rfl, by decide,
    callGraph_refines_hierarchy program_built (by decide) wellFormed allocatesClasses rfl
      (show analyze 10 program setup .empty = (.ok (), final) from rfl) receiversBelow⟩

end Shapes

/-! ### A variable of another method -/

namespace Borrowed

def owner : ClassRef := ⟨0, "A"⟩

def main : Method := ⟨0, owner, ⟨"main", [], .void⟩, true, false, false⟩

def other : Method := ⟨1, owner, ⟨"other", [], .void⟩, true, false, false⟩

def tool : Method := ⟨2, owner, ⟨"tool", [], .void⟩, false, false, true⟩

def hierarchy : Hierarchy :=
  let h := (Hierarchy.empty.addClass "A" none [] false false).2
  let h := (h.addMethod owner main.signature true false false).2
  let h := (h.addMethod owner other.signature true false false).2
  (h.addMethod owner tool.signature false false true).2

def x : Var := ⟨0, "x", .object owner, main⟩

def site : CallSite := ⟨⟨0, 1, other⟩, none, ⟨.virtual x, tool.ref, []⟩⟩

def mainDraft : Draft := ⟨main, none, [], [x], [.alloc x (.object owner)], ∅, false⟩

def otherDraft : Draft := ⟨other, none, [], [], [.invoke none site.call], ∅, false⟩

def mainBody : Body :=
  ⟨main, none, [], [x], [⟨⟨0, 1, main⟩, .alloc x (.object owner)⟩, ⟨⟨1, 2, main⟩, .ret none⟩]⟩

def otherBody : Body := ⟨other, none, [], [], [site.stmt, ⟨⟨1, 2, other⟩, .ret none⟩]⟩

/-- The main method makes an object. A method that nobody calls has a call on the variable where
the main method keeps it. -/
def program : Program := ⟨hierarchy, OrderedMap.ofList [(main, mainBody), (other, otherBody)]⟩

def setup : Setup := ⟨[main], .limited .callSite 1 0, 0⟩

def final : State := (analyze 10 program setup .empty).2

def graph : PlainCallGraph := ((Cha.build program [main]).toOption).getD .empty

theorem hierarchy_built : hierarchy.Built := by
  have hmain : ((Hierarchy.empty.addClass "A" none [] false false).2.addMethod owner
      main.signature true false false).2.Built :=
    Hierarchy.Built.empty.addRoot.addMethod ⟨_, rfl, rfl⟩
  have hother : (((Hierarchy.empty.addClass "A" none [] false false).2.addMethod owner
      main.signature true false false).2.addMethod owner other.signature true false false).2.Built :=
    hmain.addMethod ⟨_, rfl, rfl⟩
  exact hother.addMethod ⟨_, rfl, rfl⟩

theorem mainDraft_built : mainDraft.Built := by
  have hstart : Draft.Built ⟨main, none, [], [], [], ∅, false⟩ :=
    .start (show Draft.start main none = .ok _ from rfl)
  have hx : Draft.Built ⟨main, none, [], [x], [], ∅, false⟩ := hstart.addVar
  exact hx.appendAll rfl

/-- Writing does not ask where a variable is from. -/
theorem otherDraft_built : otherDraft.Built := by
  have hstart : Draft.Built ⟨other, none, [], [], [], ∅, false⟩ :=
    .start (show Draft.start other none = .ok _ from rfl)
  exact hstart.appendAll rfl

theorem body_of_program {m : Method} {b : Body} (hb : program.body? m = some b) :
    (m = main ∧ b = mainBody) ∨ (m = other ∧ b = otherBody) := by
  have hin : (m, b) ∈ [(main, mainBody), (other, otherBody)] := OrderedMap.mem_entries_iff.2 hb
  simpa using hin

theorem program_built : program.Built where
  hierarchy := hierarchy_built
  body hb := by
    rcases body_of_program hb with ⟨-, rfl⟩ | ⟨-, rfl⟩
    · exact .finish mainDraft_built rfl
    · exact .finish otherDraft_built rfl
  method hb := by
    rcases body_of_program hb with ⟨rfl, rfl⟩ | ⟨rfl, rfl⟩ <;> rfl

theorem wellFormed : program.hierarchy.WellFormed := by
  have hnode : ∀ c ∈ program.hierarchy.nodes, c = owner := fun c hc =>
    List.mem_singleton.1 (show c ∈ [owner] from hc)
  refine ⟨fun c hc up hs => ?_, fun c hc hi => ?_⟩
  · obtain rfl := hnode c hc
    cases hs
  · obtain rfl := hnode c hc
    cases hi

theorem allocatesClasses : AllocatesClasses program := by
  intro a ha c hc
  obtain rfl := List.mem_singleton.1 (show a ∈ [(⟨⟨0, 1, main⟩, .object owner⟩ : AllocSite)] from ha)
  obtain rfl := Ty.object.inj hc
  rfl

/-- The methods that are reached have no calls in their bodies. -/
theorem receiversBelow : ReceiversBelow program
    (fun m => m ∈ (Findings.ofState final).callGraph.reachable)
    fun v a => a ∈ (Findings.ofState final).variableSites v := by
  intro m hm site hs
  have hm : m ∈ [main, tool] := hm
  rcases List.mem_pair.1 hm with rfl | rfl <;> cases hs

/-- The object brings up the call on its variable, which stands in a method that the class hierarchy
does not reach. -/
theorem not_refined_of_borrowed : ¬ ∀ (p : Program) (setup : Setup) (fuel : Nat) (st : State)
    (g : PlainCallGraph), p.Built → p.hierarchy.WellFormed → AllocatesClasses p →
    Cha.build p setup.entries = .ok g → analyze fuel p setup .empty = (.ok (), st) →
    ReceiversBelow p (fun m => m ∈ (Findings.ofState st).callGraph.reachable)
      (fun v a => a ∈ (Findings.ofState st).variableSites v) →
    (∀ m ∈ (Findings.ofState st).callGraph.reachable, m ∈ g.reachable) ∧
      (Findings.ofState st).callGraph.edges ⊆ g.edges := by
  intro h
  obtain ⟨hreach, -⟩ := h program setup 10 final graph program_built wellFormed allocatesClasses rfl
    rfl receiversBelow
  have htool : tool ∈ graph.reachable := hreach tool (by decide)
  exact absurd htool (by decide)

end Borrowed

end PointsTo

end ObjectFlow
