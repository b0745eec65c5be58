import ObjectFlow.Proofs.Records
/-!
# Telling fewer contexts apart

Suppose the contexts of one selector can be mapped to those of another so that
every choice of the first becomes the choice of the second. Whatever the second
concludes about mapped contexts is then closed under the rules of the first. So
the first selector finds no more than the second, and meets no fault that the
second did not meet.

Forgetting all contexts is such a map into the insensitive selector, forgetting
the oldest element one from length `k + 1` to length `k`, and putting the class
that makes an object in place of the object one from objects to types.
-/

namespace ObjectFlow

/-! ## Latest elements -/

namespace Context

variable {ε : Type}

theorem latest_latest {m n : Nat} (h : m ≤ n) (c : Context ε) :
    latest m (latest n c) = latest m c := by
  simp only [latest, List.length_drop, List.drop_drop, Int.toNat_natCast]
  congr 1
  omega

theorem latest_append (n : Nat) (c : Context ε) (e : ε) :
    latest (n + 1 : Nat) (c ++ [e]) = latest n c ++ [e] := by
  simp only [latest, List.length_append, List.length_singleton, Int.toNat_natCast]
  have hlen : c.length + 1 - (n + 1) ≤ c.length := by omega
  rw [List.drop_append_of_le_length hlen]
  congr 2
  omega

/-- The latest elements after one has come are made from those before it came. -/
theorem latest_append_latest {m n : Nat} (h : n ≤ m) (c : Context ε) (e : ε) :
    latest (n + 1 : Nat) (append (n + 2 : Nat) c e) = append (n + 1 : Nat) (latest m c) e := by
  rw [append, append, latest_latest (by omega), latest_append, latest_append, latest_latest h]

theorem map_latest {ε' : Type} (f : ε → ε') (limit : Int) (c : Context ε) :
    (latest limit c).map f = latest limit (c.map f) := by
  simp only [latest, List.map_drop, List.length_map]

theorem map_append {ε' : Type} (f : ε → ε') (limit : Int) (c : Context ε) (e : ε) :
    (append limit c e).map f = append limit (c.map f) (f e) := by
  rw [append, append, map_latest, List.map_append, List.map_singleton]

end Context

namespace PointsTo

/-! ## Mapped contexts -/

def CtxObject.mapContext (ψ : Ctx → Ctx) (o : CtxObject) : CtxObject := ⟨ψ o.context, o.site⟩

def CtxMethod.mapContext (φ : Ctx → Ctx) (m : CtxMethod) : CtxMethod := ⟨φ m.context, m.method⟩

def CtxCallSite.mapContext (φ : Ctx → Ctx) (s : CtxCallSite) : CtxCallSite := ⟨φ s.context, s.site⟩

/-- A pointer with the contexts of its variable mapped by `φ`, those of its object by `ψ`. -/
def Pointer.mapContext (φ ψ : Ctx → Ctx) : Pointer → Pointer
  | .var c v => .var (φ c) v
  | .staticField f => .staticField f
  | .instanceField b f => .instanceField (b.mapContext ψ) f
  | .arrayIndex a => .arrayIndex (a.mapContext ψ)

def Conclusion.mapContext (φ ψ : Ctx → Ctx) : Conclusion → Conclusion
  | .reachable m => .reachable (m.mapContext φ)
  | .call e => .call ⟨e.kind, e.site.mapContext φ, e.callee.mapContext φ⟩
  | .flow s t => .flow (s.mapContext φ ψ) (t.mapContext φ ψ)
  | .holds q o => .holds (q.mapContext φ ψ) (o.mapContext ψ)

/-- Mapping contexts turns every choice of `s` into the choice of `t`: `φ` maps the contexts of
methods, `ψ` those of objects. -/
structure Coarsens (φ ψ : Ctx → Ctx) (s t : Selector) : Prop where
  entry : φ [] = []
  heap : ∀ c : Ctx, ψ (s.heapContext c) = t.heapContext (φ c)
  callee : ∀ (site : CtxCallSite) (o : Option CtxObject) (callee : Method),
    (calleeAt s site o callee).mapContext φ =
      calleeAt t (site.mapContext φ) (o.map (CtxObject.mapContext ψ)) callee

section
variable {p : Program} {φ ψ : Ctx → Ctx} {E : List Method} {s t : Selector} {F : Set Conclusion}

/-- The conclusions whose image is among those of `F`. -/
def preimage (φ ψ : Ctx → Ctx) (F : Set Conclusion) : Set Conclusion :=
  {x | x.mapContext φ ψ ∈ F}

theorem Executes.mapContext {m : CtxMethod} {s : Stmt} (h : Executes p (preimage φ ψ F) m s) :
    Executes p F (m.mapContext φ) s := h

/-- A call edge to a callee in its context has the mapped edge as its image. -/
theorem Coarsens.call_mem (hc : Coarsens φ ψ s t) {k : CallKind} {site : CtxCallSite}
    {o : Option CtxObject} {callee : Method}
    (h : .call ⟨k, site.mapContext φ, calleeAt t (site.mapContext φ)
      (o.map (CtxObject.mapContext ψ)) callee⟩ ∈ F) :
    .call ⟨k, site, calleeAt s site o callee⟩ ∈ preimage φ ψ F := by
  rw [← hc.callee] at h
  exact h

theorem Closed.preimage {n m : Nat} (hc : Coarsens φ ψ s t) (hF : Closed p ⟨E, t, m⟩ F) :
    Closed p ⟨E, s, n⟩ (preimage φ ψ F) where
  entry m hm := by
    have hin := hF.entry m hm
    rw [← hc.entry] at hin
    exact hin
  alloc hs ha := by
    have hin := hF.alloc hs.mapContext ha
    rw [CtxMethod.mapContext, ← hc.heap] at hin
    exact hin
  copy hs ha := hF.copy hs.mapContext ha
  staticLoad hs ha := hF.staticLoad hs.mapContext ha
  staticStore hs ha := hF.staticStore hs.mapContext ha
  staticCall hs ha hst hcallee := hc.call_mem (hF.staticCall hs.mapContext ha hst hcallee)
  fieldStore ho hs ha := hF.fieldStore ho hs ha
  fieldLoad ho hs ha := hF.fieldLoad ho hs ha
  elementStore ho hs ha := hF.elementStore ho hs ha
  elementLoad ho hs ha := hF.elementLoad ho hs ha
  instanceCall ho hs ha hv hcallee := hc.call_mem (hF.instanceCall ho hs ha hv hcallee)
  receiver {x v o stmt r c callee b} ho hs ha hv hcallee hb := by
    have hin := hF.receiver ho hs ha hv hcallee hb
    have hctx : φ (calleeAt s ⟨x, ⟨stmt.place, r, c⟩⟩ (some o) callee).context =
        (calleeAt t ⟨φ x, ⟨stmt.place, r, c⟩⟩ (some (o.mapContext ψ)) callee).context :=
      congrArg CtxMethod.context (hc.callee ⟨x, ⟨stmt.place, r, c⟩⟩ (some o) callee)
    rw [← hctx] at hin
    exact hin
  callee he hb := hF.callee he hb
  argument he hb hl hz := hF.argument he hb hl hz
  result he hb hl hw hv := hF.result he hb hl hw hv
  flow he ho := hF.flow he ho
  bodiless he hb := hF.bodiless he hb

/-- No fault depends on a context. -/
theorem Faultless.preimage (hx : Faultless p F) : Faultless p (preimage φ ψ F) where
  known hs := hx.known hs.mapContext
  static hs := hx.static hs.mapContext
  receiver ho := hx.receiver ho
  onObject {x _ o _ _ _} ho hs hc hv :=
    hx.onObject (x := φ x) (o := o.mapContext ψ) ho hs hc hv
  arity {e _} he hb :=
    hx.arity (e := ⟨e.kind, e.site.mapContext φ, e.callee.mapContext φ⟩) he hb

end

/-! ## Where no task can fail -/

/-- The analysis returns with a state, whatever fuel it has beyond some amount. -/
def Yields (p : Program) (setup : Setup) (st : State) : Prop :=
  ∃ n, ∀ fuel, n ≤ fuel → analyze fuel p setup .empty = (.ok (), st)

section
variable {p : Program} {setup : Setup} {F : Set Conclusion} {st : State}

theorem rounds_of_faultless (hlim : setup.roundLimit = 0) (hF : Closed p setup F)
    (hx : Faultless p F) (fuel n : Nat) (h : Within F st) :
    (rounds fuel p setup n st).1 = .ok () ∨ (rounds fuel p setup n st).1 = .error .outOfFuel := by
  induction n generalizing st with
  | zero => exact .inr rfl
  | succ n ih =>
    cases hp : st.pending.poll? with
    | none =>
      left
      simp [rounds, step, hp]
    | some x =>
      obtain ⟨⟨q, objs⟩, rest⟩ := x
      have hs := propagate_sound hF h (Pending.take?_of_poll? hp)
      have hw := settle_within fuel hF hs
      have hr := settle_of_faultless fuel hF hx hs
      simp only [State.taken] at hw hr
      simp only [rounds, step, hp, round, hlim, ne_eq, not_true_eq_false, false_and, if_false]
      generalize settle p setup.selector fuel _ _ = r at hw hr ⊢
      obtain ⟨r, st'⟩ := r
      rcases hr with rfl | rfl
      · exact ih hw
      · exact .inr rfl

/-- An analysis without a bound on its rounds returns if it stays where no task can fail. -/
theorem yields_of_faultless (hlim : setup.roundLimit = 0) (hF : Closed p setup F)
    (hx : Faultless p F) : ∃ st, Yields p setup st := by
  obtain ⟨n, ⟨r, st⟩, hr, hn⟩ := analyze_ends p setup
  have hrun : (analyze n p setup .empty).1 = .ok () ∨
      (analyze n p setup .empty).1 = .error .outOfFuel := by
    have hs := settle_of_faultless n hF hx (initial_sound hF)
    have hw := start_within n hF
    have hstarted : State.empty.started = false := rfl
    simp only [analyze, start, hstarted, Bool.false_eq_true, if_false] at hw ⊢
    generalize settle p setup.selector n _ _ = r at hs hw ⊢
    obtain ⟨r, st'⟩ := r
    rcases hs with rfl | rfl
    · exact rounds_of_faultless hlim hF hx n n hw
    · exact .inr rfl
  have hend : analyze n p setup .empty = (r, st) := hn n (Nat.le_refl n)
  rw [hend] at hrun
  obtain rfl : r = .ok () := hrun.resolve_right hr
  exact ⟨st, n, hn⟩

/-- What is found by a selector, with its contexts mapped, is found by the coarser selector, which
in turn returns only if the finer one does. -/
theorem yields_of_coarsens {φ ψ : Ctx → Ctx} {E : List Method} {s t : Selector} {fuel : Nat}
    (hc : Coarsens φ ψ s t) (h : analyze fuel p ⟨E, t, 0⟩ .empty = (.ok (), st)) :
    ∃ st', Yields p ⟨E, s, 0⟩ st' ∧
      ∀ x ∈ st'.conclusions, x.mapContext φ ψ ∈ st.conclusions := by
  obtain ⟨st₀, hs, hr, hp⟩ := analyze_eq_ok h
  have howed := (Owed.start hs).reaches hr
  have hF : Closed p ⟨E, s, 0⟩ (preimage φ ψ st.conclusions) := (howed.closed hp).preimage hc
  obtain ⟨st', n, hn⟩ := yields_of_faultless rfl hF howed.faultless.preimage
  obtain ⟨st₁, hs', hr', hp'⟩ := analyze_eq_ok (hn n (Nat.le_refl n))
  exact ⟨st', ⟨n, hn⟩, (least_of_reaches hs' hr' hp').2 hF⟩

end

/-! ## Merged findings -/

/-- Merged over all contexts, `r` found no more than `r'`, starting from the same entries. -/
structure Findings.Refines (r r' : Findings) : Prop where
  vars : ∀ v, r.variableSites v ⊆ r'.variableSites v
  staticFields : ∀ f, r.staticFieldSites f ⊆ r'.staticFieldSites f
  fields : ∀ b f, r.fieldSites b f ⊆ r'.fieldSites b f
  elements : ∀ b, r.elementSites b ⊆ r'.elementSites b
  entries : ∀ m, m ∈ r.callGraph.entries ↔ m ∈ r'.callGraph.entries
  reachable : ∀ m ∈ r.callGraph.reachable, m ∈ r'.callGraph.reachable
  edges : r.callGraph.edges ⊆ r'.callGraph.edges

section
variable {p : Program} {st st' : State} {fuel fuel' : Nat} {φ ψ : Ctx → Ctx} {E : List Method}
  {s t : Selector}

/-- A finding whose mapped contexts are all found elsewhere refines what is found there. -/
theorem refines_of_mapContext (h' : analyze fuel p ⟨E, s, 0⟩ .empty = (.ok (), st'))
    (h : analyze fuel' p ⟨E, t, 0⟩ .empty = (.ok (), st))
    (hsub : ∀ x ∈ st'.conclusions, x.mapContext φ ψ ∈ st.conclusions) :
    (Findings.ofState st').Refines (Findings.ofState st) where
  vars v x hx := by
    obtain ⟨c, o, ho, hx⟩ := (Findings.mem_variableSites (analyze_recorded h')).1 hx
    have ho' := hsub (.holds (varIn c v) o) ho
    exact (Findings.mem_variableSites (analyze_recorded h)).2 ⟨φ c, o.mapContext ψ, ho', hx⟩
  staticFields f x hx := by
    obtain ⟨o, ho, hx⟩ := (Findings.mem_staticFieldSites (analyze_recorded h')).1 hx
    have ho' := hsub (.holds (.staticField f) o) ho
    exact (Findings.mem_staticFieldSites (analyze_recorded h)).2 ⟨o.mapContext ψ, ho', hx⟩
  fields b f x hx := by
    obtain ⟨c, o, ho, hx⟩ := (Findings.mem_fieldSites (analyze_recorded h')).1 hx
    have ho' := hsub (.holds (.instanceField ⟨c, b⟩ f) o) ho
    exact (Findings.mem_fieldSites (analyze_recorded h)).2 ⟨ψ c, o.mapContext ψ, ho', hx⟩
  elements b x hx := by
    obtain ⟨c, o, ho, hx⟩ := (Findings.mem_elementSites (analyze_recorded h')).1 hx
    have ho' := hsub (.holds (.arrayIndex ⟨c, b⟩) o) ho
    exact (Findings.mem_elementSites (analyze_recorded h)).2 ⟨ψ c, o.mapContext ψ, ho', hx⟩
  entries m := by rw [Findings.callGraph_entries h', Findings.callGraph_entries h]
  reachable m hm := by
    obtain ⟨c, hc⟩ := (Findings.callGraph_reachable h' m).1 hm
    exact (Findings.callGraph_reachable h m).2 ⟨φ c, hsub (.reachable ⟨c, m⟩) hc⟩
  edges e hin := by
    obtain ⟨e', he', rfl⟩ := Findings.mem_callGraph_edges.1 hin
    exact Findings.mem_callGraph_edges.2 ⟨_, hsub (.call e') he', rfl⟩

/-- If the coarser selector returns then so does the finer one, and refines what it found. -/
theorem refines_of_coarsens (hc : Coarsens φ ψ s t)
    (h : analyze fuel p ⟨E, t, 0⟩ .empty = (.ok (), st)) :
    ∃ st', Yields p ⟨E, s, 0⟩ st' ∧ (Findings.ofState st').Refines (Findings.ofState st) := by
  obtain ⟨st', ⟨n, hn⟩, hsub⟩ := yields_of_coarsens hc h
  have hrun := hn n (Nat.le_refl n)
  exact ⟨st', ⟨n, hn⟩, refines_of_mapContext hrun h hsub⟩

end

/-! ## Maps between selectors -/

theorem coarsens_insensitive (s : Selector) :
    Coarsens (fun _ => []) (fun _ => []) s .insensitive where
  entry := rfl
  heap _ := rfl
  callee _ _ _ := rfl

/-- Contexts of length `k + 1` become those of length `k` without their oldest element. -/
theorem coarsens_shorter (f : Sensitivity) (k : Nat) :
    Coarsens (Context.latest (k + 1 : Nat)) (Context.latest k)
      (.limited f (k + 2) (k + 1 : Nat)) (.limited f (k + 1) k) where
  entry := by simp [Context.latest]
  heap _ := rfl
  callee site o callee := by
    cases f with
    | callSite =>
      simp only [calleeAt, CtxMethod.mapContext, CtxCallSite.mapContext, Selector.calleeContext]
      rw [Context.latest_append_latest (Nat.le_succ k)]
    | object =>
      cases o with
      | none => rfl
      | some o =>
        simp only [calleeAt, CtxMethod.mapContext, Selector.calleeContext, Option.map_some,
          receiverObject, CtxObject.mapContext]
        rw [Context.latest_append_latest (Nat.le_refl k)]
    | type =>
      cases o with
      | none => rfl
      | some o =>
        simp only [calleeAt, CtxMethod.mapContext, Selector.calleeContext, Option.map_some,
          receiverObject, CtxObject.mapContext]
        rw [Context.latest_append_latest (Nat.le_refl k)]

/-- The class that makes an object, in place of the object. -/
def ContextElement.maker : ContextElement → ContextElement
  | .object o => .type o.method.owner
  | e => e

/-- Contexts of objects become those of the classes that make them. -/
theorem coarsens_type (k : Nat) (hk : Int) :
    Coarsens (List.map ContextElement.maker) (List.map ContextElement.maker)
      (.limited .object k hk) (.limited .type k hk) where
  entry := rfl
  heap c := Context.map_latest ContextElement.maker hk c
  callee site o callee := by
    cases o with
    | none => rfl
    | some o =>
      simp only [calleeAt, CtxMethod.mapContext, Selector.calleeContext, Option.map_some,
        receiverObject, CtxObject.mapContext]
      rw [Context.map_append]
      rfl

/-! ## What a coarser selector finds -/

/-- No selector loses to the insensitive one: if the insensitive analysis returns then so does the
analysis with any selector, and merged over contexts it finds no more, from the same entries. -/
theorem refines_insensitive (p : Program) (entries : List Method) (s : Selector) (fuel : Nat)
    (st : State) (h : analyze fuel p ⟨entries, .insensitive, 0⟩ .empty = (.ok (), st)) :
    ∃ st', Yields p ⟨entries, s, 0⟩ st' ∧
      (Findings.ofState st').Refines (Findings.ofState st) :=
  refines_of_coarsens (coarsens_insensitive s) h

/-! ### Two boxes that give back what they are handed -/

namespace Boxes

def box : ClassRef := ⟨0, "Box"⟩

def main : Method := ⟨0, box, ⟨"main", [], .void⟩, true, false, false⟩

def same : Method := ⟨1, box, ⟨"same", [.object box], .object box⟩, false, false, false⟩

def hierarchy : Hierarchy :=
  let h := (Hierarchy.empty.addClass "Box" none [] false false).2
  let h := (h.addMethod box main.signature true false false).2
  (h.addMethod box same.signature false false false).2

def a : Var := ⟨0, "a", .object box, main⟩

def b : Var := ⟨1, "b", .object box, main⟩

def x : Var := ⟨2, "x", .object box, main⟩

def y : Var := ⟨3, "y", .object box, main⟩

def this : Var := ⟨0, "this", .object box, same⟩

def given : Var := ⟨1, "given", .object box, same⟩

def body : Body where
  method := main
  receiver := none
  params := []
  vars := [a, b, x, y]
  stmts := [⟨⟨0, 1, main⟩, .alloc a (.object box)⟩, ⟨⟨1, 2, main⟩, .alloc b (.object box)⟩,
    ⟨⟨2, 3, main⟩, .invoke (some x) ⟨.virtual a, same.ref, [a]⟩⟩,
    ⟨⟨3, 4, main⟩, .invoke (some y) ⟨.virtual b, same.ref, [b]⟩⟩,
    ⟨⟨4, 5, main⟩, .ret none⟩]

def sameBody : Body where
  method := same
  receiver := some this
  params := [given]
  vars := [this, given]
  stmts := [⟨⟨0, 1, same⟩, .ret (some given)⟩]

/-- The main method hands each of two boxes to itself. -/
def program : Program := ⟨hierarchy, OrderedMap.ofList [(main, body), (same, sameBody)]⟩

def final (s : Selector) : State := (analyze 40 program ⟨[main], s, 0⟩ .empty).2

theorem analyze_insensitive :
    analyze 40 program ⟨[main], .insensitive, 0⟩ .empty = (.ok (), final .insensitive) := rfl

/-- The insensitive analysis merges the two calls; the boxes stay apart in contexts of objects. -/
theorem refines_insensitive_boxes :
    analyze 40 program ⟨[main], .insensitive, 0⟩ .empty = (.ok (), final .insensitive) ∧
    ((Findings.ofState (final .insensitive)).variableSites x).length = 2 ∧
    ∃ st', Yields program ⟨[main], .limited .object 1 0, 0⟩ st' ∧
      (Findings.ofState st').Refines (Findings.ofState (final .insensitive)) :=
  ⟨analyze_insensitive, by decide,
    refines_insensitive program [main] (.limited .object 1 0) 40 _ analyze_insensitive⟩

end Boxes

/-- Precision grows with the length of contexts and from types to objects, with contexts of objects
one shorter than those of methods: if the coarser analysis returns then so does the finer one, and
merged over contexts it finds no more. -/
theorem refines_longer_and_objects (p : Program) (entries : List Method) (k fuel : Nat)
    (st : State) :
    (∀ f, analyze fuel p ⟨entries, .limited f (k + 1) k, 0⟩ .empty = (.ok (), st) →
      ∃ st', Yields p ⟨entries, .limited f (k + 2) (k + 1 : Nat), 0⟩ st' ∧
        (Findings.ofState st').Refines (Findings.ofState st)) ∧
    (analyze fuel p ⟨entries, .limited .type (k + 1) k, 0⟩ .empty = (.ok (), st) →
      ∃ st', Yields p ⟨entries, .limited .object (k + 1) k, 0⟩ st' ∧
        (Findings.ofState st').Refines (Findings.ofState st)) :=
  ⟨fun f h => refines_of_coarsens (coarsens_shorter f k) h,
    fun h => refines_of_coarsens (coarsens_type (k + 1) k) h⟩

namespace Boxes

theorem analyze_limited (f : Sensitivity) :
    analyze 40 program ⟨[main], .limited f 1 0, 0⟩ .empty = (.ok (), final (.limited f 1 0)) := by
  cases f <;> rfl

theorem refines_longer_and_objects_boxes :
    (∀ f, analyze 40 program ⟨[main], .limited f 1 0, 0⟩ .empty =
      (.ok (), final (.limited f 1 0))) ∧
    (∃ st', Yields program ⟨[main], .limited .callSite 2 1, 0⟩ st' ∧
      (Findings.ofState st').Refines (Findings.ofState (final (.limited .callSite 1 0)))) ∧
    ∃ st', Yields program ⟨[main], .limited .object 1 0, 0⟩ st' ∧
      (Findings.ofState st').Refines (Findings.ofState (final (.limited .type 1 0))) :=
  ⟨analyze_limited,
    (refines_longer_and_objects program [main] 0 40 _).1 .callSite (analyze_limited .callSite),
    (refines_longer_and_objects program [main] 0 40 _).2 (analyze_limited .type)⟩

end Boxes

end PointsTo

end ObjectFlow
