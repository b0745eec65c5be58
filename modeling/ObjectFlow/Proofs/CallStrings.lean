import ObjectFlow.Proofs.Chains
import ObjectFlow.Proofs.Coarsening
import ObjectFlow.Proofs.Handles
/-!
# Short contexts

In every state that an analysis can come to, the selector has kept all contexts
short and can have handed them out, one handle for each. Where it tells call sites
apart, every chain of calls from an entry ends at a reachable method, in the context
that is made of its latest call sites, and as long as no method uses a variable of
another one, nothing else is reachable.
-/

namespace ObjectFlow

/-- What was dropped before an element came would be dropped after it. -/
theorem Context.append_of_latest {ε : Type} (k : Nat) (c : Context ε) (e : ε) :
    Context.append k (Context.latest k c) e = Context.latest k (c ++ [e]) := by
  cases k with
  | zero => simp [append, latest]
  | succ k => rw [append, latest_append, latest_append, latest_latest (Nat.le_succ k)]

namespace PointsTo

/-! ## Where contexts come from -/

/-- The pointer is no variable of a context that cannot be obtained. -/
def Pointer.Obtained (s : Selector) : Pointer → Prop
  | .var c _ => ContextTable.Obtained s c
  | _ => True

/-- The conclusions about contexts that a selector can be brought to hand out. -/
def obtained (s : Selector) : Set Conclusion
  | .reachable m => ContextTable.Obtained s m.context
  | .call e => ContextTable.Obtained s e.site.context ∧ ContextTable.Obtained s e.callee.context
  | .flow _ q => q.Obtained s
  | .holds q o => q.Obtained s ∧ ContextTable.Obtained s o.context

/-- The conclusions where call edges lead to the context of their call site with the site added. -/
def appended (k : Nat) : Set Conclusion
  | .call e => e.callee.context = Context.append k e.site.context (.callSite e.site.site)
  | _ => True

section
variable {p : Program} {setup : Setup} {st : State} {k : Nat} {hk : Int}

theorem closed_obtained (p : Program) (setup : Setup) : Closed p setup (obtained setup.selector) where
  entry _ _ := .empty
  alloc hs _ := ⟨hs.1, .heap hs.1⟩
  copy hs _ := hs.1
  staticLoad hs _ := hs.1
  staticStore _ _ := trivial
  staticCall hs _ _ _ := ⟨hs.1, .callee hs.1 _ none fun _ ho => by cases ho⟩
  fieldStore _ _ _ := trivial
  fieldLoad ho _ _ := ho.1
  elementStore _ _ _ := trivial
  elementLoad ho _ _ := ho.1
  instanceCall ho _ _ _ _ := ⟨ho.1, .callee ho.1 _ (some _) fun _ hr => Option.some.inj hr ▸ ho.2⟩
  receiver ho _ _ _ _ _ :=
    ⟨.callee ho.1 _ (some _) fun _ hr => Option.some.inj hr ▸ ho.2, ho.2⟩
  callee he _ := he.2
  argument he _ _ _ := he.2
  result he _ _ _ _ := he.1
  flow he ho := ⟨he, ho.2⟩
  bodiless he _ := he.2

theorem closed_appended (hs : setup.selector = .limited .callSite k hk) :
    Closed p setup (appended k) where
  entry _ _ := trivial
  alloc _ _ := trivial
  copy _ _ := trivial
  staticLoad _ _ := trivial
  staticStore _ _ := trivial
  staticCall _ _ _ _ := by rw [hs]; exact rfl
  fieldStore _ _ _ := trivial
  fieldLoad _ _ _ := trivial
  elementStore _ _ _ := trivial
  elementLoad _ _ _ := trivial
  instanceCall _ _ _ _ _ := by rw [hs]; exact rfl
  receiver _ _ _ _ _ _ := trivial
  callee _ _ := trivial
  argument _ _ _ _ := trivial
  result _ _ _ _ _ := trivial
  flow _ _ := trivial
  bodiless _ _ := trivial

/-! ## Lengths -/

/-- Methods, call sites and variables stand in contexts of at most `k` elements, objects in contexts
of at most the smaller of `k` and `hk`, where a bound below zero is none left. Objects that are held,
wait or have fields are numbered ones. -/
structure Limited (s : Selector) (st : State) : Prop where
  reachable : ∀ m ∈ st.calls.reachable, m.context.length ≤ s.k
  method : ∀ m ∈ st.elements.methods.keys, m.context.length ≤ s.k
  callSite : ∀ x ∈ st.elements.callSites.keys, x.context.length ≤ s.k
  var : ∀ x ∈ st.elements.vars.keys, x.1.length ≤ s.k
  object : ∀ o ∈ st.elements.objects.keys, o.context.length ≤ min s.k s.hk.toNat
  due : ∀ q o, st.Due q o → o ∈ st.elements.objects.keys
  field : ∀ x ∈ st.elements.instanceFields.keys, x.1 ∈ st.elements.objects.keys
  array : ∀ a ∈ st.elements.arrayIndexes.keys, a ∈ st.elements.objects.keys

theorem Selector.length_heapContext_le {ε : Type} (s : Selector) {c : Context ε}
    (hc : c.length ≤ s.k) : (s.heapContext c).length ≤ min s.k s.hk.toNat := by
  cases s with
  | insensitive => exact Nat.zero_le _
  | limited f k hk =>
    exact le_min ((Context.latest_length_le hk c).trans hc) (Context.length_latest_le hk c)

theorem Attained.rooted_short (h : Attained p setup st) :
    Rooted setup (fun m => m.context.length ≤ setup.selector.k) st :=
  h.contexts (P := fun c => c.length ≤ setup.selector.k) (closed_possible p setup)
    (Nat.zero_le _) fun _ he => he.2.1.1

theorem Attained.limited (h : Attained p setup st) : Limited setup.selector st where
  reachable _ hm := h.rooted_short.reachable hm
  method _ hm := h.rooted_short.method hm
  callSite _ hx := h.rooted_short.callSite hx
  var x hx := by
    obtain ⟨m, hm, -⟩ := h.rooted_short.pointer (q := .var x.1 x.2) hx
    exact hm
  object o ho := by
    obtain ⟨m, hm, hc⟩ := h.rooted_short.object ho
    rw [hc]
    exact Selector.length_heapContext_le _ hm
  due _ _ := h.rooted_short.due
  field x hx := h.rooted_short.pointer (q := .instanceField x.1 x.2) hx
  array a ha := h.rooted_short.pointer (q := .arrayIndex a) ha

/-! ## Handles -/

/-- The selector can have handed out all contexts of a state. -/
theorem Attained.handedOut (h : Attained p setup st) :
    ∃ hs t, ContextTable.HandedOut setup.selector hs t ∧
      (∀ m ∈ st.elements.methods.keys, ContextTable.Has hs t m.context) ∧
      (∀ x ∈ st.elements.callSites.keys, ContextTable.Has hs t x.context) ∧
      (∀ x ∈ st.elements.vars.keys, ContextTable.Has hs t x.1) ∧
      ∀ o ∈ st.elements.objects.keys, ContextTable.Has hs t o.context := by
  have hroot : Rooted setup (fun m => ContextTable.Obtained setup.selector m.context) st :=
    h.contexts (P := ContextTable.Obtained setup.selector) (closed_obtained p setup) .empty
      fun _ he => he.2
  obtain ⟨hs, t, ht, hall⟩ := ContextTable.exists_handedOut (s := setup.selector)
    (l := st.elements.methods.keys.toList.map (·.context) ++
      st.elements.callSites.keys.toList.map (·.context) ++
      st.elements.vars.keys.toList.map Prod.fst ++
      st.elements.objects.keys.toList.map (·.context)) (by
    intro c hc
    simp only [List.mem_append, List.mem_map] at hc
    rcases hc with ((⟨m, hm, rfl⟩ | ⟨x, hx, rfl⟩) | ⟨x, hx, rfl⟩) | ⟨o, ho, rfl⟩
    · exact hroot.method hm
    · exact hroot.callSite hx
    · obtain ⟨m, hm, -⟩ := hroot.pointer (q := .var x.1 x.2) hx
      exact hm
    · obtain ⟨m, hm, hc⟩ := hroot.object ho
      rw [hc]
      exact .heap hm)
  simp only [List.mem_append, List.mem_map] at hall
  exact ⟨hs, t, ht, fun m hm => hall _ (.inl (.inl (.inl ⟨m, hm, rfl⟩))),
    fun x hx => hall _ (.inl (.inl (.inr ⟨x, hx, rfl⟩))),
    fun x hx => hall _ (.inl (.inr ⟨x, hx, rfl⟩)), fun o ho => hall _ (.inr ⟨o, ho, rfl⟩)⟩

/-! ## Call strings -/

/-- On a chain of calls the context is made of the latest call sites. -/
theorem CallPath.context_eq (hs : setup.selector = .limited .callSite k hk)
    (h : Attained p setup st) {ss : List CallSite} {m : CtxMethod}
    (hpath : CallPath st.calls ss m) :
    m.context = (ss.map ContextElement.callSite).drop (ss.length - k) := by
  have hw := h.within (closed_appended (p := p) hs)
  suffices hlatest : m.context = Context.latest k (ss.map .callSite) by
    rwa [Context.latest, List.length_map, Int.toNat_natCast] at hlatest
  induction hpath with
  | entry hm =>
    obtain ⟨e, -, rfl⟩ := (h.rooted_true.entry hm).2
    exact (List.drop_nil).symm
  | @call ss e _ he ih =>
    have hcallee : e.callee.context =
      Context.append k e.site.container.context (.callSite e.site.site) := hw.calls he
    rw [hcallee, ih, List.map_append, Context.append_of_latest]
    rfl

/-- Where call sites are told apart and no method uses a variable of another one, a method is
reachable in a context exactly if a chain of calls from an entry ends there, the context being the
latest call sites of the chain. -/
theorem Attained.reachable_iff_callPath (hp : p.Built) (hown : p.Scoped) (h : Attained p setup st)
    (hs : setup.selector = .limited .callSite k hk) (c : Ctx) (m : Method) :
    ⟨c, m⟩ ∈ st.calls.reachable ↔ ∃ ss c', CallPath st.calls ss ⟨c', m⟩ ∧
      c = (ss.map ContextElement.callSite).drop (ss.length - k) := by
  rw [h.reachable_iff hp hown]
  constructor
  · rintro ⟨ss, hss⟩
    exact ⟨ss, c, hss, hss.context_eq hs h⟩
  · rintro ⟨ss, c', hss, rfl⟩
    obtain rfl : c' = _ := hss.context_eq hs h
    exact ⟨ss, hss⟩

/-- In every state that an analysis of a program can come to, contexts are as short as the selector
bounds them, and can be handed out with equal handles exactly where their elements are equal. Where
call sites are told apart, chains of calls from the entries in the empty context end at reachable
methods, with the latest call sites as context; and there are no other reachable methods if the
program was built and no method uses a variable of another one. -/
theorem contexts_stay_short (p : Program) (setup : Setup) :
    (∀ st, Attained p setup st → Limited setup.selector st) ∧
    (∀ st, Attained p setup st → ∃ hs t, ContextTable.HandedOut setup.selector hs t ∧
      (∀ m ∈ st.elements.methods.keys, ContextTable.Has hs t m.context) ∧
      (∀ x ∈ st.elements.callSites.keys, ContextTable.Has hs t x.context) ∧
      (∀ x ∈ st.elements.vars.keys, ContextTable.Has hs t x.1) ∧
      ∀ o ∈ st.elements.objects.keys, ContextTable.Has hs t o.context) ∧
    (∀ hs (t : ContextTable ContextElement), ContextTable.HandedOut setup.selector hs t →
      ∀ a ∈ hs, (∀ b ∈ hs, a = b ↔ t.elements a = t.elements b) ∧
        (a = ContextTable.emptyContext ↔ (t.elements a).length = 0)) ∧
    ∀ k hk, setup.selector = .limited .callSite k hk →
      (∀ st, Attained p setup st → (∀ m ∈ st.calls.entries, ∃ e ∈ setup.entries, m = ⟨[], e⟩) ∧
        (∀ ss m, CallPath st.calls ss m → m ∈ st.calls.reachable ∧
          m.context = (ss.map ContextElement.callSite).drop (ss.length - k)) ∧
        (p.Built → p.Scoped → ∀ c m, ⟨c, m⟩ ∈ st.calls.reachable ↔
          ∃ ss c', CallPath st.calls ss ⟨c', m⟩ ∧
            c = (ss.map ContextElement.callSite).drop (ss.length - k))) ∧
      ∀ fuel st, analyze fuel p setup .empty = (.ok (), st) →
        ∀ m, m ∈ st.calls.entries ↔ ∃ e ∈ setup.entries, m = ⟨[], e⟩ :=
  ⟨fun _ h => h.limited, fun _ h => h.handedOut,
    fun _ _ h _ ha => ⟨fun _ hb => h.eq_iff ha hb, h.eq_emptyContext_iff ha⟩,
    fun _ _ hs => ⟨fun _ h => ⟨fun _ hm => (h.rooted_true.entry hm).2,
      fun ss _ hss => ⟨h.reachable_of_chained ⟨ss, hss⟩, hss.context_eq hs h⟩,
      fun hp hown => h.reachable_iff_callPath hp hown hs⟩, fun _ _ h => analyze_entries h⟩⟩

end

/-! ### A method that calls itself -/

namespace Descent

def owner : ClassRef := ⟨0, "A"⟩

def main : Method := ⟨0, owner, ⟨"main", [], .void⟩, true, false, false⟩

def hierarchy : Hierarchy :=
  ((Hierarchy.empty.addClass "A" none [] false false).2.addMethod owner main.signature
    true false false).2

def x : Var := ⟨0, "x", .object owner, main⟩

def site : CallSite := ⟨⟨1, 2, main⟩, none, ⟨.static, main.ref, []⟩⟩

def draft : Draft :=
  ⟨main, none, [], [x], [.alloc x (.object owner), .invoke none site.call], ∅, false⟩

def body : Body := ⟨main, none, [], [x],
  [⟨⟨0, 1, main⟩, .alloc x (.object owner)⟩, site.stmt, ⟨⟨2, 3, main⟩, .ret none⟩]⟩

/-- The main method makes an object and starts over. -/
def program : Program := ⟨hierarchy, OrderedMap.ofList [(main, body)]⟩

def setup : Setup := ⟨[main], .limited .callSite 2 1, 0⟩

theorem draft_built : draft.Built := by
  have hstart : Draft.Built ⟨main, none, [], [], [], ∅, false⟩ :=
    .start (show Draft.start main none = .ok _ from rfl)
  have hx : Draft.Built ⟨main, none, [], [x], [], ∅, false⟩ := hstart.addVar
  exact hx.appendAll rfl

theorem body_of_program {m : Method} {b : Body} (hb : program.body? m = some b) :
    m = main ∧ b = body := by
  have hin : (m, b) ∈ [(main, body)] := OrderedMap.mem_entries_iff.2 hb
  simpa using hin

theorem program_built : program.Built where
  hierarchy := Hierarchy.Built.empty.addRoot.addMethod ⟨_, rfl, rfl⟩
  body hb := by
    obtain ⟨-, rfl⟩ := body_of_program hb
    exact .finish draft_built rfl
  method hb := by
    obtain ⟨rfl, rfl⟩ := body_of_program hb
    rfl

def final : State := (analyze 20 program setup .empty).2

/-- The call edge out of a context, where `c` is the context with the site added. -/
def edge (caller c : Ctx) : CtxEdge := ⟨.static, ⟨caller, site⟩, ⟨c, main⟩⟩

theorem callPath_final :
    CallPath final.calls [site, site, site] ⟨[.callSite site, .callSite site], main⟩ := by
  have h₀ : CallPath final.calls [] ⟨[], main⟩ := .entry (by decide)
  have h₁ : CallPath final.calls [site] ⟨[.callSite site], main⟩ :=
    .call (e := edge [] [.callSite site]) h₀ (by decide)
  have h₂ : CallPath final.calls [site, site] ⟨[.callSite site, .callSite site], main⟩ :=
    .call (e := edge [.callSite site] [.callSite site, .callSite site]) h₁ (by decide)
  exact .call (e := edge [.callSite site, .callSite site] [.callSite site, .callSite site]) h₂
    (by decide)

/-- After three calls the context is made of the latest two. -/
theorem contexts_stay_short_descent : program.Built ∧ program.Scoped ∧
    analyze 20 program setup .empty = (.ok (), final) ∧ Limited setup.selector final ∧
      ⟨[.callSite site, .callSite site], main⟩ ∈ final.calls.reachable := by
  have hscoped : program.Scoped := by decide
  have hanalyze : analyze 20 program setup .empty = (.ok (), final) := rfl
  have hattained : Attained program setup final := Attained.fresh.analyze hanalyze
  obtain ⟨hlimited, -, -, hstrings⟩ := contexts_stay_short program setup
  obtain ⟨hpaths, -⟩ := hstrings 2 1 rfl
  obtain ⟨-, -, hiff⟩ := hpaths final hattained
  refine ⟨program_built, hscoped, hanalyze, hlimited final hattained, ?_⟩
  exact (hiff program_built hscoped _ _).2 ⟨_, _, callPath_final, rfl⟩

end Descent

namespace Borrowed

/-- The one call edge leads out of a method that no chain of calls leads to. -/
theorem method_of_callPath {ss : List CallSite} {m : CtxMethod} (h : CallPath final.calls ss m) :
    m.method = main := by
  induction h with
  | entry hm =>
    obtain rfl := List.mem_singleton.1 (show _ ∈ [(⟨[], main⟩ : CtxMethod)] from hm)
    rfl
  | @call ss e _ he ih =>
    obtain rfl := List.mem_singleton.1 (show e ∈ [(⟨.virtual, ⟨[], site⟩,
      ⟨[.callSite site], tool⟩⟩ : CtxEdge)] from he)
    exact absurd ih (by decide)

/-- The object brings up the call on its variable, and so a method is reachable where no chain of
calls ends. -/
theorem reachable_without_callPath : ¬ ∀ (p : Program) (setup : Setup) (k : Nat) (hk : Int)
    (fuel : Nat) (st : State), p.Built → setup.selector = .limited .callSite k hk →
    analyze fuel p setup .empty = (.ok (), st) →
    ∀ c m, ⟨c, m⟩ ∈ st.calls.reachable ↔ ∃ ss c', CallPath st.calls ss ⟨c', m⟩ ∧
      c = (ss.map ContextElement.callSite).drop (ss.length - k) := by
  intro h
  obtain ⟨ss, c', hpath, -⟩ := (h program setup 1 0 10 final program_built rfl rfl
    [.callSite site] tool).1 (by decide)
  have hmain : tool = main := method_of_callPath hpath
  exact absurd hmain (by decide)

end Borrowed

end PointsTo

end ObjectFlow
