import ObjectFlow.Proofs.CallTargets
/-!
# What a method reference names

A reference names the declaration of the nearest class up the chain of superclasses. If
no class of the chain declares the signature, the interfaces above all of them are
searched, which are the interfaces above the class that the reference names. If that
class and all types above it were added, the search does not fail.
-/

namespace ObjectFlow

namespace Hierarchy

variable {h : Hierarchy} {s : Signature} {c d u i : ClassRef} {m : Method}

/-! ## The chain of superclasses -/

/-- The second class is the first or a superclass of it, of any degree. -/
def Inherits (h : Hierarchy) : ClassRef → ClassRef → Prop :=
  Relation.ReflTransGen fun c u => h.superclass? c = some u

/-- The class declares the method, or else the nearest superclass that declares one of the
signature does. -/
inductive Nearest (h : Hierarchy) (s : Signature) : ClassRef → Method → Prop
  | own {c : ClassRef} {m : Method} (declared : h.declaredMethod? c s = some m) : Nearest h s c m
  | up {c u : ClassRef} {m : Method} (none : h.declaredMethod? c s = none)
      (super : h.superclass? c = some u) (rest : Nearest h s u m) : Nearest h s c m

theorem declaredBelow_of_superclass (hu : h.superclass? c = some u) : h.DeclaredBelow c u := .inl hu

theorem Inherits.above (hi : h.Inherits c u) : Relation.ReflTransGen h.DeclaredBelow c u :=
  Relation.ReflTransGen.mono (fun _ _ => declaredBelow_of_superclass) _ _ hi

theorem inherits_of_mem_superChainUpTo {n : Nat} (hd : d ∈ h.superChainUpTo n c) :
    h.Inherits c d := by
  induction n generalizing c with
  | zero => cases hd
  | succ n ih =>
    rw [superChainUpTo] at hd
    rcases List.mem_cons.1 hd with rfl | hd
    · exact .refl
    · cases hu : h.superclass? c with
      | none =>
        rw [hu] at hd
        cases hd
      | some u =>
        rw [hu] at hd
        exact .head hu (ih hd)

/-- A chain as long as the number of its class goes up to the top: it finds the nearest declaration,
or there is none anywhere above. -/
theorem findSome?_superChainUpTo (hb : h.Built) (s : Signature) (n : Nat) (hn : c.id < n) :
    (∀ m, (h.superChainUpTo n c).findSome? (fun d => h.declaredMethod? d s) = some m →
      h.Nearest s c m) ∧
    ((h.superChainUpTo n c).findSome? (fun d => h.declaredMethod? d s) = none →
      ∀ d, h.Inherits c d → h.declaredMethod? d s = none) := by
  induction n generalizing c with
  | zero => omega
  | succ n ih =>
    rw [superChainUpTo, List.findSome?_cons]
    cases hm : h.declaredMethod? c s with
    | some m =>
      constructor
      · intro m' hm'
        obtain rfl := Option.some.inj hm'
        exact .own hm
      · intro hno
        cases hno
    | none =>
      cases hu : h.superclass? c with
      | none =>
        refine ⟨fun m' hm' => (by cases hm'), fun _ d hd => ?_⟩
        rcases hd.cases_head with rfl | ⟨u, hu', -⟩
        · exact hm
        · rw [hu] at hu'
          cases hu'
      | some u =>
        obtain ⟨decl, hdecl, hsuper⟩ := Option.bind_eq_some_iff.1 hu
        have hlt : u.id < n := by
          have := hb.superclass_lt hdecl hsuper
          omega
        obtain ⟨hfound, hnone⟩ := ih hlt
        refine ⟨fun m' hm' => .up hm hu (hfound m' hm'), fun hno d hd => ?_⟩
        rcases hd.cases_head with rfl | ⟨u', hu', hd⟩
        · exact hm
        · rw [hu] at hu'
          obtain rfl := Option.some.inj hu'
          exact hnone hno d hd

/-! ## Interfaces above -/

theorem mem_above : u ∈ h.above c ↔ c ∈ h.below u := by
  rw [mem_below]
  simp only [above, List.mem_filterMap]
  constructor
  · rintro ⟨⟨⟨u', c'⟩, k⟩, he, hu⟩
    split at hu
    · rename_i heq
      obtain rfl : c' = c := heq
      obtain rfl := Option.some.inj hu
      exact ⟨k, OrderedMap.mem_entries_iff.1 he⟩
    · cases hu
  · rintro ⟨k, hk⟩
    exact ⟨((u, c), k), OrderedMap.mem_entries_iff.2 hk, by simp⟩

/-- What is found above a class that was added, with all that is above it, is what declarations lead
up to. -/
theorem mem_supertypes_iff (hb : h.Built)
    (ha : ∀ d, Relation.ReflTransGen h.DeclaredBelow c d → h.Added d) :
    u ∈ h.supertypes c ↔ Relation.ReflTransGen h.DeclaredBelow c u := by
  have hp := hb.placed
  have hnode : c ∈ h.nodes := hp.known (ha c .refl).named
  have hstay : ∀ a ∈ h.nodes.toList, ∀ b ∈ h.above a, b ∈ h.nodes.toList := by
    intro a _ b hab
    obtain ⟨k, hk⟩ := mem_below.1 (mem_above.1 hab)
    exact (hb.consistent.ends hk).1
  have hup : Relation.ReflTransGen h.DeclaredBelow c u →
      Relation.ReflTransGen (Next h.above) c u := by
    intro hs
    induction hs with
    | refl => exact .refl
    | @tail a b hca hab ih =>
      -- the lower end was added, so its declaration was linked
      have hadded := ha a hca
      apply ih.tail
      apply mem_above.2
      rcases hab with hsuper | hinter
      · exact hp.superclass hadded.named hsuper
      · exact hp.interfaces hadded.named hadded.interfaces b hinter
  have hdown : Relation.ReflTransGen (Next h.above) c u →
      Relation.ReflTransGen h.DeclaredBelow c u :=
    Relation.ReflTransGen.mono (fun a b hab => hp.declared (mem_above.1 hab)) _ _
  exact (mem_reachableFrom hstay hnode (Nat.le_succ _)).trans ⟨hdown, hup⟩

/-- The search through interfaces succeeds if all classes of the chain are known. It finds some
declaration in an interface above one of them, if there is any. -/
theorem interfaceMethod?_spec (s : Signature) (cs : List ClassRef) (hcs : ∀ c ∈ cs, c ∈ h.nodes) :
    ∃ found, h.interfaceMethod? s cs = .ok found ∧
      (∀ m, found = some m → ∃ c ∈ cs, ∃ i ∈ h.supertypes c, i ≠ c ∧ h.isInterface i ∧
        h.declaredMethod? i s = some m) ∧
      (found = none → ∀ c ∈ cs, ∀ i ∈ h.supertypes c, i ≠ c → h.isInterface i →
        h.declaredMethod? i s = none) := by
  induction cs with
  | nil => exact ⟨none, rfl, fun m hm => (by cases hm), fun _ c hc => (by cases hc)⟩
  | cons c cs ih =>
    obtain ⟨found, hrest, hsome, hnone⟩ := ih fun c' hc' => hcs c' (List.mem_cons_of_mem _ hc')
    have hmem : ∀ i, i ∈ (h.supertypes c).filter (fun d => decide (d ≠ c) && h.isInterface d) ↔
        i ∈ h.supertypes c ∧ i ≠ c ∧ h.isInterface i := by
      intro i
      simp only [List.mem_filter, Bool.and_eq_true, decide_eq_true_eq]
    rw [interfaceMethod?, if_neg (not_not.2 (hcs c List.mem_cons_self))]
    dsimp only
    cases hfound : ((h.supertypes c).filter fun d => decide (d ≠ c) && h.isInterface d).findSome?
        fun d => h.declaredMethod? d s with
    | some m =>
      obtain ⟨i, hi, hm⟩ := List.exists_of_findSome?_eq_some hfound
      obtain ⟨hsuper, hne, hinter⟩ := (hmem i).1 hi
      refine ⟨some m, rfl, fun m' hm' => ?_, fun hno => (by cases hno)⟩
      obtain rfl := Option.some.inj hm'
      exact ⟨c, List.mem_cons_self, i, hsuper, hne, hinter, hm⟩
    | none =>
      refine ⟨found, hrest, fun m hm => ?_, fun hno c' hc' i hi hne hinter => ?_⟩
      · obtain ⟨c', hc', hrest⟩ := hsome m hm
        exact ⟨c', List.mem_cons_of_mem _ hc', hrest⟩
      · rcases List.mem_cons.1 hc' with rfl | hc'
        · exact List.findSome?_eq_none_iff.1 hfound i ((hmem i).2 ⟨hi, hne, hinter⟩)
        · exact hnone hno c' hc' i hi hne hinter

/-! ## References -/

/-- What a reference names: the nearest declaration up the chain of superclasses, else some
declaration in an interface above, else nothing. -/
inductive Names (h : Hierarchy) (r : MethodRef) : Option Method → Prop
  | inherited {m : Method} (nearest : h.Nearest r.signature r.owner m) : Names h r (some m)
  | offered {i : ClassRef} {m : Method}
      (chain : ∀ d, h.Inherits r.owner d → h.declaredMethod? d r.signature = none)
      (above : Relation.TransGen h.DeclaredBelow r.owner i) (interface : h.isInterface i)
      (declared : h.declaredMethod? i r.signature = some m) : Names h r (some m)
  | nothing (chain : ∀ d, h.Inherits r.owner d → h.declaredMethod? d r.signature = none)
      (above : ∀ i, Relation.TransGen h.DeclaredBelow r.owner i → h.isInterface i →
        h.declaredMethod? i r.signature = none) : Names h r none

/-- If the class that a reference names was added, and all types above it, the search for what it
names succeeds and finds just that. -/
theorem resolve_finds (hb : h.Built) (r : MethodRef)
    (ha : ∀ c, Relation.ReflTransGen h.DeclaredBelow r.owner c → h.Added c) :
    ∃ found, h.resolve r = .ok found ∧ h.Names r found := by
  have hknown : ∀ c, Relation.ReflTransGen h.DeclaredBelow r.owner c → c ∈ h.nodes :=
    fun c hc => hb.placed.known (ha c hc).named
  have hlt : r.owner.id < h.classes.length :=
    (hb.consistent.known _ (hknown r.owner .refl)).id_lt
  obtain ⟨hnear, hchain⟩ := findSome?_superChainUpTo hb r.signature h.classes.length hlt
  unfold resolve superChain
  dsimp only
  cases hfound : (h.superChainUpTo h.classes.length r.owner).findSome?
      fun d => h.declaredMethod? d r.signature with
  | some m => exact ⟨some m, rfl, .inherited (hnear m hfound)⟩
  | none =>
    have hnone := hchain hfound
    have habove : ∀ c ∈ h.superChainUpTo h.classes.length r.owner,
        Relation.ReflTransGen h.DeclaredBelow r.owner c :=
      fun c hc => (inherits_of_mem_superChainUpTo hc).above
    have hsuper : ∀ c, Relation.ReflTransGen h.DeclaredBelow r.owner c → ∀ i,
        i ∈ h.supertypes c ↔ Relation.ReflTransGen h.DeclaredBelow c i :=
      fun c hc i => mem_supertypes_iff hb fun d hd => ha d (hc.trans hd)
    obtain ⟨found, hres, hsome, hno⟩ := interfaceMethod?_spec r.signature
      (h.superChainUpTo h.classes.length r.owner) fun c hc => hknown c (habove c hc)
    refine ⟨found, hres, ?_⟩
    cases hf : found with
    | some m =>
      obtain ⟨c, hc, i, hi, hne, hinter, hm⟩ := hsome m hf
      have hci := (hsuper c (habove c hc) i).1 hi
      rcases Relation.reflTransGen_iff_eq_or_transGen.1 hci with heq | hci
      · exact absurd heq hne
      · exact .offered hnone (.trans_right (habove c hc) hci) hinter hm
    | none =>
      refine .nothing hnone fun i hi hinter => ?_
      -- the class itself stands in the chain, so the interfaces above it were all asked
      by_cases hne : i = r.owner
      · exact hnone i (hne ▸ .refl)
      · have hfirst : r.owner ∈ h.superChainUpTo h.classes.length r.owner := by
          obtain ⟨n, hn⟩ : ∃ n, h.classes.length = n + 1 := ⟨h.classes.length - 1, by omega⟩
          rw [hn, superChainUpTo]
          exact List.mem_cons_self
        exact hno hf r.owner hfirst i ((hsuper _ .refl i).2 hi.to_reflTransGen) hne hinter

/-! ### An interface that two ways lead up to -/

namespace Measured

open Cha.Diamond

def area : Signature := ⟨"area", [], .primitive .int⟩

def areaOfShape : Method := ⟨1, shape, area, false, true, false⟩

/-- All shapes have an area, which none of the classes below declares. -/
def hierarchy : Hierarchy := (Cha.Diamond.hierarchy.addMethod shape area false true false).2

theorem hierarchy_built : hierarchy.Built := Cha.Diamond.hierarchy_built.addMethod ⟨_, rfl, rfl⟩

theorem added (c : ClassRef) (hc : hierarchy.Made c) : hierarchy.Added c := by
  obtain ⟨d, hd, href⟩ := hc
  have hmem : c ∈ [shape, solid, figure, ball] :=
    (List.mem_map.2 ⟨d, List.mem_of_getElem? hd, href⟩ : c ∈ hierarchy.classes.map ClassDecl.ref)
  simp only [List.mem_cons, List.not_mem_nil, or_false] at hmem
  rcases hmem with rfl | rfl | rfl | rfl <;> exact ⟨rfl, by decide⟩

theorem added_above (c : ClassRef)
    (hc : Relation.ReflTransGen hierarchy.DeclaredBelow ball c) : hierarchy.Added c := by
  apply added
  induction hc with
  | refl => exact ⟨_, rfl, rfl⟩
  | tail _ hd _ =>
    have hcons := hierarchy_built.consistent
    exact hd.elim hcons.made_superclass hcons.made_interface

/-- A ball is drawn as the figure above it says, has the area that shapes declare, and no name. -/
theorem resolve_finds_measured :
    (hierarchy.Built ∧ ∀ c, Relation.ReflTransGen hierarchy.DeclaredBelow ball c →
      hierarchy.Added c) ∧
    hierarchy.Names ⟨ball, drawing⟩ (some drawFigure) ∧
    hierarchy.Names ⟨ball, area⟩ (some areaOfShape) ∧
    hierarchy.Names ⟨ball, ⟨"name", [], .void⟩⟩ none := by
  have hfound : ∀ s found, hierarchy.resolve ⟨ball, s⟩ = .ok found →
      hierarchy.Names ⟨ball, s⟩ found := by
    intro s found hs
    obtain ⟨found', hs', hnames⟩ := resolve_finds hierarchy_built ⟨ball, s⟩ added_above
    rw [hs] at hs'
    obtain rfl := Except.ok.inj hs'
    exact hnames
  exact ⟨⟨hierarchy_built, added_above⟩, hfound _ _ rfl, hfound _ _ rfl, hfound _ _ rfl⟩

end Measured

end Hierarchy

end ObjectFlow
