import ObjectFlow.Proofs.CallClosure
/-!
# Declared and linked

Attaching a class links it below its superclass and its interfaces, and nothing else
makes links. So when all classes were attached without a fault, the subtypes of a
class are those that declarations lead down to.
-/

namespace ObjectFlow

namespace Hierarchy

variable {h h' : Hierarchy}

/-! ## What was declared -/

/-- The interfaces that a class was declared below. -/
def interfaces (h : Hierarchy) (c : ClassRef) : List ClassRef :=
  ((h.decl? c).map ClassDecl.interfaces).getD []

/-- A type was declared with another as its superclass or among its interfaces. -/
def DeclaredBelow (h : Hierarchy) (lower upper : ClassRef) : Prop :=
  h.superclass? lower = some upper ∨ upper ∈ h.interfaces lower

/-- The class was attached, and without a fault: what it has as interfaces are some. -/
structure Added (h : Hierarchy) (c : ClassRef) : Prop where
  named : h.class? c.name = some c
  interfaces : ∀ i ∈ h.interfaces c, h.isInterface i

/-! ### Linking -/

theorem below_link {u l c d : ClassRef} {k : Link} :
    d ∈ (h.link u l k).below c ↔ d ∈ h.below c ∨ (c = u ∧ d = l) := by
  simp only [mem_below, link, OrderedMap.get?_insert, Prod.mk.injEq]
  split
  · rename_i heq
    exact ⟨fun _ => .inr heq, fun _ => ⟨k, rfl⟩⟩
  · rename_i hne
    exact ⟨.inl, fun hor => hor.resolve_right hne⟩

/-- Another hierarchy with the same classes, in which at least as much is linked. -/
structure Extends (h h' : Hierarchy) : Prop where
  classes : h'.classes = h.classes
  names : h'.names = h.names
  nodes : ∀ c ∈ h.nodes, c ∈ h'.nodes
  below : ∀ c, ∀ d ∈ h.below c, d ∈ h'.below c

theorem Extends.refl (h : Hierarchy) : Extends h h :=
  ⟨rfl, rfl, fun _ hc => hc, fun _ _ hd => hd⟩

theorem Extends.trans {h'' : Hierarchy} (he : Extends h h') (he' : Extends h' h'') :
    Extends h h'' :=
  ⟨he'.classes.trans he.classes, he'.names.trans he.names, fun c hc => he'.nodes c (he.nodes c hc),
    fun c d hd => he'.below c d (he.below c d hd)⟩

theorem extends_link (h : Hierarchy) (u l : ClassRef) (k : Link) : Extends h (h.link u l k) where
  classes := rfl
  names := rfl
  nodes _ hc := OrderedSet.mem_insert.2 (.inl (OrderedSet.mem_insert.2 (.inl hc)))
  below _ _ hd := below_link.2 (.inl hd)

theorem extends_linkInterfaces (h : Hierarchy) (c : ClassRef) (k : Link) (is : List ClassRef) :
    Extends h (h.linkInterfaces c k is).2 := by
  induction is generalizing h with
  | nil => exact .refl h
  | cons i is ih =>
    rw [linkInterfaces]
    split
    · exact (extends_link h i c k).trans (ih _)
    · exact .refl h

/-- A class is linked below all that it names as interfaces, if these are some; else there is a
fault. -/
theorem linkInterfaces_spec (h : Hierarchy) (c : ClassRef) (k : Link) (is : List ClassRef) :
    ((h.linkInterfaces c k is).1 = .ok () ↔ ∀ i ∈ is, h.isInterface i) ∧
    ((∀ i ∈ is, h.isInterface i) → ∀ i ∈ is, c ∈ (h.linkInterfaces c k is).2.below i) := by
  induction is generalizing h with
  | nil => exact ⟨⟨fun _ i hi => (List.not_mem_nil hi).elim, fun _ => rfl⟩,
      fun _ i hi => (List.not_mem_nil hi).elim⟩
  | cons i is ih =>
    rw [linkInterfaces]
    split
    · rename_i hi
      obtain ⟨hok, hall⟩ := ih (h.link i c k)
      refine ⟨hok.trans ?_, fun his j hj => ?_⟩
      · rw [List.forall_mem_cons]
        exact ⟨fun his => ⟨hi, his⟩, fun his => his.2⟩
      · rcases List.mem_cons.1 hj with rfl | hj
        · exact (extends_linkInterfaces _ c k is).below _ _ (below_link.2 (.inr ⟨rfl, rfl⟩))
        · exact hall (fun j hj => his j (List.mem_cons_of_mem _ hj)) j hj
    · rename_i hi
      have hnot : ¬ ∀ j ∈ i :: is, h.isInterface j := fun his => hi (his i List.mem_cons_self)
      refine ⟨⟨fun hok => ?_, fun his => absurd his hnot⟩, fun his => absurd his hnot⟩
      cases hok

theorem below_linkInterfaces {u c d : ClassRef} {k : Link} {is : List ClassRef}
    (hd : d ∈ (h.linkInterfaces c k is).2.below u) : d ∈ h.below u ∨ (d = c ∧ u ∈ is) := by
  induction is generalizing h with
  | nil => exact .inl hd
  | cons i is ih =>
    rw [linkInterfaces] at hd
    split at hd
    · rcases ih hd with hd | ⟨rfl, hu⟩
      · rcases below_link.1 hd with hd | ⟨rfl, rfl⟩
        · exact .inl hd
        · exact .inr ⟨rfl, List.mem_cons_self⟩
      · exact .inr ⟨rfl, List.mem_cons_of_mem _ hu⟩
    · exact .inl hd

/-! ### Attaching -/

/-- A class whose name is free takes it, is linked below its superclass, and then below its
interfaces. -/
theorem attach_of_free {c : ClassRef} (hfree : h.names.contains c.name = false) :
    ∃ (k : Link) (base : Hierarchy), h.attach c = base.linkInterfaces c k (h.interfaces c) ∧
      base.classes = h.classes ∧ base.names = h.names.insert c.name c ∧
      (∀ d, d ∈ h.nodes ∨ d = c → d ∈ base.nodes) ∧
      ∀ u d, d ∈ base.below u ↔ d ∈ h.below u ∨ (h.superclass? c = some u ∧ d = c) := by
  let named := { h with names := h.names.insert c.name c, nodes := h.nodes.insert c }
  have hnodes : ∀ d, d ∈ h.nodes ∨ d = c → d ∈ named.nodes := fun d hd => OrderedSet.mem_insert.2 hd
  unfold attach
  rw [if_neg (by simp [hfree])]
  dsimp only
  cases hs : h.superclass? c with
  | none =>
    refine ⟨_, named, rfl, rfl, rfl, hnodes, fun u d => ?_⟩
    show d ∈ h.below u ↔ _
    simp
  | some s =>
    refine ⟨_, named.link s c .inherits, rfl, rfl, rfl, fun d hd => ?_, fun u d => ?_⟩
    · exact (extends_link named s c .inherits).nodes d (hnodes d hd)
    · rw [below_link, Option.some.injEq, eq_comm (a := s)]
      rfl

theorem decl?_of_classes (hc : h'.classes = h.classes) (c : ClassRef) : h'.decl? c = h.decl? c := by
  rw [decl?, hc, decl?]

theorem superclass?_of_classes (hc : h'.classes = h.classes) (c : ClassRef) :
    h'.superclass? c = h.superclass? c := by
  rw [superclass?, decl?_of_classes hc, superclass?]

theorem interfaces_of_classes (hc : h'.classes = h.classes) (c : ClassRef) :
    h'.interfaces c = h.interfaces c := by
  rw [interfaces, decl?_of_classes hc, interfaces]

theorem isInterface_of_classes (hc : h'.classes = h.classes) (c : ClassRef) :
    h'.isInterface c = h.isInterface c := by
  rw [isInterface, decl?_of_classes hc, isInterface]

/-! ## Links and declarations -/

/-- All links were declared, and an attached class is linked as it was declared. -/
structure Placed (h : Hierarchy) : Prop where
  declared : ∀ {u l}, l ∈ h.below u → h.DeclaredBelow l u
  known : ∀ {name c}, h.class? name = some c → c ∈ h.nodes
  superclass : ∀ {name c u}, h.class? name = some c → h.superclass? c = some u → c ∈ h.below u
  interfaces : ∀ {name c}, h.class? name = some c → (∀ i ∈ h.interfaces c, h.isInterface i) →
    ∀ i ∈ h.interfaces c, c ∈ h.below i

theorem Consistent.made_interface (hc : h.Consistent) {c i : ClassRef} (hi : i ∈ h.interfaces c) :
    h.Made i := by
  unfold interfaces at hi
  cases hd : h.decl? c with
  | none =>
    rw [hd] at hi
    cases hi
  | some d =>
    rw [hd] at hi
    exact (hc.above hd).2 i hi

theorem Consistent.made_superclass (hc : h.Consistent) {c u : ClassRef}
    (hu : h.superclass? c = some u) : h.Made u := by
  obtain ⟨d, hd, hs⟩ := Option.bind_eq_some_iff.1 hu
  exact (hc.above hd).1 u hs

/-- Declaring more classes or members changes nothing for the classes there are. -/
theorem Placed.congr (hp : h.Placed) (hc : h.Consistent) (hs : SameClasses h h')
    (hi : ∀ c, h.Made c → h'.interfaces c = h.interfaces c) (hnames : h'.names = h.names)
    (hnodes : h'.nodes = h.nodes) (hlinks : h'.links = h.links) : h'.Placed := by
  have hbelow : ∀ u, h'.below u = h.below u := fun u => by rw [below, hlinks, below]
  have hmade : ∀ {name c}, h.class? name = some c → h.Made c := fun hn => hc.known _ (hp.known hn)
  have hclass : ∀ name, h'.class? name = h.class? name := fun name => by rw [class?, hnames, class?]
  refine ⟨fun {u l} hl => ?_, fun hn => ?_, fun hn hu => ?_, fun hn his => ?_⟩
  · rw [hbelow] at hl
    obtain ⟨k, hk⟩ := mem_below.1 hl
    have hm := hc.known l (hc.ends hk).2
    rw [DeclaredBelow, hs.superclass l hm, hi l hm]
    exact hp.declared hl
  · rw [hclass] at hn
    rw [hnodes]
    exact hp.known hn
  · rw [hclass] at hn
    rw [hs.superclass _ (hmade hn)] at hu
    rw [hbelow]
    exact hp.superclass hn hu
  · rw [hclass] at hn
    rw [hi _ (hmade hn)] at his ⊢
    intro i hin
    rw [hbelow]
    refine hp.interfaces hn (fun j hj => ?_) i hin
    rw [← hs.isInterface j (hc.made_interface hj)]
    exact his j hj

theorem Placed.attach (hp : h.Placed) (c : ClassRef) : (h.attach c).2.Placed := by
  cases hfree : h.names.contains c.name with
  | true =>
    unfold Hierarchy.attach
    rw [if_pos hfree]
    exact hp
  | false =>
    obtain ⟨k, base, hattach, hclasses, hnames, hnodes, hbelow⟩ := attach_of_free hfree
    rw [hattach]
    have hext := extends_linkInterfaces base c k (h.interfaces c)
    have hsame := hext.classes.trans hclasses
    have hold : ∀ u, ∀ d ∈ h.below u, d ∈ (base.linkInterfaces c k (h.interfaces c)).2.below u :=
      fun u d hd => hext.below u d ((hbelow u d).2 (.inl hd))
    -- what a name leads to was attached before, or is the class
    have hclass : ∀ {name d}, (base.linkInterfaces c k (h.interfaces c)).2.class? name = some d →
        h.class? name = some d ∨ d = c := by
      intro name d hn
      rw [class?, hext.names, hnames, OrderedMap.get?_insert] at hn
      split at hn
      · exact .inr (Option.some.inj hn).symm
      · exact .inl hn
    refine ⟨fun {u l} hl => ?_, fun hn => ?_, fun hn hu => ?_, fun hn his => ?_⟩
    · rw [DeclaredBelow, superclass?_of_classes hsame, interfaces_of_classes hsame]
      rcases below_linkInterfaces hl with hl | ⟨rfl, hu⟩
      · rcases (hbelow u l).1 hl with hl | ⟨hu, rfl⟩
        · exact hp.declared hl
        · exact .inl hu
      · exact .inr hu
    · refine hext.nodes _ (hnodes _ ?_)
      rcases hclass hn with hn | rfl
      · exact .inl (hp.known hn)
      · exact .inr rfl
    · rw [superclass?_of_classes hsame] at hu
      rcases hclass hn with hn | rfl
      · exact hold _ _ (hp.superclass hn hu)
      · exact hext.below _ _ ((hbelow _ _).2 (.inr ⟨hu, rfl⟩))
    · rw [interfaces_of_classes hsame] at his ⊢
      simp only [isInterface_of_classes hsame] at his
      rcases hclass hn with hn | rfl
      · exact fun i hi => hold _ _ (hp.interfaces hn his i hi)
      · refine (linkInterfaces_spec base _ k _).2 fun i hi => ?_
        rw [isInterface_of_classes hclasses]
        exact his i hi

theorem interfaces_makeClass {name : String} {superclass : Option ClassRef}
    {interfaces : List ClassRef} {isInterface isAbstract : Bool} {c : ClassRef} (hm : h.Made c) :
    (h.makeClass name superclass interfaces isInterface isAbstract).2.interfaces c =
      h.interfaces c := by
  rw [Hierarchy.interfaces, decl?_makeClass, if_neg (Nat.ne_of_lt hm.id_lt), Hierarchy.interfaces]

theorem Placed.modifyDecl {f : ClassDecl → ClassDecl} (hp : h.Placed) (hc : h.Consistent)
    (c : ClassRef) (hf : OnlyMembers f) : (h.modifyDecl c f).Placed := by
  refine hp.congr hc (modifyDecl_same c hf) (fun c' _ => ?_) rfl rfl rfl
  rw [Hierarchy.interfaces, decl?_modifyDecl, Hierarchy.interfaces]
  split
  · cases h.decl? c' <;> simp [(hf _).2.2.1]
  · rfl

theorem Placed.withCounts (hp : h.Placed) (methodCount fieldCount : Nat) :
    { h with methodCount := methodCount, fieldCount := fieldCount }.Placed :=
  ⟨hp.declared, hp.known, hp.superclass, hp.interfaces⟩

theorem Built.placed (hb : h.Built) : h.Placed := by
  refine hb.preserves ⟨fun hl => ?_, fun hn => ?_, fun hn => ?_, fun hn => ?_⟩
    (fun _ _ _ _ _ built hp _ _ => hp.congr built.consistent (makeClass_same _ _ _ _ _ _)
      (fun c => interfaces_makeClass) rfl rfl rfl)
    (fun c _ hp _ => hp.attach c)
    (fun c _ _ built hp hf => (hp.modifyDecl built.consistent c hf).withCounts _ _)
  · cases hl
  · cases hn
  · cases hn
  · cases hn

/-! ## Subtypes -/

/-- Links stay among known classes. -/
theorem Consistent.below_mem (hc : h.Consistent) :
    ∀ c ∈ h.nodes.toList, ∀ d ∈ h.below c, d ∈ h.nodes.toList := by
  intro c _ d hd
  obtain ⟨k, hk⟩ := mem_below.1 hd
  exact (hc.ends hk).2

section
variable (hb : h.Built) (ha : ∀ c, h.Made c → h.Added c) {upper lower : ClassRef}
include hb ha

/-- All that was declared is linked. -/
theorem below_iff_declared (hl : h.Made lower) :
    lower ∈ h.below upper ↔ h.DeclaredBelow lower upper := by
  have hp := hb.placed
  have hadded := ha lower hl
  constructor
  · exact hp.declared
  · rintro (hu | hu)
    · exact hp.superclass hadded.named hu
    · exact hp.interfaces hadded.named hadded.interfaces upper hu

/-- Links lead down from a class as far as declarations lead up to it. -/
theorem linked_iff_declared (hl : h.Made lower) :
    Relation.ReflTransGen (Next h.below) upper lower ↔
      Relation.ReflTransGen h.DeclaredBelow lower upper := by
  have hc := hb.consistent
  constructor
  · intro hs
    induction hs with
    | refl => exact .refl
    | tail _ hd ih =>
      obtain ⟨k, hk⟩ := mem_below.1 hd
      exact .head (hb.placed.declared hd) (ih (hc.known _ (hc.ends hk).1))
  · intro hs
    induction hs using Relation.ReflTransGen.head_induction_on with
    | refl => exact .refl
    | head hd _ ih =>
      have hm := hd.elim hc.made_superclass hc.made_interface
      exact .tail (ih hm) ((below_iff_declared hb ha hl).2 hd)

/-- A class is a subtype of another exactly if declarations lead up from it to the other. -/
theorem isSubtype_iff (hu : h.Made upper) (hl : h.Made lower) :
    h.isSubtype upper lower ↔ Relation.ReflTransGen h.DeclaredBelow lower upper := by
  have hnode : ∀ c, h.Made c → c ∈ h.nodes := fun c hm => hb.placed.known (ha c hm).named
  have hreach : lower ∈ h.subtypes upper ↔ Relation.ReflTransGen (Next h.below) upper lower :=
    mem_reachableFrom hb.consistent.below_mem (hnode upper hu) (Nat.le_succ _)
  rw [← linked_iff_declared hb ha hl]
  simp only [isSubtype, hnode upper hu, hnode lower hl, decide_true, Bool.true_and,
    Bool.or_eq_true, decide_eq_true_eq, hreach]
  exact ⟨fun hor => hor.elim (fun heq => heq ▸ .refl) id, .inr⟩

end

end Hierarchy

end ObjectFlow
