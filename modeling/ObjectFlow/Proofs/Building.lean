import ObjectFlow.Program.World
import ObjectFlow.Proofs.Rules
/-!
# What can be built

A hierarchy is built by making classes below classes that were made before, by
attaching them, and by declaring members; a body is built by finishing a draft.
So links agree with the declarations of the linked classes, methods are told
apart by their numbers, and the receiver and the parameters of a body belong to
its method. That its statements use no variables of other methods is another
matter, which nothing checks while they are written.
-/

namespace ObjectFlow

/-! ## Hierarchies -/

namespace Hierarchy

/-- The class was made in the hierarchy. -/
def Made (h : Hierarchy) (c : ClassRef) : Prop := ∃ d, h.decl? c = some d ∧ d.ref = c

/-- The hierarchies that declarations lead to. -/
inductive Built : Hierarchy → Prop
  | empty : Built .empty
  | makeClass {h : Hierarchy} {name : String} {superclass : Option ClassRef}
      {interfaces : List ClassRef} {isInterface isAbstract : Bool} (built : Built h)
      (super : ∀ c, superclass = some c → h.Made c) (above : ∀ c ∈ interfaces, h.Made c) :
      Built (h.makeClass name superclass interfaces isInterface isAbstract).2
  | attach {h : Hierarchy} {c : ClassRef} (built : Built h) (made : h.Made c) :
      Built (h.attach c).2
  | addMethod {h : Hierarchy} {c : ClassRef} {s : Signature} {isStatic isAbstract isNative : Bool}
      (built : Built h) (made : h.Made c) :
      Built (h.addMethod c s isStatic isAbstract isNative).2
  | addField {h : Hierarchy} {c : ClassRef} {name : String} {type : Ty} {isStatic : Bool}
      (built : Built h) (made : h.Made c) : Built (h.addField c name type isStatic).2

/-- A link and the declarations of its ends: it stands for a superclass, or for an interface of a
class or of an interface. -/
def Linked (h : Hierarchy) (upper lower : ClassRef) (k : Link) : Prop :=
  (k = .inherits ∧ h.superclass? lower = some upper) ∨
    (h.isInterface upper ∧ k = if h.isInterface lower then .inherits else .implements)

/-- Links agree with the declarations of classes that were made. -/
structure Consistent (h : Hierarchy) : Prop where
  known : ∀ c ∈ h.nodes, h.Made c
  ends : ∀ {u l k}, h.links.get? (u, l) = some k → u ∈ h.nodes ∧ l ∈ h.nodes
  linked : ∀ {u l k}, h.links.get? (u, l) = some k → h.Linked u l k
  above : ∀ {c d}, h.decl? c = some d → (∀ s, d.superclass = some s → h.Made s) ∧
    ∀ i ∈ d.interfaces, h.Made i

/-- The method is declared in some class. -/
def Declares (h : Hierarchy) (m : Method) : Prop := ∃ c s, h.declaredMethod? c s = some m

/-- Declared methods are told apart by numbers below the count. -/
structure Numbered (h : Hierarchy) : Prop where
  lt : ∀ {m}, h.Declares m → m.id < h.methodCount
  unique : ∀ {m m'}, h.Declares m → h.Declares m' → m.id = m'.id → m = m'

/-- The declarations of two hierarchies agree but for members. -/
structure SameClasses (h h' : Hierarchy) : Prop where
  superclass : ∀ c, h.Made c → h'.superclass? c = h.superclass? c
  isInterface : ∀ c, h.Made c → h'.isInterface c = h.isInterface c
  made : ∀ c, h.Made c → h'.Made c

variable {h h' : Hierarchy}

theorem Linked.congr {u l : ClassRef} {k : Link} (hs : SameClasses h h') (hu : h.Made u)
    (hl : h.Made l) (hk : h.Linked u l k) : h'.Linked u l k := by
  rw [Linked, hs.superclass l hl, hs.isInterface u hu, hs.isInterface l hl]
  exact hk

/-! ### Making a class -/

theorem decl?_makeClass (h : Hierarchy) (name : String) (superclass : Option ClassRef)
    (interfaces : List ClassRef) (isInterface isAbstract : Bool) (c : ClassRef) :
    (h.makeClass name superclass interfaces isInterface isAbstract).2.decl? c =
      if c.id = h.classes.length then
        some ⟨⟨h.classes.length, name⟩, superclass, interfaces, isInterface,
          isAbstract || isInterface, ∅, ∅⟩
      else h.decl? c := by
  simp only [makeClass, decl?, List.getElem?_append]
  split
  · rename_i hlt
    rw [if_neg (Nat.ne_of_lt hlt)]
  · rename_i hge
    split
    · rename_i heq
      simp [heq]
    · rename_i hne
      have hout : c.id - h.classes.length ≠ 0 := by omega
      have hlen : h.classes.length ≤ c.id := by omega
      simp [hout, hlen]

theorem Made.id_lt {c : ClassRef} (hc : h.Made c) : c.id < h.classes.length := by
  obtain ⟨d, hd, -⟩ := hc
  exact (List.getElem?_eq_some_iff.1 hd).1

theorem makeClass_same (h : Hierarchy) (name : String) (superclass : Option ClassRef)
    (interfaces : List ClassRef) (isInterface isAbstract : Bool) :
    SameClasses h (h.makeClass name superclass interfaces isInterface isAbstract).2 := by
  have hold : ∀ c, h.Made c →
      (h.makeClass name superclass interfaces isInterface isAbstract).2.decl? c = h.decl? c := by
    intro c hc
    rw [decl?_makeClass, if_neg (Nat.ne_of_lt hc.id_lt)]
  refine ⟨fun c hc => ?_, fun c hc => ?_, fun c hc => ?_⟩
  · rw [superclass?, hold c hc, superclass?]
  · rw [Hierarchy.isInterface, hold c hc, Hierarchy.isInterface]
  · rw [Made, hold c hc]
    exact hc

theorem Consistent.makeClass {name : String} {superclass : Option ClassRef}
    {interfaces : List ClassRef} {isInterface isAbstract : Bool} (hc : h.Consistent)
    (hs : ∀ c, superclass = some c → h.Made c) (hi : ∀ c ∈ interfaces, h.Made c) :
    (h.makeClass name superclass interfaces isInterface isAbstract).2.Consistent := by
  have same := makeClass_same h name superclass interfaces isInterface isAbstract
  refine ⟨fun c hn => ?_, fun hk => hc.ends hk, fun hk => ?_, fun {c d} hd => ?_⟩
  · exact same.made c (hc.known c hn)
  · obtain ⟨hu, hl⟩ := hc.ends hk
    exact (hc.linked hk).congr same (hc.known _ hu) (hc.known _ hl)
  · rw [decl?_makeClass] at hd
    split at hd
    · obtain rfl := Option.some.inj hd
      exact ⟨fun s he => same.made s (hs s he), fun i hin => same.made i (hi i hin)⟩
    · obtain ⟨h1, h2⟩ := hc.above hd
      exact ⟨fun s he => same.made s (h1 s he), fun i hin => same.made i (h2 i hin)⟩

theorem made_makeClass (h : Hierarchy) (name : String) (superclass : Option ClassRef)
    (interfaces : List ClassRef) (isInterface isAbstract : Bool) :
    (h.makeClass name superclass interfaces isInterface isAbstract).2.Made
      (h.makeClass name superclass interfaces isInterface isAbstract).1 := by
  rw [Made, decl?_makeClass, makeClass]
  exact ⟨_, if_pos rfl, rfl⟩

theorem Built.addClass {name : String} {superclass : Option ClassRef}
    {interfaces : List ClassRef} {isInterface isAbstract : Bool} (hb : h.Built)
    (hs : ∀ c, superclass = some c → h.Made c) (hi : ∀ c ∈ interfaces, h.Made c) :
    (h.addClass name superclass interfaces isInterface isAbstract).2.Built := by
  unfold Hierarchy.addClass
  split
  · exact hb
  · exact .attach (.makeClass hb hs hi)
      (made_makeClass h name superclass interfaces isInterface isAbstract)

/-- A class with nothing above it. -/
theorem Built.addRoot {name : String} {isInterface isAbstract : Bool} (hb : h.Built) :
    (h.addClass name none [] isInterface isAbstract).2.Built := by
  apply hb.addClass
  · intro c hc
    cases hc
  · intro c hc
    cases hc

/-! ### Attaching a class -/

/-- A link between two classes that were made, of the kind that their declarations ask for. -/
theorem Consistent.link {u l : ClassRef} {k : Link} (hc : h.Consistent) (hu : h.Made u)
    (hl : h.Made l) (hk : h.Linked u l k) : (h.link u l k).Consistent where
  known c hn := by
    rcases OrderedSet.mem_insert.1 hn with hn | rfl
    · rcases OrderedSet.mem_insert.1 hn with hn | rfl
      · exact hc.known c hn
      · exact hu
    · exact hl
  ends {a b k'} hk' := by
    have hmem : ∀ c, c ∈ h.nodes ∨ c = u ∨ c = l → c ∈ (h.nodes.insert u).insert l := by
      intro c hor
      simpa only [OrderedSet.mem_insert, or_assoc] using hor
    rw [Hierarchy.link, OrderedMap.get?_insert] at hk'
    split at hk'
    · rename_i heq
      obtain ⟨rfl, rfl⟩ := Prod.mk.inj heq
      exact ⟨hmem _ (.inr (.inl rfl)), hmem _ (.inr (.inr rfl))⟩
    · obtain ⟨ha, hb⟩ := hc.ends hk'
      exact ⟨hmem _ (.inl ha), hmem _ (.inl hb)⟩
  linked {a b k'} hk' := by
    rw [Hierarchy.link, OrderedMap.get?_insert] at hk'
    split at hk'
    · rename_i heq
      obtain ⟨rfl, rfl⟩ := Prod.mk.inj heq
      obtain rfl := Option.some.inj hk'
      exact hk
    · exact hc.linked hk'
  above hd := hc.above hd

theorem Consistent.linkInterfaces {c : ClassRef} {is : List ClassRef} (hc : h.Consistent)
    (hm : h.Made c) (his : ∀ i ∈ is, h.Made i) :
    (h.linkInterfaces c (if h.isInterface c then .inherits else .implements) is).2.Consistent := by
  induction is generalizing h with
  | nil => exact hc
  | cons i is ih =>
    rw [Hierarchy.linkInterfaces]
    split
    · rename_i hi
      have hnext := hc.link (his i List.mem_cons_self) hm (.inr ⟨hi, rfl⟩)
      exact ih hnext hm fun j hj => his j (List.mem_cons_of_mem _ hj)
    · exact hc

theorem Consistent.attach {c : ClassRef} (hc : h.Consistent) (hm : h.Made c) :
    (h.attach c).2.Consistent := by
  unfold Hierarchy.attach
  split
  · exact hc
  · have hnamed : { h with
        names := h.names.insert c.name c
        nodes := h.nodes.insert c }.Consistent := by
      refine ⟨fun d hn => ?_, fun hk => ?_, fun hk => hc.linked hk, fun hd => hc.above hd⟩
      · rcases OrderedSet.mem_insert.1 hn with hn | rfl
        · exact hc.known d hn
        · exact hm
      · obtain ⟨hu, hl⟩ := hc.ends hk
        exact ⟨OrderedSet.mem_insert.2 (.inl hu), OrderedSet.mem_insert.2 (.inl hl)⟩
    obtain ⟨d, hd, href⟩ := hm
    obtain ⟨hsuper, hinter⟩ := hc.above hd
    have hm : h.Made c := ⟨d, hd, href⟩
    have his : ∀ i ∈ ((h.decl? c).map ClassDecl.interfaces).getD [], h.Made i := by
      rw [hd]
      exact hinter
    dsimp only
    cases hs : h.superclass? c with
    | none => exact hnamed.linkInterfaces hm his
    | some s =>
      have hmade : h.Made s := by
        rw [superclass?, hd] at hs
        exact hsuper s hs
      exact Consistent.linkInterfaces (hnamed.link hmade hm (.inl ⟨rfl, hs⟩)) hm his

/-! ### Declaring members -/

theorem decl?_modifyDecl (h : Hierarchy) (c c' : ClassRef) (f : ClassDecl → ClassDecl) :
    (h.modifyDecl c f).decl? c' = if c'.id = c.id then (h.decl? c').map f else h.decl? c' := by
  simp only [modifyDecl, decl?, List.getElem?_modify, eq_comm (a := c'.id)]
  split <;> simp

/-- A change of a declaration that concerns its members alone. -/
def OnlyMembers (f : ClassDecl → ClassDecl) : Prop :=
  ∀ d, (f d).ref = d.ref ∧ (f d).superclass = d.superclass ∧ (f d).interfaces = d.interfaces ∧
    (f d).isInterface = d.isInterface

theorem modifyDecl_same {f : ClassDecl → ClassDecl} (c : ClassRef) (hf : OnlyMembers f) :
    SameClasses h (h.modifyDecl c f) := by
  refine ⟨fun c' _ => ?_, fun c' _ => ?_, fun c' hm => ?_⟩
  · rw [superclass?, decl?_modifyDecl, superclass?]
    split
    · cases h.decl? c' <;> simp [(hf _).2.1]
    · rfl
  · rw [isInterface, decl?_modifyDecl, isInterface]
    split
    · cases h.decl? c' <;> simp [(hf _).2.2.2]
    · rfl
  · obtain ⟨d, hd, hr⟩ := hm
    rw [Made, decl?_modifyDecl, hd]
    split
    · exact ⟨f d, rfl, (hf d).1.trans hr⟩
    · exact ⟨d, rfl, hr⟩

/-- The declaration before the change had the same classes above it. -/
theorem decl?_of_modifyDecl {f : ClassDecl → ClassDecl} {c c' : ClassRef} {d : ClassDecl}
    (hf : OnlyMembers f) (hd : (h.modifyDecl c f).decl? c' = some d) :
    ∃ d₀, h.decl? c' = some d₀ ∧ d.superclass = d₀.superclass ∧ d.interfaces = d₀.interfaces := by
  rw [decl?_modifyDecl] at hd
  split at hd
  · obtain ⟨d₀, hd₀, rfl⟩ := Option.map_eq_some_iff.1 hd
    exact ⟨d₀, hd₀, (hf d₀).2.1, (hf d₀).2.2.1⟩
  · exact ⟨d, hd, rfl, rfl⟩

theorem Consistent.modifyDecl {f : ClassDecl → ClassDecl} (hc : h.Consistent) (c : ClassRef)
    (hf : OnlyMembers f) : (h.modifyDecl c f).Consistent := by
  have same := modifyDecl_same (h := h) c hf
  refine ⟨fun c' hn => ?_, fun hk => hc.ends hk, fun hk => ?_, fun {c' d} hd => ?_⟩
  · exact same.made c' (hc.known c' hn)
  · obtain ⟨hu, hl⟩ := hc.ends hk
    exact (hc.linked hk).congr same (hc.known _ hu) (hc.known _ hl)
  · obtain ⟨d₀, hd₀, hs, hi⟩ := decl?_of_modifyDecl hf hd
    obtain ⟨h1, h2⟩ := hc.above hd₀
    rw [hs, hi]
    exact ⟨fun s he => same.made s (h1 s he), fun i hin => same.made i (h2 i hin)⟩

theorem Consistent.withCounts (hc : h.Consistent) (methodCount fieldCount : Nat) :
    { h with methodCount := methodCount, fieldCount := fieldCount }.Consistent :=
  ⟨hc.known, hc.ends, hc.linked, hc.above⟩

/-- What holds at first, and is kept when a class is made, attached or given a member, holds of all
hierarchies that are built. -/
theorem Built.preserves {P : Hierarchy → Prop} (hb : h.Built) (hempty : P .empty)
    (hmake : ∀ {h : Hierarchy} (name : String) (superclass : Option ClassRef)
      (interfaces : List ClassRef) (isInterface isAbstract : Bool), h.Built → P h →
      (∀ c, superclass = some c → h.Made c) → (∀ c ∈ interfaces, h.Made c) →
      P (h.makeClass name superclass interfaces isInterface isAbstract).2)
    (hattach : ∀ {h : Hierarchy} (c : ClassRef), h.Built → P h → h.Made c → P (h.attach c).2)
    (hmember : ∀ {h : Hierarchy} {f : ClassDecl → ClassDecl} (c : ClassRef)
      (methodCount fieldCount : Nat), h.Built → P h → OnlyMembers f →
      P { h.modifyDecl c f with methodCount := methodCount, fieldCount := fieldCount }) : P h := by
  induction hb with
  | empty => exact hempty
  | makeClass built super above ih => exact hmake _ _ _ _ _ built ih super above
  | attach built made ih => exact hattach _ built ih made
  | @addMethod h c s isStatic isAbstract isNative built _ ih =>
    exact hmember (f := fun d => { d with
      methods := d.methods.insert s ⟨h.methodCount, c, s, isStatic, isAbstract, isNative⟩ })
      c _ _ built ih fun d => ⟨rfl, rfl, rfl, rfl⟩
  | @addField h c name type isStatic built _ ih =>
    exact hmember (f := fun d => { d with
      fields := d.fields.insert name ⟨h.fieldCount, c, name, type, isStatic⟩ })
      c _ _ built ih fun d => ⟨rfl, rfl, rfl, rfl⟩

theorem Built.consistent (hb : h.Built) : h.Consistent := by
  refine hb.preserves ⟨fun c hn => ?_, fun hk => ?_, fun hk => ?_, fun hd => ?_⟩
    (fun _ _ _ _ _ _ hc super above => hc.makeClass super above)
    (fun _ _ hc made => hc.attach made)
    (fun c _ _ _ hc hf => (hc.modifyDecl c hf).withCounts _ _)
  · exact absurd hn (OrderedSet.not_mem_empty c)
  · simp [Hierarchy.empty] at hk
  · simp [Hierarchy.empty] at hk
  · simp [Hierarchy.empty, decl?] at hd

/-! ### Numbers of methods -/

theorem Numbered.mono (hn : h.Numbered) (hm : ∀ m, h'.Declares m → h.Declares m)
    (hc : h'.methodCount = h.methodCount) : h'.Numbered where
  lt hd := by
    rw [hc]
    exact hn.lt (hm _ hd)
  unique hd hd' := hn.unique (hm _ hd) (hm _ hd')

theorem attach_classes (h : Hierarchy) (c : ClassRef) :
    (h.attach c).2.classes = h.classes ∧ (h.attach c).2.methodCount = h.methodCount := by
  have hlinks : ∀ (is : List ClassRef) (k : Link) (h : Hierarchy),
      (h.linkInterfaces c k is).2.classes = h.classes ∧
        (h.linkInterfaces c k is).2.methodCount = h.methodCount := by
    intro is k
    induction is with
    | nil => exact fun h => ⟨rfl, rfl⟩
    | cons i is ih =>
      intro h
      rw [linkInterfaces]
      split
      · exact ih _
      · exact ⟨rfl, rfl⟩
  unfold attach
  split
  · exact ⟨rfl, rfl⟩
  · dsimp only
    cases h.superclass? c with
    | none => exact hlinks _ _ _
    | some s => exact hlinks _ _ _

/-- A declared method was declared before or is the new one, whose number is the next. -/
theorem declares_addMethod {c : ClassRef} {s : Signature} {isStatic isAbstract isNative : Bool}
    {m : Method} (hm : (h.addMethod c s isStatic isAbstract isNative).2.Declares m) :
    h.Declares m ∨ m = ⟨h.methodCount, c, s, isStatic, isAbstract, isNative⟩ := by
  obtain ⟨c', s', hm⟩ := hm
  change ((h.modifyDecl c _).decl? c').bind _ = some m at hm
  rw [decl?_modifyDecl] at hm
  split at hm
  · cases hd : h.decl? c' with
    | none => simp [hd] at hm
    | some d =>
      rw [hd] at hm
      simp only [Option.map_some, Option.bind_some, OrderedMap.get?_insert] at hm
      split at hm
      · exact .inr (Option.some.inj hm).symm
      · exact .inl ⟨c', s', by rw [declaredMethod?, hd]; exact hm⟩
  · exact .inl ⟨c', s', hm⟩

theorem declares_modifyDecl {f : ClassDecl → ClassDecl} {c : ClassRef}
    (hf : ∀ d, (f d).methods = d.methods) {m : Method} (hm : (h.modifyDecl c f).Declares m) :
    h.Declares m := by
  obtain ⟨c', s', hm⟩ := hm
  refine ⟨c', s', ?_⟩
  rw [declaredMethod?, decl?_modifyDecl] at hm
  rw [declaredMethod?]
  split at hm
  · cases hd : h.decl? c' with
    | none => simp [hd] at hm
    | some d =>
      rw [hd] at hm
      simpa [hf] using hm
  · exact hm

theorem Built.numbered (hb : h.Built) : h.Numbered := by
  induction hb with
  | empty =>
    have hno : ∀ m, ¬ Hierarchy.empty.Declares m := by
      rintro m ⟨c, s, hm⟩
      simp [declaredMethod?, decl?, Hierarchy.empty] at hm
    exact ⟨fun hm => absurd hm (hno _), fun hm => absurd hm (hno _)⟩
  | makeClass _ _ _ ih =>
    refine ih.mono (fun m hm => ?_) rfl
    obtain ⟨c, s, hm⟩ := hm
    rw [declaredMethod?, decl?_makeClass] at hm
    split at hm
    · simp at hm
    · exact ⟨c, s, hm⟩
  | @attach h c _ _ ih =>
    obtain ⟨hcl, hcount⟩ := attach_classes h c
    refine ih.mono (fun m hm => ?_) hcount
    obtain ⟨c', s, hm⟩ := hm
    rw [declaredMethod?, decl?, hcl] at hm
    exact ⟨c', s, hm⟩
  | @addMethod h c s _ _ _ _ _ ih =>
    constructor
    · intro m hm
      rcases declares_addMethod hm with hm | rfl
      · exact Nat.lt_succ_of_lt (ih.lt hm)
      · exact Nat.lt_succ_self _
    · intro m m' hm hm' heq
      rcases declares_addMethod hm with hm | rfl <;> rcases declares_addMethod hm' with hm' | rfl
      · exact ih.unique hm hm' heq
      · exact absurd heq (Nat.ne_of_lt (ih.lt hm))
      · exact absurd heq.symm (Nat.ne_of_lt (ih.lt hm'))
      · rfl
  | @addField h c name type isStatic _ _ ih =>
    refine ih.mono (fun m hm => declares_modifyDecl (c := c) (f := fun d => { d with
      fields := d.fields.insert name ⟨h.fieldCount, c, name, type, isStatic⟩ }) ?_ hm) rfl
    exact fun d => rfl

end Hierarchy

/-! ## Bodies -/

def FieldAccess.mentions : FieldAccess → List Var
  | static _ => []
  | onObject b _ => [b]

def Expr.mentions : Expr → List Var
  | var v => [v]
  | literal _ | alloc _ => []
  | binary _ l r => l.mentions ++ r.mentions
  | field a => a.mentions
  | element b i => b :: i.mentions

/-- All variables that a command mentions. -/
def Command.mentions {τ : Type} : Command τ → List Var
  | alloc v _ | literal v _ => [v]
  | copy v w => [v, w]
  | binary v _ l r => v :: (l.mentions ++ r.mentions)
  | loadField v a | storeField a v => v :: a.mentions
  | loadElement v b i | storeElement b i v => v :: b :: i.mentions
  | invoke r c => r.toList ++ c.base?.toList ++ c.args
  | ret r => r.toList
  | branch _ l r _ => l.mentions ++ r.mentions
  | goto _ | nop | foreign _ _ => []

namespace Draft

/-- The drafts that writing leads to. -/
inductive Built : Draft → Prop
  | start {m : Method} {names : Option (List String)} {d : Draft}
      (started : Draft.start m names = .ok d) : Built d
  | addVar {d : Draft} {name : String} {type : Ty} (built : Built d) :
      Built (d.addVar name type).2
  | append {d d' : Draft} {c : Command String} (built : Built d)
      (appended : d.append c = .ok d') : Built d'
  | mark {d d' : Draft} {label : String} (built : Built d) (marked : d.mark label = .ok d') :
      Built d'
  | finish {d : Draft} (built : Built d) : Built d.finish.2

/-- The receiver and the parameters of a draft belong to its method. -/
structure Own (d : Draft) : Prop where
  receiver : ∀ v, d.receiver = some v → v.method = d.method
  params : ∀ v ∈ d.params, v.method = d.method

variable {d d' : Draft}

/-! ### What a step of writing leads to -/

theorem start_eq_ok {m : Method} {names : Option (List String)} (h : start m names = .ok d) :
    ∃ params : List Var, (∀ v ∈ params, v.method = m) ∧
      d = ⟨m, receiverOf m, params, (receiverOf m).toList ++ params, [], ∅, false⟩ := by
  unfold start at h
  dsimp only at h
  split at h
  · cases h
  · refine ⟨_, fun v hv => ?_, (Except.ok.inj h).symm⟩
    obtain ⟨i, hi, rfl⟩ := List.mem_mapIdx.1 hv
    rfl

theorem append_eq_ok {c : Command String} (h : d.append c = .ok d') :
    d' = { d with commands := d.commands ++ [c] } := by
  unfold append at h
  split at h
  · cases h
  · exact (Except.ok.inj h).symm

theorem mark_eq_ok {label : String} (h : d.mark label = .ok d') :
    d' = { d with marks := d.marks.insert label d.commands.length } := by
  unfold mark at h
  split at h
  · cases h
  · exact (Except.ok.inj h).symm

theorem finish_eq_ok {b : Body} (h : d.finish = (.ok b, d')) :
    ∃ cs, d.closeMarks.closeEnd.resolve = .ok cs ∧
      b = ⟨d.method, d.receiver, d.params, d.vars, place d.method cs⟩ := by
  unfold finish at h
  split at h
  · cases h
  · dsimp only at h
    split at h
    · cases h
    · rename_i cs hcs
      exact ⟨cs, hcs, (Except.ok.inj (Prod.mk.inj h).1).symm⟩

/-- The commands that finishing puts behind those of a draft: one for labels that are marked there,
and a return if control would run off the end. -/
def closing (d : Draft) : List (Command String) :=
  if d.marks.values.any fun i => decide (i = d.commands.length) then [.nop, .ret none]
  else if d.runsOff then [.ret none] else []

/-- The draft with these commands. -/
def closed (d : Draft) : Draft := { d with commands := d.commands ++ d.closing }

theorem closeEnd_closeMarks (d : Draft) : d.closeMarks.closeEnd = d.closed := by
  unfold closeMarks closed closing
  split
  · -- control goes on behind the command that was put there
    have hoff : Draft.runsOff { d with commands := d.commands ++ [.nop] } = true := by
      simp [runsOff, Command.fallsThrough]
    rw [closeEnd, if_pos hoff]
    simp
  · unfold closeEnd
    split <;> simp

/-- Finishing, be it refused or not, at most puts commands behind those of a draft. -/
theorem finish_leaves (d : Draft) : ∃ cs finished,
    d.finish.2 = { d with commands := d.commands ++ cs, finished := finished } := by
  unfold finish
  rw [closeEnd_closeMarks]
  split
  · exact ⟨[], d.finished, by simp⟩
  · dsimp only
    split <;> exact ⟨d.closing, _, rfl⟩

/-! ### Variables -/

theorem own_of_start {m : Method} {names : Option (List String)}
    (h : Draft.start m names = .ok d) : d.Own := by
  obtain ⟨params, hparams, rfl⟩ := start_eq_ok h
  refine ⟨fun v hv => ?_, hparams⟩
  simp only [receiverOf] at hv
  split at hv
  · cases hv
  · obtain rfl := Option.some.inj hv
    rfl

theorem Built.own (hb : d.Built) : d.Own := by
  induction hb with
  | start h => exact own_of_start h
  | addVar _ ih => exact ⟨ih.receiver, ih.params⟩
  | append _ happ ih =>
    obtain rfl := append_eq_ok happ
    exact ⟨ih.receiver, ih.params⟩
  | mark _ hmark ih =>
    obtain rfl := mark_eq_ok hmark
    exact ⟨ih.receiver, ih.params⟩
  | @finish d _ ih =>
    obtain ⟨cs, finished, hleaves⟩ := finish_leaves d
    rw [hleaves]
    exact ⟨ih.receiver, ih.params⟩

/-- Commands are appended one after the other. -/
theorem Built.appendAll {cs : List (Command String)} (hb : d.Built) (hopen : d.finished = false) :
    Built { d with commands := d.commands ++ cs } := by
  induction cs generalizing d with
  | nil => rwa [List.append_nil]
  | cons c cs ih =>
    have happ : d.append c = .ok { d with commands := d.commands ++ [c] } := by
      unfold Draft.append
      rw [hopen]
      rfl
    have hrest := ih (hb.append happ) hopen
    rwa [List.append_assoc] at hrest

end Draft

namespace Body

/-- The bodies that finished drafts give, perhaps with foreign commands put in front. -/
inductive Built : Body → Prop
  | finish {d d' : Draft} {b : Body} (built : d.Built) (finished : d.finish = (.ok b, d')) : Built b
  | foreign {b : Body} {name : String} (built : Built b) :
      Built { b with stmts := ⟨⟨-1, -1, b.method⟩, .foreign name b.stmts.length⟩ :: b.stmts }

/-- The receiver, the parameters and the places of a body belong to its method. -/
structure Own (b : Body) : Prop where
  receiver : ∀ v, b.receiver = some v → v.method = b.method
  params : ∀ v ∈ b.params, v.method = b.method
  place : ∀ s ∈ b.stmts, s.place.method = b.method

variable {b : Body}

theorem Built.own (hb : b.Built) : b.Own := by
  induction hb with
  | finish hd hfin =>
    obtain ⟨cs, -, rfl⟩ := Draft.finish_eq_ok hfin
    refine ⟨hd.own.receiver, hd.own.params, fun s hs => ?_⟩
    obtain ⟨i, hi, rfl⟩ := List.mem_mapIdx.1 hs
    rfl
  | foreign _ ih =>
    refine ⟨ih.receiver, ih.params, fun s hs => ?_⟩
    rcases List.mem_cons.1 hs with rfl | hs
    · rfl
    · exact ih.place s hs

end Body

/-! ## Programs -/

namespace Program

/-- The programs that can be built: each method with a body has one that was written for it. -/
structure Built (p : Program) : Prop where
  hierarchy : p.hierarchy.Built
  body : ∀ {m b}, p.body? m = some b → b.Built
  method : ∀ {m b}, p.body? m = some b → b.method = m

variable {p : Program}

/-- A body and what belongs to its method. -/
theorem Built.own (hp : p.Built) {m : Method} {b : Body} (hb : p.body? m = some b) : b.Own :=
  (hp.body hb).own

/-- Statements are placed in the method whose body they stand in. -/
theorem Built.placed (hp : p.Built) {m : Method} {b : Body} {s : Stmt} (hb : p.body? m = some b)
    (hs : s ∈ b.stmts) : s.place.method = m := by
  rw [← hp.method hb]
  exact (hp.own hb).place s hs

/-- Statements use only variables of the method whose body they stand in. -/
def Scoped (p : Program) : Prop :=
  ∀ e ∈ p.bodies.entries, ∀ s ∈ e.2.stmts, ∀ v ∈ s.command.mentions, v.method = e.1

instance : DecidablePred Scoped := fun p => inferInstanceAs (Decidable
  (∀ e ∈ p.bodies.entries, ∀ s ∈ e.2.stmts, ∀ v ∈ s.command.mentions, v.method = e.1))

theorem Scoped.method (hp : p.Scoped) {m : Method} {b : Body} {s : Stmt} {v : Var}
    (hb : p.body? m = some b) (hs : s ∈ b.stmts) (hv : v ∈ s.command.mentions) : v.method = m :=
  hp (m, b) (OrderedMap.mem_entries_iff.2 hb) s hs v hv

/-- A program stays built when a foreign command is put in front of a body. -/
theorem Built.insertForeign (hp : p.Built) (m : Method) (name : String) :
    (p.insertForeign m name).Built := by
  unfold Program.insertForeign
  cases hb : p.body? m with
  | none => exact hp
  | some b =>
    obtain rfl := hp.method hb
    have hget : ∀ {m' b'}, (p.bodies.insert b.method { b with
        stmts := ⟨⟨-1, -1, b.method⟩, .foreign name b.stmts.length⟩ :: b.stmts }).get? m' =
        some b' → b'.Built ∧ b'.method = m' := by
      intro m' b' hm'
      rw [OrderedMap.get?_insert] at hm'
      split at hm'
      · rename_i heq
        obtain rfl := Option.some.inj hm'
        exact ⟨.foreign (hp.body hb), heq.symm⟩
      · exact ⟨hp.body hm', hp.method hm'⟩
    exact ⟨hp.hierarchy, fun hm => (hget hm).1, fun hm => (hget hm).2⟩

end Program

end ObjectFlow
