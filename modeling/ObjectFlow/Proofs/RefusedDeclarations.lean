import ObjectFlow.Proofs.Inheritance
/-!
# Refused declarations

A class is refused if its name is taken or if one of its interfaces is none, and the
body of a method if its parameters cannot be named as told. In the first case nothing
has been done by then. In the others the class has been named and linked below its
superclass and some of its interfaces, or the method has been declared.
-/

namespace ObjectFlow

/-! ## Declaring -/

/-- What can be asked of a program that is being built, and be refused. -/
inductive Declaration where
  | newClass (name : String) (superclass : Option ClassRef) (interfaces : List ClassRef)
      (isInterface isAbstract : Bool)
  | attach (c : ClassRef)
  | method (c : ClassRef) (s : Signature) (isStatic : Bool) (names : Option (List String))

inductive Refusal where
  | ofClass (e : DeclarationError)
  | ofMethod (e : DraftError)

/-- The name of the class is taken. -/
def Refusal.IsTaken (e : Refusal) : Prop := ∃ name, e = .ofClass (.alreadyDefined name)

/-- What is declared stands below classes that were made, or in one. -/
def Declaration.Rests (h : Hierarchy) : Declaration → Prop
  | newClass _ superclass interfaces _ _ =>
    (∀ c, superclass = some c → h.Made c) ∧ ∀ c ∈ interfaces, h.Made c
  | attach c | method c _ _ _ => h.Made c

namespace ProgramDraft

def declare (p : ProgramDraft) : Declaration → Except Refusal Unit × ProgramDraft
  | .newClass name superclass interfaces isInterface isAbstract =>
    let added := p.hierarchy.addClass name superclass interfaces isInterface isAbstract
    ((added.1.map fun _ => ()).mapError .ofClass, p.setHierarchy added.2)
  | .attach c =>
    let attached := p.hierarchy.attach c
    (attached.1.mapError .ofClass, p.setHierarchy attached.2)
  | .method c s isStatic names =>
    let begun := p.beginMethod c s isStatic names
    ((begun.1.map fun _ => ()).mapError .ofMethod, begun.2)

/-- Nothing that was declared, linked or begun before has changed, and nothing more has been named,
linked or begun. -/
structure AsBefore (p p' : ProgramDraft) : Prop where
  names : p'.hierarchy.names = p.hierarchy.names
  nodes : p'.hierarchy.nodes = p.hierarchy.nodes
  links : p'.hierarchy.links = p.hierarchy.links
  classes : ∀ c, p.hierarchy.Made c → p'.hierarchy.decl? c = p.hierarchy.decl? c
  bodies : p'.program.bodies = p.program.bodies
  drafts : p'.drafts = p.drafts

end ProgramDraft

namespace Hierarchy

variable {h : Hierarchy} {c i : ClassRef} {k : Link} {is : List ClassRef} {e : DeclarationError}

/-! ## Classes -/

/-- The class has been named, and linked below its superclass and the interfaces before one that is
none, but below nothing else. -/
structure HalfLinked (h h' : Hierarchy) (c : ClassRef) : Prop where
  free : h.class? c.name = none
  named : h'.class? c.name = some c
  below : ∃ before i after, h.interfaces c = before ++ i :: after ∧
    (∀ j ∈ before, h.isInterface j) ∧ h.isInterface i = false ∧
    ∀ u d, d ∈ h'.below u ↔ d ∈ h.below u ∨ (d = c ∧ (h.superclass? c = some u ∨ u ∈ before))

/-- Linking stops at the first interface that is none. -/
theorem linkInterfaces_error (h : Hierarchy) (he : (h.linkInterfaces c k is).1 = .error e) :
    ∃ before i after, is = before ++ i :: after ∧ e = .notAnInterface i ∧
      (∀ j ∈ before, h.isInterface j) ∧ h.isInterface i = false ∧
      ∀ u d, d ∈ (h.linkInterfaces c k is).2.below u ↔ d ∈ h.below u ∨ (d = c ∧ u ∈ before) := by
  induction is generalizing h with
  | nil => cases he
  | cons j is ih =>
    rw [linkInterfaces] at he ⊢
    split at he
    · rename_i hj
      rw [if_pos hj]
      obtain ⟨before, i, after, rfl, hi, hbefore, hnone, hbelow⟩ := ih (h.link j c k) he
      refine ⟨j :: before, i, after, rfl, hi, List.forall_mem_cons.2 ⟨hj, hbefore⟩, hnone,
        fun u d => ?_⟩
      rw [hbelow, below_link, List.mem_cons]
      tauto
    · rename_i hj
      rw [if_neg hj]
      obtain rfl := Except.error.inj he
      exact ⟨[], j, is, rfl, rfl, List.forall_mem_nil _, Bool.eq_false_iff.2 hj,
        fun u d => by simp⟩

/-- A class that cannot be attached has its name taken, or is left linked in part. -/
theorem attach_error (he : (h.attach c).1 = .error e) :
    (h.names.contains c.name ∧ e = .alreadyDefined c.name ∧ (h.attach c).2 = h) ∨
      (∃ i, e = .notAnInterface i) ∧ h.HalfLinked (h.attach c).2 c := by
  cases hfree : h.names.contains c.name with
  | true =>
    have htaken : h.attach c = (.error (.alreadyDefined c.name), h) := by
      rw [attach, if_pos hfree]
    rw [htaken] at he ⊢
    obtain rfl := Except.error.inj he
    exact .inl ⟨rfl, rfl, rfl⟩
  | false =>
    right
    obtain ⟨k, base, hattach, hclasses, hnames, -, hbase⟩ := attach_of_free hfree
    rw [hattach] at he ⊢
    obtain ⟨before, i, after, his, rfl, hbefore, hi, hbelow⟩ := linkInterfaces_error base he
    refine ⟨⟨i, rfl⟩, ?_, ?_, before, i, after, his, fun j hj => ?_, ?_, fun u d => ?_⟩
    · simpa [class?, OrderedMap.contains] using hfree
    · rw [class?, (extends_linkInterfaces base c k _).names, hnames, OrderedMap.get?_insert,
        if_pos rfl]
    · rw [← isInterface_of_classes hclasses]
      exact hbefore j hj
    · rw [← isInterface_of_classes hclasses]
      exact hi
    · rw [hbelow, hbase]
      tauto

/-- A class that is refused is not made, or is left linked in part. -/
theorem addClass_error {name : String} {superclass : Option ClassRef} {interfaces : List ClassRef}
    {isInterface isAbstract : Bool}
    (he : (h.addClass name superclass interfaces isInterface isAbstract).1 = .error e) :
    (e = .alreadyDefined name ∧
      (h.addClass name superclass interfaces isInterface isAbstract).2 = h) ∨
    (∃ i, e = .notAnInterface i) ∧
      HalfLinked (h.makeClass name superclass interfaces isInterface isAbstract).2
        (h.addClass name superclass interfaces isInterface isAbstract).2
        (h.makeClass name superclass interfaces isInterface isAbstract).1 := by
  cases htaken : h.names.contains name with
  | true =>
    have hadd : h.addClass name superclass interfaces isInterface isAbstract =
        (.error (.alreadyDefined name), h) := by
      rw [addClass, if_pos htaken]
    rw [hadd] at he ⊢
    obtain rfl := Except.error.inj he
    exact .inl ⟨rfl, rfl⟩
  | false =>
    let made := h.makeClass name superclass interfaces isInterface isAbstract
    have hadd : h.addClass name superclass interfaces isInterface isAbstract =
        ((made.2.attach made.1).1.map fun _ => made.1, (made.2.attach made.1).2) := by
      rewrite [addClass, if_neg (by simp [htaken])]
      rfl
    rw [hadd] at he ⊢
    rcases attach_error (eq_error_of_map he) with ⟨hname, -⟩ | hhalf
    · -- making a class takes no name
      have hname : h.names.contains name = true := hname
      rw [htaken] at hname
      cases hname
    · exact .inr hhalf

/-! ## Methods -/

section Methods
variable {s : Signature} {isStatic isAbstract isNative : Bool}

/-- The class answers with the method that was declared last. -/
theorem declaredMethod?_addMethod (hc : h.Made c) :
    (h.addMethod c s isStatic isAbstract isNative).2.declaredMethod? c s =
      some ⟨h.methodCount, c, s, isStatic, isAbstract, isNative⟩ := by
  obtain ⟨d, hd, -⟩ := hc
  change ((h.modifyDecl c _).decl? c).bind _ = _
  rw [decl?_modifyDecl, if_pos rfl, hd]
  simp [OrderedMap.get?_insert]

/-- A call on an object of the class leads to the method that was declared last. -/
theorem dispatch_addMethod (hc : h.Made c) :
    (h.addMethod c s isStatic false isNative).2.dispatch c s =
      some ⟨h.methodCount, c, s, isStatic, false, isNative⟩ := by
  have hlength : (h.addMethod c s isStatic false isNative).2.classes.length = h.classes.length :=
    List.length_modify _ _ _
  obtain ⟨n, hn⟩ := Nat.exists_eq_succ_of_ne_zero (Nat.ne_of_gt (Nat.zero_lt_of_lt hc.id_lt))
  rw [dispatch, superChain, hlength, hn, superChainUpTo, List.findSome?_cons,
    declaredMethod?_addMethod hc]
  rfl

end Methods

end Hierarchy

/-! ## What a refusal leaves -/

namespace ProgramDraft

variable {p p' : ProgramDraft} {d : Declaration} {e : Refusal}

/-- What has been done when a declaration is refused for another reason than its name: a class is
linked in part, or a method is declared without a body and without one being written. -/
def Leaves (p p' : ProgramDraft) : Declaration → Prop
  | .newClass name superclass interfaces isInterface isAbstract =>
    let made := p.hierarchy.makeClass name superclass interfaces isInterface isAbstract
    made.2.HalfLinked p'.hierarchy made.1
  | .attach c => p.hierarchy.HalfLinked p'.hierarchy c
  | .method c s _ _ => ∃ m, ¬ p.hierarchy.Declares m ∧ p'.hierarchy.declaredMethod? c s = some m ∧
    p'.hierarchy.dispatch c s = some m ∧ p'.drafts = p.drafts ∧
    p'.program.bodies = p.program.bodies

/-- A declaration is refused at once if a name is taken, or when something has been done. -/
theorem declare_error (hb : p.hierarchy.Built) (hd : d.Rests p.hierarchy)
    (h : p.declare d = (.error e, p')) :
    (e.IsTaken ∧ p' = p) ∨ (¬ e.IsTaken ∧ p.Leaves p' d) := by
  have hother : ∀ i, ¬ (Refusal.ofClass (.notAnInterface i)).IsTaken := by
    rintro i ⟨name, hname⟩
    cases hname
  cases d with
  | newClass name superclass interfaces isInterface isAbstract =>
    simp only [declare, Prod.mk.injEq] at h
    obtain ⟨he, rfl⟩ := h
    obtain ⟨e', he', rfl⟩ := exists_of_mapError he
    rcases Hierarchy.addClass_error (eq_error_of_map he') with ⟨rfl, hsame⟩ | ⟨⟨i, rfl⟩, hhalf⟩
    · rw [hsame]
      exact .inl ⟨⟨name, rfl⟩, rfl⟩
    · exact .inr ⟨hother i, hhalf⟩
  | attach c =>
    simp only [declare, Prod.mk.injEq] at h
    obtain ⟨he, rfl⟩ := h
    obtain ⟨e', he', rfl⟩ := exists_of_mapError he
    rcases Hierarchy.attach_error he' with ⟨-, rfl, hsame⟩ | ⟨⟨i, rfl⟩, hhalf⟩
    · rw [hsame]
      exact .inl ⟨⟨c.name, rfl⟩, rfl⟩
    · exact .inr ⟨hother i, hhalf⟩
  | method c s isStatic names =>
    simp only [declare, Prod.mk.injEq] at h
    obtain ⟨he, rfl⟩ := h
    obtain ⟨e', he', rfl⟩ := exists_of_mapError he
    refine .inr ⟨nofun, ?_⟩
    have hrefused := eq_error_of_map he'
    rw [beginMethod] at hrefused ⊢
    dsimp only at hrefused ⊢
    split at hrefused
    · refine ⟨_, fun hdecl => ?_, Hierarchy.declaredMethod?_addMethod hd,
        Hierarchy.dispatch_addMethod hd, rfl, rfl⟩
      exact Nat.lt_irrefl _ (hb.numbered.lt hdecl)
    · cases hrefused

/-- What is left is not as before. -/
theorem Leaves.not_asBefore (h : p.Leaves p' d) (hd : d.Rests p.hierarchy) : ¬ p.AsBefore p' := by
  have hhalf : ∀ {h : Hierarchy} {c}, h.HalfLinked p'.hierarchy c →
      h.names = p.hierarchy.names → ¬ p.AsBefore p' := by
    intro h c hhalf hnames hbefore
    have hfree := hhalf.free
    have hnamed := hhalf.named
    rw [Hierarchy.class?, hbefore.names, ← hnames] at hnamed
    rw [Hierarchy.class?, hnamed] at hfree
    cases hfree
  cases d with
  | newClass name superclass interfaces isInterface isAbstract => exact hhalf h rfl
  | attach c => exact hhalf h rfl
  | method c s isStatic names =>
    obtain ⟨m, hnew, hm, -⟩ := h
    intro hbefore
    rw [Hierarchy.declaredMethod?, hbefore.classes c hd] at hm
    exact hnew ⟨c, s, hm⟩

/-- A refused declaration leaves the program as it was exactly if it was refused because a name is
taken. -/
theorem refused_declaration (hb : p.hierarchy.Built) (hd : d.Rests p.hierarchy)
    (h : p.declare d = (.error e, p')) :
    (p' = p ↔ e.IsTaken) ∧ (p.AsBefore p' ↔ e.IsTaken) ∧ (¬ e.IsTaken → p.Leaves p' d) := by
  have hrefl : p.AsBefore p := ⟨rfl, rfl, rfl, fun _ _ => rfl, rfl, rfl⟩
  rcases declare_error hb hd h with ⟨htaken, rfl⟩ | ⟨hfree, hleaves⟩
  · exact ⟨iff_of_true rfl htaken, iff_of_true hrefl htaken, fun hno => absurd htaken hno⟩
  · have hnot := hleaves.not_asBefore hd
    exact ⟨iff_of_false (fun heq => hnot (heq ▸ hrefl)) hfree, iff_of_false hnot hfree,
      fun _ => hleaves⟩

/-! ### Classes and methods that are half declared -/

namespace Half

def a : ClassRef := ⟨0, "A"⟩

def b : ClassRef := ⟨1, "B"⟩

/-- Two classes. -/
def program : ProgramDraft :=
  ((empty.declare (.newClass "A" none [] false false)).2.declare
    (.newClass "B" none [] false false)).2

/-- The second of the classes is not an interface. -/
def newClass : Declaration := .newClass "X" (some a) [b] false false

def signature : Signature := ⟨"m", [.int], .void⟩

/-- There are more names than parameters. -/
def newMethod : Declaration := .method a signature false (some ["n", "k"])

theorem refused_declaration_half :
    (program.hierarchy.Built ∧ newClass.Rests program.hierarchy ∧
      newMethod.Rests program.hierarchy) ∧
    (∃ e p', program.declare newClass = (.error e, p') ∧ p' ≠ program ∧ ¬ program.AsBefore p' ∧
      program.Leaves p' newClass) ∧
    ∃ e p', program.declare newMethod = (.error e, p') ∧ p' ≠ program ∧ ¬ program.AsBefore p' ∧
      program.Leaves p' newMethod := by
  have hbuilt : program.hierarchy.Built := Hierarchy.Built.empty.addRoot.addRoot
  have ha : program.hierarchy.Made a := ⟨_, rfl, rfl⟩
  have hb : program.hierarchy.Made b := ⟨_, rfl, rfl⟩
  have hclass : newClass.Rests program.hierarchy := by
    refine ⟨fun c hc => ?_, fun c hc => ?_⟩
    · obtain rfl := Option.some.inj hc
      exact ha
    · obtain rfl := List.mem_singleton.1 hc
      exact hb
  have hmethod : newMethod.Rests program.hierarchy := ha
  have hfree : ¬ (Refusal.ofClass (.notAnInterface b)).IsTaken := nofun
  have hnames : ¬ (Refusal.ofMethod (.parameterNames ["n", "k"])).IsTaken := nofun
  have hrefused : program.declare newClass =
      (.error (.ofClass (.notAnInterface b)), (program.declare newClass).2) := rfl
  have hrefused' : program.declare newMethod =
      (.error (.ofMethod (.parameterNames ["n", "k"])), (program.declare newMethod).2) := rfl
  obtain ⟨hsame, hbefore, hleaves⟩ := refused_declaration hbuilt hclass hrefused
  obtain ⟨hsame', hbefore', hleaves'⟩ := refused_declaration hbuilt hmethod hrefused'
  exact ⟨⟨hbuilt, hclass, hmethod⟩,
    ⟨_, _, hrefused, mt hsame.1 hfree, mt hbefore.1 hfree, hleaves hfree⟩,
    _, _, hrefused', mt hsame'.1 hnames, mt hbefore'.1 hnames, hleaves' hnames⟩

/-- The refused class has its name and is a subclass, and calls lead to the refused method. -/
theorem refused_declarations_show :
    ((program.declare newClass).1 = .error (.ofClass (.notAnInterface b)) ∧
      program.hierarchy.class? "X" = none ∧ program.hierarchy.directSubclasses a = [] ∧
      (program.declare newClass).2.hierarchy.class? "X" = some ⟨2, "X"⟩ ∧
      (program.declare newClass).2.hierarchy.directSubclasses a = [⟨2, "X"⟩]) ∧
    (program.declare newMethod).1 = .error (.ofMethod (.parameterNames ["n", "k"])) ∧
      program.hierarchy.dispatch a signature = none ∧
      (program.declare newMethod).2.hierarchy.dispatch a signature =
        some ⟨0, a, signature, false, false, false⟩ := by
  exact ⟨⟨rfl, rfl, rfl, rfl, rfl⟩, rfl, rfl, rfl⟩

end Half

end ProgramDraft

end ObjectFlow
