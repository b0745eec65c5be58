import ObjectFlow.Proofs.Inheritance
/-!
# What a virtual call may run

The search for the targets of a virtual call goes through all types below the class
that the call names, each once, and asks each class which method it would run. If
all classes were attached, both the search and the walks up for the methods come to
an end, and what is found are the methods that the subtypes would run.
-/

namespace ObjectFlow

variable {h : Hierarchy} {s : Signature}

/-! ## The walk up -/

namespace Hierarchy

/-- Walking up from a class, if there is one, to the first method of a signature that is not
abstract. -/
inductive Dispatches (h : Hierarchy) (s : Signature) : Option ClassRef → Option Method → Prop
  | top : Dispatches h s none none
  | found {c : ClassRef} {m : Method} (declared : h.declaredMethod? c s = some m)
      (concrete : m.isAbstract = false) : Dispatches h s (some c) (some m)
  | up {c : ClassRef} {r : Option Method}
      (none : ∀ m, h.declaredMethod? c s = some m → m.isAbstract)
      (rest : Dispatches h s (h.superclass? c) r) : Dispatches h s (some c) r

theorem Dispatches.unique {c : Option ClassRef} {r r' : Option Method} (hd : h.Dispatches s c r)
    (hd' : h.Dispatches s c r') : r = r' := by
  induction hd with
  | top =>
    cases hd'
    rfl
  | found hm hc =>
    cases hd' with
    | found hm' _ => exact hm.symm.trans hm'
    | up hnone _ =>
      have habstract := hnone _ hm
      rw [hc] at habstract
      cases habstract
  | up hnone _ ih =>
    cases hd' with
    | found hm' hc' =>
      have habstract := hnone _ hm'
      rw [hc'] at habstract
      cases habstract
    | up _ hrest => exact ih hrest

/-- A superclass was made before the class. -/
theorem Built.superclass_lt (hb : h.Built) : ∀ {c d u}, h.decl? c = some d →
    d.superclass = some u → u.id < c.id := by
  refine hb.preserves (P := fun h => ∀ {c d u}, h.decl? c = some d → d.superclass = some u →
    u.id < c.id) ?empty ?make ?attach ?member
  case empty =>
    intro c d u hd
    simp [decl?, Hierarchy.empty] at hd
  case make =>
    intro h name superclass interfaces isInterface isAbstract _ ih super _ c d u hd hu
    rw [decl?_makeClass] at hd
    split at hd
    · rename_i hid
      obtain rfl := Option.some.inj hd
      rw [hid]
      exact (super u hu).id_lt
    · exact ih hd hu
  case attach =>
    intro h c' _ ih _ c d u hd
    rw [decl?_of_classes (attach_classes h c').1] at hd
    exact ih hd
  case member =>
    intro h f c' _ _ _ ih hf c d u hd hu
    obtain ⟨d₀, hd₀, hsuper, -⟩ := decl?_of_modifyDecl hf hd
    exact ih hd₀ (hsuper ▸ hu)

/-- A chain as long as the number of a class reaches its top. -/
theorem dispatches_superChainUpTo (hb : h.Built) (s : Signature) (n : Nat) {c : ClassRef}
    (hn : c.id < n) : h.Dispatches s (some c) ((h.superChainUpTo n c).findSome? fun d =>
      (h.declaredMethod? d s).filter fun m => !m.isAbstract) := by
  induction n generalizing c with
  | zero => exact absurd hn (Nat.not_lt_zero _)
  | succ n ih =>
    rw [superChainUpTo, List.findSome?_cons]
    split
    · rename_i m hm
      obtain ⟨hm, hconcrete⟩ := Option.filter_eq_some_iff.1 hm
      exact .found hm (by simpa using hconcrete)
    · rename_i hno
      refine .up (fun m hm => ?_) ?_
      · simpa [hm] using hno
      · cases hu : h.superclass? c with
        | none => exact .top
        | some u =>
          obtain ⟨d, hd, hsuper⟩ := Option.bind_eq_some_iff.1 hu
          exact ih (Nat.lt_of_lt_of_le (hb.superclass_lt hd hsuper) (Nat.le_of_lt_succ hn))

/-- The walk up from a class ends, with the method that its objects run. -/
theorem dispatches_iff (hb : h.Built) {c : ClassRef} (hc : h.Made c) {r : Option Method} :
    h.Dispatches s (some c) r ↔ r = h.dispatch c s := by
  have hends : h.Dispatches s (some c) (h.dispatch c s) := dispatches_superChainUpTo hb s _ hc.id_lt
  exact ⟨fun hd => hd.unique hends, fun heq => heq ▸ hends⟩

end Hierarchy

/-! ## The search -/

namespace Cha

/-- Takes classes from a queue until none waits: a class that is no interface is asked for its
method, and the types directly below that were not seen before join the queue. -/
inductive Resolves (h : Hierarchy) (s : Signature) :
    List ClassRef → OrderedSet ClassRef → OrderedSet Method → List Method → Prop
  | done {seen : OrderedSet ClassRef} {found : OrderedSet Method} :
      Resolves h s [] seen found found.toList
  | pass {c : ClassRef} {queue : List ClassRef} {seen : OrderedSet ClassRef}
      {found : OrderedSet Method} {ms : List Method} (interface : h.isInterface c)
      (rest : Resolves h s (queue ++ (seen.missing (.ofList (h.directly c))).toList)
        (seen.union (seen.missing (.ofList (h.directly c)))) found ms) :
      Resolves h s (c :: queue) seen found ms
  | ask {c : ClassRef} {queue : List ClassRef} {seen : OrderedSet ClassRef}
      {found : OrderedSet Method} {m : Option Method} {ms : List Method}
      (object : h.isInterface c = false) (runs : h.Dispatches s (some c) m)
      (rest : Resolves h s (queue ++ (seen.missing (.ofList (h.directly c))).toList)
        (seen.union (seen.missing (.ofList (h.directly c)))) (found.insertAll m.toList) ms) :
      Resolves h s (c :: queue) seen found ms

variable {queue : List ClassRef} {seen : OrderedSet ClassRef} {found : OrderedSet Method}

theorem Resolves.unique {ms ms' : List Method} (hr : Resolves h s queue seen found ms)
    (hr' : Resolves h s queue seen found ms') : ms = ms' := by
  induction hr with
  | done =>
    cases hr'
    rfl
  | pass hi _ ih =>
    cases hr' with
    | pass _ hrest => exact ih hrest
    | ask hi' =>
      rw [hi] at hi'
      cases hi'
  | ask hi hm _ ih =>
    cases hr' with
    | pass hi' =>
      rw [hi] at hi'
      cases hi'
    | ask _ hm' hrest =>
      obtain rfl := hm.unique hm'
      exact ih hrest

/-- The methods that the classes of a list run. -/
def targetsOf (h : Hierarchy) (s : Signature) (cs : List ClassRef) : List Method :=
  (cs.filter fun c => !h.isInterface c).filterMap fun c => h.dispatch c s

theorem targetsOf_append (cs cs' : List ClassRef) :
    targetsOf h s (cs ++ cs') = targetsOf h s cs ++ targetsOf h s cs' := by
  simp only [targetsOf, List.filter_append, List.filterMap_append]

/-- What the search over classes finds is what the loop returns that asks each class as it takes
it. The classes that were taken stand before the queue among those that were seen. -/
theorem resolves_of_searching {U taken : List ClassRef} {n : Nat} (hb : h.Built)
    (hmade : ∀ c ∈ U, h.Made c) (hU : ∀ c ∈ U, ∀ d ∈ h.directly c, d ∈ U)
    (hs : Searching h.directly U n queue seen) (hsplit : seen.toList = taken ++ queue) :
    Resolves h s queue seen (.ofList (targetsOf h s taken))
      (OrderedSet.ofList (targetsOf h s (search h.directly n queue seen).toList)).toList := by
  induction n generalizing queue seen taken with
  | zero =>
    obtain rfl := hs.queue_eq_nil
    rw [List.append_nil] at hsplit
    rw [search, hsplit]
    exact .done
  | succ n ih =>
    cases queue with
    | nil =>
      rw [List.append_nil] at hsplit
      rw [search, hsplit]
      exact .done
    | cons c queue =>
      have hunion : (seen.union (seen.missing (.ofList (h.directly c)))).toList =
          seen.toList ++ (seen.missing (.ofList (h.directly c))).toList :=
        OrderedSet.toList_insertAll (seen.missing _).nodup
          fun a ha => (OrderedSet.mem_missing.1 ha).2
      have htaken : (seen.union (seen.missing (.ofList (h.directly c)))).toList =
          (taken ++ [c]) ++ (queue ++ (seen.missing (.ofList (h.directly c))).toList) := by
        rw [hunion, hsplit]
        simp only [List.append_assoc, List.cons_append, List.nil_append]
      have hrest := ih (hs.step hU) htaken
      rw [targetsOf_append, OrderedSet.ofList_append] at hrest
      cases hi : h.isInterface c with
      | true =>
        have hnone : targetsOf h s [c] = [] := by simp [targetsOf, hi]
        rw [hnone] at hrest
        exact .pass hi hrest
      | false =>
        have hone : targetsOf h s [c] = (h.dispatch c s).toList := by
          simp only [targetsOf, hi, List.filter_cons_of_pos, Bool.not_false, List.filter_nil]
          cases hd : h.dispatch c s <;> simp [hd]
        rw [hone] at hrest
        have hc := hmade c (hs.inside c (hs.queued c List.mem_cons_self))
        exact .ask hi ((Hierarchy.dispatches_iff hb hc).2 rfl) hrest

theorem directly_mem (hc : h.Consistent) :
    ∀ c ∈ h.nodes.toList, ∀ d ∈ h.directly c, d ∈ h.nodes.toList :=
  fun c hn d hd => hc.below_mem c hn d (Hierarchy.below_of_directly hd)

section
variable (hb : h.Built) (ha : ∀ c, h.Made c → h.Added c)
include hb ha

/-- In a well-formed hierarchy, the search goes exactly through the subtypes. -/
theorem mem_searched (hw : h.WellFormed) {c d : ClassRef} (hc : h.Made c) :
    d ∈ reachableFrom h.directly (h.nodes.size + 1) c ↔ h.Made d ∧ h.isSubtype c d := by
  have hcons := hb.consistent
  have hnode : c ∈ h.nodes := hb.placed.known (ha c hc).named
  constructor
  · intro hd
    have hlinked : Relation.ReflTransGen (Next h.below) c d :=
      Relation.ReflTransGen.mono (fun _ _ => Hierarchy.below_of_directly) _ _
        ((mem_reachableFrom (directly_mem hcons) hnode (Nat.le_succ _)).1 hd)
    have hmade : h.Made d := by
      rcases hlinked.cases_tail with rfl | ⟨b, -, hd⟩
      · exact hc
      · obtain ⟨k, hk⟩ := Hierarchy.mem_below.1 hd
        exact hcons.known d (hcons.ends hk).2
    exact ⟨hmade, (Hierarchy.isSubtype_iff hb ha hc hmade).2
      ((Hierarchy.linked_iff_declared hb ha hmade).1 hlinked)⟩
  · exact fun hd => Hierarchy.reachableFrom_of_isSubtype hcons hw hd.2

/-- If all classes were attached and superclasses are classes, the search for the targets of a
virtual call ends, with each target once. The targets are the methods that the classes below the
named one run, and below it is what declarations lead up from to it. -/
theorem virtualTargets_exact (hw : h.WellFormed) (r : MethodRef) (hr : h.Made r.owner) :
    (∀ ms, Resolves h r.signature [r.owner] (.singleton r.owner) ∅ ms ↔ ms = virtualTargets h r) ∧
    (virtualTargets h r).Nodup ∧
    (∀ m, m ∈ virtualTargets h r ↔ ∃ c, h.Made c ∧ h.isInterface c = false ∧
      h.isSubtype r.owner c ∧ h.dispatch c r.signature = some m) ∧
    ∀ c, h.Made c →
      (h.isSubtype r.owner c ↔ Relation.ReflTransGen h.DeclaredBelow c r.owner) := by
  have hcons := hb.consistent
  have hnode : r.owner ∈ h.nodes := hb.placed.known (ha _ hr).named
  have hends : Resolves h r.signature [r.owner] (.singleton r.owner) ∅ (virtualTargets h r) :=
    resolves_of_searching hb hcons.known (directly_mem hcons)
      (searching_start hnode (Nat.le_succ _)) (List.nil_append [r.owner]).symm
  refine ⟨fun ms => ⟨fun hms => hms.unique hends, fun heq => heq ▸ hends⟩, OrderedSet.nodup _,
    fun m => ?_, fun c hc => Hierarchy.isSubtype_iff hb ha hr hc⟩
  rw [mem_virtualTargets]
  simp only [mem_searched hb ha hw hr]
  constructor
  · rintro ⟨c, ⟨hmade, hsub⟩, hclass, hm⟩
    exact ⟨c, hmade, hclass, hsub, hm⟩
  · rintro ⟨c, hmade, hclass, hsub, hm⟩
    exact ⟨c, ⟨hmade, hsub⟩, hclass, hm⟩

end

/-! ### A diamond -/

namespace Diamond

def shape : ClassRef := ⟨0, "Shape"⟩

def solid : ClassRef := ⟨1, "Solid"⟩

def figure : ClassRef := ⟨2, "Figure"⟩

def ball : ClassRef := ⟨3, "Ball"⟩

def drawing : Signature := ⟨"draw", [], .void⟩

def drawFigure : Method := ⟨0, figure, drawing, false, false, false⟩

def interfaces : Hierarchy :=
  ((Hierarchy.empty.addClass "Shape" none [] true true).2.addClass "Solid" none [shape] true true).2

/-- A ball is a shape as a figure and as a solid, and is drawn as a figure. -/
def hierarchy : Hierarchy :=
  (((interfaces.addClass "Figure" none [shape] false false).2.addClass "Ball" (some figure) [solid]
    false false).2.addMethod figure drawing false false false).2

theorem hierarchy_built : hierarchy.Built := by
  have hshape : (Hierarchy.empty.addClass "Shape" none [] true true).2.Built :=
    Hierarchy.Built.empty.addRoot
  have hinterfaces : interfaces.Built := by
    refine hshape.addClass (fun c hc => (nomatch hc)) fun c hc => ?_
    obtain rfl := List.mem_singleton.1 hc
    exact ⟨_, rfl, rfl⟩
  have hfigure : (interfaces.addClass "Figure" none [shape] false false).2.Built := by
    refine hinterfaces.addClass (fun c hc => (nomatch hc)) fun c hc => ?_
    obtain rfl := List.mem_singleton.1 hc
    exact ⟨_, rfl, rfl⟩
  refine .addMethod (hfigure.addClass (fun c hc => ?_) fun c hc => ?_) ⟨_, rfl, rfl⟩
  · obtain rfl := Option.some.inj hc
    exact ⟨_, rfl, rfl⟩
  · obtain rfl := List.mem_singleton.1 hc
    exact ⟨_, rfl, rfl⟩

theorem added (c : ClassRef) (hc : hierarchy.Made c) : hierarchy.Added c := by
  obtain ⟨d, hd, href⟩ := hc
  have hmem : c ∈ [shape, solid, figure, ball] :=
    (List.mem_map.2 ⟨d, List.mem_of_getElem? hd, href⟩ : c ∈ hierarchy.classes.map ClassDecl.ref)
  simp only [List.mem_cons, List.not_mem_nil, or_false] at hmem
  rcases hmem with rfl | rfl | rfl | rfl <;> exact ⟨rfl, by decide⟩

theorem wellFormed : hierarchy.WellFormed where
  superclass c hc u hu := by
    have hmem : c ∈ [shape, solid, figure, ball] := hc
    simp only [List.mem_cons, List.not_mem_nil, or_false] at hmem
    rcases hmem with rfl | rfl | rfl | rfl
    · cases hu
    · cases hu
    · cases hu
    · obtain rfl := Option.some.inj hu
      rfl
  interface c hc hi := by
    have hmem : c ∈ [shape, solid, figure, ball] := hc
    simp only [List.mem_cons, List.not_mem_nil, or_false] at hmem
    rcases hmem with rfl | rfl | rfl | rfl
    · rfl
    · rfl
    · cases hi
    · cases hi

/-- The ball is below the shape, and the method that it and the figure run is found once. -/
theorem virtualTargets_exact_diamond :
    (hierarchy.Built ∧ (∀ c, hierarchy.Made c → hierarchy.Added c) ∧ hierarchy.WellFormed ∧
      hierarchy.Made shape ∧ hierarchy.Made ball) ∧
    Resolves hierarchy drawing [shape] (.singleton shape) ∅ [drawFigure] ∧
    (∃ c, hierarchy.Made c ∧ hierarchy.isInterface c = false ∧ hierarchy.isSubtype shape c ∧
      hierarchy.dispatch c drawing = some drawFigure) ∧
    Relation.ReflTransGen hierarchy.DeclaredBelow ball shape := by
  have hshape : hierarchy.Made shape := ⟨_, rfl, rfl⟩
  have hball : hierarchy.Made ball := ⟨_, rfl, rfl⟩
  obtain ⟨hends, -, hmem, hsub⟩ :=
    virtualTargets_exact hierarchy_built added wellFormed ⟨shape, drawing⟩ hshape
  exact ⟨⟨hierarchy_built, added, wellFormed, hshape, hball⟩, (hends _).2 rfl,
    (hmem drawFigure).1 (by decide), (hsub ball hball).1 (by decide)⟩

end Diamond

end Cha

end ObjectFlow
