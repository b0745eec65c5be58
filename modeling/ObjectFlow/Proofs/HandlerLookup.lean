import ObjectFlow.Proofs.Sources
/-!
# Handlers without tables

The table of a visitor is filled when the visitor is declared, with what the tables of
all classes above its bases hold. As long as nothing was called, that is what a walk
through the sources finds: the handler of its own body, or else what the first of its
bases has. A declaration is refused for what stands in its own body, or because no
default is found above it.
-/

namespace ObjectFlow

/-! ## Orders -/

namespace OrderMerge

variable {α : Type} [DecidableEq α]

theorem mem_of_mem_advance {a b : α} {o : List α} (h : b ∈ advance a o) : b ∈ o := by
  unfold advance at h
  split at h
  · exact List.mem_of_mem_tail h
  · exact h

theorem mem_advance {a b : α} {o : List α} (h : b ∈ o) :
    b = a ∨ b ∈ advance a o := by
  unfold advance
  split
  · rename_i ha
    obtain ⟨o', rfl⟩ := List.head?_eq_some_iff.1 ha
    exact List.mem_cons.1 h
  · exact .inr h

theorem mem_next? {a : α} {orders : List (List α)} (h : next? orders = some a) :
    ∃ o ∈ orders, a ∈ o := by
  have hhead := List.mem_of_find?_eq_some h
  obtain ⟨o, ho, ha⟩ := List.mem_filterMap.1 hhead
  exact ⟨o, ho, List.mem_of_mem_head? ha⟩

omit [DecidableEq α] in
theorem mem_nil_iff_of_empty {orders : List (List α)} (h : orders.all List.isEmpty) (b : α) :
    b ∈ ([] : List α) ↔ ∃ o ∈ orders, b ∈ o := by
  simp only [List.not_mem_nil, false_iff, not_exists, not_and]
  intro o ho hb
  rw [List.isEmpty_iff.1 (List.all_eq_true.1 h o ho)] at hb
  cases hb

/-- A merge holds what the orders hold. -/
theorem mem_mergeUpTo {n : Nat} {orders : List (List α)} {l : List α}
    (h : mergeUpTo n orders = some l) (b : α) : b ∈ l ↔ ∃ o ∈ orders, b ∈ o := by
  induction n generalizing orders l with
  | zero =>
    unfold mergeUpTo at h
    split at h
    · rename_i hempty
      obtain rfl := Option.some.inj h
      exact mem_nil_iff_of_empty hempty b
    · cases h
  | succ n ih =>
    unfold mergeUpTo at h
    split at h
    · rename_i hempty
      obtain rfl := Option.some.inj h
      exact mem_nil_iff_of_empty hempty b
    · obtain ⟨a, ha, h⟩ := Option.bind_eq_some_iff.1 h
      obtain ⟨rest, hrest, h⟩ := Option.bind_eq_some_iff.1 h
      obtain rfl := Option.some.inj h
      rw [List.mem_cons, ih hrest]
      constructor
      · rintro (rfl | ⟨o', ho', hb⟩)
        · exact mem_next? ha
        · obtain ⟨o, ho, rfl⟩ := List.mem_map.1 ho'
          exact ⟨o, ho, mem_of_mem_advance hb⟩
      · rintro ⟨o, ho, hb⟩
        rcases mem_advance (a := a) hb with rfl | hb
        · exact .inl rfl
        · exact .inr ⟨_, List.mem_map.2 ⟨o, ho, rfl⟩, hb⟩

end OrderMerge

namespace Visitor

open Registry

/-! ## Looking up without tables -/

/-- The handler that a visitor has for a case: its own, or else that of the first base that has one.
The sources stand latest first, so the number of a visitor is the number of sources behind it and
one; number zero has the refusing default alone. -/
def lookup : List Source → Nat → Case → Option Handler
  | [], i, c => if i = 0 ∧ c = .default then some .refuse else none
  | d :: F, i, c =>
    if i = F.length + 1 then (d.own c).or (d.bases.findSome? fun b => lookup F b c)
    else lookup F i c

/-- A visitor builds on class number zero. -/
def BuildsOnRoot : List Source → Nat → Prop
  | [], i => i = 0
  | d :: F, i =>
    if i = F.length + 1 then ∃ b ∈ d.bases, BuildsOnRoot F b else BuildsOnRoot F i

/-- The registry after visitors were declared one after the other, each on bases that were there,
where nothing was called. -/
inductive Family (root : String) : List Source → Registry → Prop
  | root : Family root [] (initial root)
  | declare {F : List Source} {r r' : Registry} {d : Source} {i : Nat} (before : Family root F r)
    (known : ∀ b ∈ d.bases, b < r.classes.length)
    (accepted : r.declare d.name d.bases d.handlers = .ok (i, r')) : Family root (d :: F) r'

section
variable {root : String} {F : List Source} {r r' : Registry} {d : Source} {c : Case} {i : Nat}

/-- A class inherits in the order of its bases from these and all above them. -/
theorem mem_linearize {bases order : List Nat} (h : r.linearize bases = some order) (a : Nat) :
    a ∈ order ↔ (∃ b ∈ bases, a ∈ r.orderOf b) ∨ a ∈ bases := by
  unfold linearize OrderMerge.mergeBases at h
  split at h
  · rw [OrderMerge.mem_mergeUpTo h]
    simp only [List.mem_append, List.mem_map, List.mem_singleton]
    constructor
    · rintro ⟨o, ⟨b, hb, rfl⟩ | rfl, ha⟩
      · exact .inl ⟨b, hb, ha⟩
      · exact .inr ha
    · rintro (⟨b, hb, ha⟩ | ha)
      · exact ⟨_, .inl ⟨b, hb, rfl⟩, ha⟩
      · exact ⟨bases, .inr rfl, ha⟩
  · cases h

/-! ## Families -/

/-- What a body has for a case, or else the first class above its bases. -/
theorem get?_inheritAll (r : Registry) (bases : List Nat) (own : Table) (c : Case) :
    (inheritAll r bases own).get? c =
      (own.get? c).or ((bases.flatMap r.orderOf).findSome? fun a => (r.tableOf a).get? c) := by
  unfold inheritAll
  generalize bases.flatMap r.orderOf = above
  induction above generalizing own with
  | nil => simp
  | cons a above ih =>
    rw [List.foldl_cons, ih, get?_inherit, List.findSome?_cons, Option.or_assoc]
    cases (r.tableOf a).get? c <;> simp

/-- How the tables of a family come about. A class stands first in its own order, and has a handler
wherever a class above it has one. -/
structure Filled (F : List Source) (r : Registry) : Prop where
  length : r.classes.length = F.length + 1
  self : ∀ i < r.classes.length, ∃ above, r.orderOf i = i :: above
  known : ∀ i, ∀ a ∈ r.orderOf i, a < r.classes.length
  above : ∀ i c, ∀ a ∈ r.orderOf i, (r.tableOf i).get? c = none → (r.tableOf a).get? c = none
  root : ∀ i, 0 ∈ r.orderOf i ↔ BuildsOnRoot F i
  default : ∀ i < r.classes.length, ((r.tableOf i).get? .default).isSome
  table : ∀ i c, (r.tableOf i).get? c = lookup F i c

/-- Nothing that stands above a base adds to what the base has. -/
theorem Filled.findSome?_above (hr : Filled F r) {bases : List Nat}
    (hb : ∀ b ∈ bases, b < r.classes.length) (c : Case) :
    ((bases.flatMap r.orderOf).findSome? fun a => (r.tableOf a).get? c) =
      bases.findSome? fun b => (r.tableOf b).get? c := by
  induction bases with
  | nil => rfl
  | cons b bases ih =>
    obtain ⟨hfirst, hrest⟩ := List.forall_mem_cons.1 hb
    rw [List.flatMap_cons, List.findSome?_append, ih hrest, List.findSome?_cons]
    -- the base comes first in its own order, and has whatever those behind it have
    have hsame : ((r.orderOf b).findSome? fun a => (r.tableOf a).get? c) =
        (r.tableOf b).get? c := by
      obtain ⟨above, horder⟩ := hr.self b hfirst
      cases hbc : (r.tableOf b).get? c with
      | some f => rw [horder, List.findSome?_cons, hbc]
      | none => exact List.findSome?_eq_none_iff.2 fun a ha => hr.above b c a ha hbc
    rw [hsame]
    cases (r.tableOf b).get? c <;> rfl

theorem Filled.initial (root : String) : Filled [] (initial root) where
  length := rfl
  self i hi := by
    obtain rfl : i = 0 := by simpa [Registry.initial] using hi
    exact ⟨[], rfl⟩
  known i a ha := by
    cases i with
    | zero => simp_all [Registry.initial, Registry.orderOf, class?]
    | succ i => simp [Registry.initial, Registry.orderOf, class?] at ha
  above i c a ha hc := by
    cases i with
    | zero =>
      obtain rfl : a = 0 := by simpa [Registry.initial, Registry.orderOf, class?] using ha
      exact hc
    | succ i => simp [Registry.initial, Registry.orderOf, class?] at ha
  root i := by cases i <;> simp [Registry.initial, Registry.orderOf, class?, BuildsOnRoot]
  default i hi := by
    obtain rfl : i = 0 := by simpa [Registry.initial] using hi
    rfl
  table i c := by
    cases i with
    | zero => cases c <;> simp [Registry.initial, tableOf, class?, lookup, OrderedMap.get?_insert]
    | succ i => simp [Registry.initial, tableOf, class?, lookup]

theorem declare_eq_ok {name : String} {bases : List Nat} {handlers : List Declaration}
    (h : r.declare name bases handlers = .ok (i, r')) :
    ∃ own order, ownHandlers name handlers = .ok own ∧
      (inheritAll r bases own).contains .default ∧ r.linearize bases = some order ∧
      r' = ⟨r.classes ++ [⟨name, r.classes.length :: order, inheritAll r bases own⟩]⟩ := by
  rw [declare_eq] at h
  split at h
  · cases h
  · rename_i own hown
    split at h
    · rename_i hdefault
      split at h
      · cases h
      · rename_i order horder
        obtain ⟨-, rfl⟩ := Prod.mk.inj (Except.ok.inj h)
        exact ⟨own, order, hown, hdefault, horder, rfl⟩
    · cases h

theorem Filled.declare (hr : Filled F r) (hknown : ∀ b ∈ d.bases, b < r.classes.length)
    (h : r.declare d.name d.bases d.handlers = .ok (i, r')) : Filled (d :: F) r' := by
  obtain ⟨own, order, hown, hdefault, horder, rfl⟩ := declare_eq_ok h
  have hself : ∀ b ∈ d.bases, b ∈ r.orderOf b := fun b hb => by
    obtain ⟨above, hb'⟩ := hr.self b (hknown b hb)
    rw [hb']
    exact List.mem_cons_self
  -- all that the class inherits from stands above one of its bases
  have hup : ∀ a, a ∈ order ↔ ∃ b ∈ d.bases, a ∈ r.orderOf b := fun a => by
    rw [mem_linearize horder]
    exact ⟨fun hor => hor.elim id fun ha => ⟨a, ha, hself a ha⟩, .inl⟩
  have hlt : ∀ a ∈ order, a < r.classes.length := fun a ha => by
    obtain ⟨b, -, hab⟩ := (hup a).1 ha
    exact hr.known b a hab
  have hget : ∀ c, (inheritAll r d.bases own).get? c =
      (d.own c).or (d.bases.findSome? fun b => lookup F b c) := fun c => by
    rcases ownHandlers_cases d with ⟨t, ht, hsource, -, -⟩ | ⟨e, he, -⟩
    · obtain rfl := Except.ok.inj (hown.symm.trans ht)
      rw [get?_inheritAll, hr.findSome?_above hknown, hsource]
      simp only [hr.table]
    · rw [hown] at he
      cases he
  have hlength : (r.classes ++ [(⟨d.name, r.classes.length :: order, inheritAll r d.bases own⟩ :
      VisitorClass)]).length = r.classes.length + 1 := List.length_append
  constructor
  case length => rw [hlength, hr.length, List.length_cons]
  case self =>
    intro i hi
    rw [hlength] at hi
    rw [orderOf_append]
    split
    · rename_i heq
      exact ⟨order, by rw [heq]⟩
    · exact hr.self i (by omega)
  case known =>
    intro i a ha
    rw [orderOf_append] at ha
    rw [hlength]
    split at ha
    · rcases List.mem_cons.1 ha with rfl | ha
      · exact Nat.lt_succ_self _
      · exact Nat.lt_succ_of_lt (hlt a ha)
    · exact Nat.lt_succ_of_lt (hr.known i a ha)
  case above =>
    intro i c a ha hc
    rw [orderOf_append] at ha
    rw [tableOf_append] at hc ⊢
    by_cases hi : i = r.classes.length
    · rw [if_pos hi] at ha hc
      rcases List.mem_cons.1 ha with rfl | ha
      · rwa [if_pos rfl]
      · -- what stands above was asked when the table was filled
        rw [if_neg (Nat.ne_of_lt (hlt a ha))]
        dsimp only at hc
        rw [get?_inheritAll, Option.or_eq_none_iff] at hc
        obtain ⟨b, hb, hab⟩ := (hup a).1 ha
        exact List.findSome?_eq_none_iff.1 hc.2 a (List.mem_flatMap.2 ⟨b, hb, hab⟩)
    · rw [if_neg hi] at ha hc
      rw [if_neg (Nat.ne_of_lt (hr.known i a ha))]
      exact hr.above i c a ha hc
  case root =>
    intro i
    rw [orderOf_append, BuildsOnRoot, hr.length]
    split
    · rw [List.mem_cons, hup]
      simp only [hr.root]
      exact or_iff_right (by omega)
    · exact hr.root i
  case default =>
    intro i hi
    rw [hlength] at hi
    rw [tableOf_append]
    split
    · exact hdefault
    · exact hr.default i (by omega)
  case table =>
    intro i c
    rw [tableOf_append, lookup, hr.length]
    split
    · exact hget c
    · exact hr.table i c

theorem Family.filled (h : Family root F r) : Filled F r := by
  induction h with
  | root => exact .initial root
  | declare _ hknown haccepted ih => exact ih.declare hknown haccepted

/-! ## Calling and declaring -/

theorem own_eq_none : d.own c = none ↔ c ∉ d.listed := by
  simp only [Source.own, Option.map_eq_none_iff, List.find?_eq_none, decide_eq_true_eq,
    Source.listed, List.mem_flatMap, not_exists, not_and]

/-- A declaration is refused for what stands in its body, or for want of a default. That its bases
cannot be put in one order is another matter. -/
theorem Filled.refused_iff (hr : Filled F r) (hknown : ∀ b ∈ d.bases, b < r.classes.length) :
    (∃ e, r.declare d.name d.bases d.handlers = .error e ∧ e ≠ .inconsistentBases) ↔
      (∃ h ∈ d.handlers, ∃ u, .other u ∈ h.leaves) ∨ ¬ d.listed.Nodup ∨
        (.default ∉ d.listed ∧ ∀ b ∈ d.bases, lookup F b .default = none) := by
  rw [declare_eq]
  rcases ownHandlers_cases d with ⟨own, hown, hsource, hnodup, hno⟩ | ⟨e, he, hne, hwhy⟩
  · rw [hown]
    dsimp only
    have hdefault : (inheritAll r d.bases own).contains .default = false ↔
        (.default ∉ d.listed ∧ ∀ b ∈ d.bases, lookup F b .default = none) := by
      rw [OrderedMap.contains, Option.isSome_eq_false_iff, Option.isNone_iff_eq_none,
        get?_inheritAll, hr.findSome?_above hknown, hsource, Option.or_eq_none_iff, own_eq_none,
        List.findSome?_eq_none_iff]
      simp only [hr.table]
    -- the body itself is in order, so only the default can be missing
    have hrest : ((∃ h ∈ d.handlers, ∃ u, .other u ∈ h.leaves) ∨ ¬ d.listed.Nodup ∨
        (.default ∉ d.listed ∧ ∀ b ∈ d.bases, lookup F b .default = none)) ↔
        (inheritAll r d.bases own).contains .default = false := by
      rw [hdefault]
      refine ⟨fun hor => ?_, fun h => .inr (.inr h)⟩
      rcases hor with ⟨h, hh, u, hu⟩ | hrep | hnone
      · exact absurd hu (hno h hh u)
      · exact absurd hnodup hrep
      · exact hnone
    rw [hrest]
    cases hc : (inheritAll r d.bases own).contains .default with
    | false => exact ⟨fun _ => rfl, fun _ => ⟨_, rfl, by simp⟩⟩
    | true =>
      refine ⟨fun hrefused => ?_, fun h => by cases h⟩
      obtain ⟨e, he, hne⟩ := hrefused
      simp only [if_true] at he
      split at he
      · exact absurd (Except.error.inj he).symm hne
      · cases he
  · rw [he]
    refine ⟨fun _ => ?_, fun _ => ⟨e, rfl, hne⟩⟩
    rcases hwhy with hrep | hother
    · exact .inr (.inl hrep)
    · exact .inl hother

/-- As long as nothing was called, the table of a visitor holds what looking up finds; so whatever
order the classes of a node are searched in, the first of them that is found decides. A call on a
visitor that builds on class number zero succeeds and runs that handler, or else the default, which
there always is. And a declaration on known bases is refused as wrongly declared exactly if some
handler is written for something else than node classes, be it one that a later handler replaces,
or the handlers that remain list a case twice, or no default is found in the body or its bases. -/
theorem handlers_looked_up (h : Family root F r) :
    (∀ i c, (r.tableOf i).get? c = lookup F i c) ∧
    (∀ i, BuildsOnRoot F i → (lookup F i .default).isSome ∧ ∀ c, ∃ f r',
      r.call i c = some (f, r') ∧
      (c.order.findSome? fun s => lookup F i (.node s)).or (lookup F i .default) = some f) ∧
    ∀ d : Source, (∀ b ∈ d.bases, b ≤ F.length) →
      ((∃ e, r.declare d.name d.bases d.handlers = .error e ∧ e ≠ .inconsistentBases) ↔
        (∃ h ∈ d.handlers, ∃ u, .other u ∈ h.leaves) ∨ ¬ d.listed.Nodup ∨
          (.default ∉ d.listed ∧ ∀ b ∈ d.bases, lookup F b .default = none)) := by
  have hr := h.filled
  refine ⟨hr.table, fun i hi => ?_, fun d hd => ?_⟩
  · have hcallable : r.isCallable i := decide_eq_true ((hr.root i).2 hi)
    have hdefault := hr.default i (lt_of_isCallable hcallable)
    refine ⟨by rwa [← hr.table], fun c => ?_⟩
    have hchoose := choose_eq (r.tableOf i) c
    simp only [hr.table] at hchoose hdefault
    have hfound : (choose (r.tableOf i) c).isSome := by
      rw [hchoose, Option.isSome_or, hdefault, Bool.or_true]
    obtain ⟨f, hf⟩ := Option.isSome_iff_exists.1 hfound
    obtain ⟨⟨f', r'⟩, hcall, rfl⟩ := Option.map_eq_some_iff.1 ((handler_eq hcallable c).trans hf)
    exact ⟨f', r', hcall, hchoose.symm.trans hf⟩
  · exact hr.refused_iff fun b hb => by
      rw [hr.length]
      exact Nat.lt_succ_of_le (hd b hb)

end

/-! ### Two visitors above one -/

namespace Shapes

def plainSource : Source := ⟨"Plain", [0], [⟨"other", none⟩]⟩

def drawingSource : Source := ⟨"Drawing", [1], [⟨"onShape", some [.node shape.ref]⟩]⟩

def roundingSource : Source := ⟨"Rounding", [1], [⟨"onCircle", some [.group [.node circle.ref]]⟩]⟩

def bothSource : Source := ⟨"Both", [2, 3], []⟩

def registry : Registry :=
  root.after [plain, drawing, .declare "Rounding" [1] roundingSource.handlers,
    .declare "Both" [2, 3] []]

theorem family_registry :
    Family "Root" [bothSource, roundingSource, drawingSource, plainSource] registry := by
  refine .declare (.declare (.declare (.declare .root ?_ rfl) ?_ rfl) ?_ rfl) ?_ rfl
  all_goals decide

/-- A circle that is filled. -/
def badge : NodeClass := ⟨⟨6, "Badge"⟩, filled.ref :: circle.order⟩

/-- A badge is searched as what is filled, then as a circle, and handled as the second base says,
since the first has nothing for circles themselves. Listing shapes twice is refused. -/
theorem handlers_looked_up_shapes :
    Family "Root" [bothSource, roundingSource, drawingSource, plainSource] registry ∧
    NodeClass.declare badge.ref [filled, circle] = some badge ∧
    (∃ r', registry.call 4 badge = some (.named "Rounding" "onCircle", r')) ∧
    ∃ e, registry.declare "Twice" [4]
      [⟨"first", some [.node shape.ref]⟩, ⟨"second", some [.group [.node shape.ref]]⟩] = .error e ∧
      e ≠ .inconsistentBases := by
  obtain ⟨-, hcall, hdeclare⟩ := handlers_looked_up family_registry
  refine ⟨family_registry, by decide, ?_, ?_⟩
  · obtain ⟨-, hcalls⟩ := hcall 4 (by simp [BuildsOnRoot, bothSource, drawingSource, plainSource])
    obtain ⟨f, r', hcall, hf⟩ := hcalls badge
    obtain rfl : Handler.named "Rounding" "onCircle" = f := Option.some.inj hf
    exact ⟨r', hcall⟩
  · refine (hdeclare ⟨"Twice", [4], _⟩ (by decide)).2 (.inr (.inl ?_))
    decide

/-- A handler written for a number is refused, although a later one of its name replaces it. What
remains is written for shapes alone and once, and there is a default. -/
theorem refused_for_replaced_handler : ¬ ∀ (F : List Source) (r : Registry) (d : Source),
    Family "Root" F r → (∀ b ∈ d.bases, b ≤ F.length) →
      ((∃ e, r.declare d.name d.bases d.handlers = .error e ∧ e ≠ .inconsistentBases) ↔
        (∃ h ∈ surviving d.handlers, ∃ u, .other u ∈ h.leaves) ∨ ¬ d.listed.Nodup ∨
          (.default ∉ d.listed ∧ ∀ b ∈ d.bases, lookup F b .default = none)) := by
  intro h
  have hiff := h [] root ⟨"W", [0], [⟨"h", some [.other (.atom (.int 5))]⟩,
    ⟨"h", some [.node shape.ref]⟩]⟩ .root (by decide)
  rcases hiff.1 ⟨.notAClass (.atom (.int 5)), rfl, by simp⟩ with ⟨h, hh, u, hu⟩ | hrep | ⟨-, hnone⟩
  · obtain rfl : h = ⟨"h", some [.node shape.ref]⟩ := by simpa [surviving] using hh
    simp [Declaration.leaves, CaseTree.leavesAll, CaseTree.leaves] at hu
  · exact hrep (by decide)
  · have hroot := hnone 0 (by decide)
    cases hroot

end Shapes

end Visitor

end ObjectFlow
