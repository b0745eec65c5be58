import Mathlib.Data.List.TakeWhile
import ObjectFlow.Proofs.Containers
import ObjectFlow.Visitor
/-!
# Handlers and earlier calls

A call keeps the handler that it found in the table of the visitor that was
called. For the class of the node that is no change. But a class whose search
passes that class stops there from now on, so if it was treated otherwise before,
its handler changes. And a visitor declared later inherits what was kept as if it
had been declared for that very class, and then looks no further for a handler of
its own.
-/

namespace ObjectFlow

/-! ## One order alone -/

namespace OrderMerge

variable {α : Type} [DecidableEq α] {a : α} {l : List α}

/-- A head that stands in no tail is taken from the first order, and wherever else it is the head. -/
theorem mergeUpTo_cons {orders : List (List α)} (ha : a ∉ l) (horders : ∀ o ∈ orders, a ∉ o.tail)
    (n : Nat) : mergeUpTo (n + 1) ((a :: l) :: orders) =
      (mergeUpTo n (l :: orders.map (advance a))).map (a :: ·) := by
  have hnext : next? ((a :: l) :: orders) = some a := by
    change (a :: orders.filterMap List.head?).find? _ = some a
    rw [List.find?_cons_of_pos]
    exact List.all_eq_true.2 fun o ho => decide_eq_true <|
      (List.mem_cons.1 ho).elim (fun heq => heq ▸ ha) (horders o)
  have hadvance : ((a :: l) :: orders).map (advance a) = l :: orders.map (advance a) := by
    simp [advance]
  rw [mergeUpTo, if_neg (by simp), hnext, Option.bind_eq_bind, Option.bind_some, hadvance]
  cases mergeUpTo n (l :: orders.map (advance a)) <;> rfl

theorem mergeUpTo_single (hl : l.Nodup) {n : Nat} (hn : l.length ≤ n) :
    mergeUpTo n [l, []] = some l := by
  induction l generalizing n with
  | nil => cases n <;> rfl
  | cons a l ih =>
    obtain ⟨ha, hl⟩ := List.nodup_cons.1 hl
    cases n with
    | zero => cases hn
    | succ n =>
      rw [mergeUpTo_cons ha (by simp), List.map_singleton, show advance a [] = [] from rfl,
        ih hl (Nat.le_of_succ_le_succ hn)]
      rfl

/-- With one base there is nothing to put in order. -/
theorem mergeBases_single (hl : (a :: l).Nodup) : mergeBases [a] [a :: l] = some (a :: l) := by
  obtain ⟨ha, hl⟩ := List.nodup_cons.1 hl
  have hlength : [a :: l, [a]].flatten.length = (l.length + 1) + 1 := by simp
  change (if [a].Nodup then mergeUpTo [a :: l, [a]].flatten.length [a :: l, [a]] else none) = _
  rw [if_pos (List.nodup_singleton a), hlength, mergeUpTo_cons ha (by simp), List.map_singleton,
    show advance a [a] = [] by simp [advance], mergeUpTo_single hl (Nat.le_succ _)]
  rfl

end OrderMerge

namespace Visitor

open Registry

/-! ## Searching -/

section
variable {α β : Type} [DecidableEq α] {g g' : α → Option β} {a : α} {b : β} {l : List α}

/-- A new value takes effect where the search passes it. -/
theorem findSome?_of_new (hold : g a = none) (hnew : g' a = some b)
    (hsame : ∀ x, x ≠ a → g' x = g x) :
    l.findSome? g' = if a ∈ l.takeWhile fun x => (g x).isNone then some b else l.findSome? g := by
  induction l with
  | nil => rfl
  | cons x l ih =>
    rw [List.findSome?_cons, List.findSome?_cons, List.takeWhile_cons]
    by_cases hx : x = a
    · simp [hx, hold, hnew]
    · rw [hsame x hx]
      cases hg : g x with
      | some v => simp
      | none => simp [ih, Ne.symm hx]

omit [DecidableEq α] in
/-- With more values the search passes less. -/
theorem mem_takeWhile_of_less (hg : ∀ x, g' x = none → g x = none)
    (ha : a ∈ l.takeWhile fun x => (g' x).isNone) : a ∈ l.takeWhile fun x => (g x).isNone := by
  induction l with
  | nil => cases ha
  | cons x l ih =>
    rw [List.takeWhile_cons] at ha ⊢
    cases hx : g' x with
    | some v => simp [hx] at ha
    | none =>
      rw [hx, Option.isNone_none, if_pos rfl] at ha
      rw [hg x hx, Option.isNone_none, if_pos rfl]
      exact (List.mem_cons.1 ha).elim (fun he => he ▸ List.mem_cons_self)
        fun ha => List.mem_cons_of_mem _ (ih ha)

/-- What lies before an item that the search passes has no value. -/
theorem findSome?_dropWhile (ha : a ∈ l.takeWhile fun x => (g x).isNone) :
    (l.dropWhile fun x => decide (x ≠ a)).findSome? g = l.findSome? g := by
  induction l with
  | nil => cases ha
  | cons x l ih =>
    rw [List.takeWhile_cons] at ha
    cases hx : g x with
    | some v => simp [hx] at ha
    | none =>
      rw [hx, Option.isNone_none, if_pos rfl] at ha
      by_cases heq : x = a
      · simp [heq]
      · rw [List.dropWhile_cons_of_pos (by simpa using heq), List.findSome?_cons, hx]
        exact ih ((List.mem_cons.1 ha).resolve_left (Ne.symm heq))

end

/-! ## Choosing -/

section
variable {t t₀ u u₀ : Table} {c d : NodeClass} {h f : Handler} {K : Set NodeClass}

/-- The choice for a node is the first entry in the order of its class, or else the default. -/
theorem choose_eq (t : Table) (c : NodeClass) : choose t c =
    (c.order.findSome? fun s => t.get? (.node s)).or (t.get? .default) := by
  unfold choose
  cases hc : t.get? (.node c.ref) with
  | some h => simp [NodeClass.order, hc]
  | none => cases c.order.findSome? fun s => t.get? (.node s) <;> rfl

theorem choose_of_get? (ht : t.get? (.node c.ref) = some h) : choose t c = some h := by
  unfold choose
  rw [ht]

/-- The classes that a search passes: those before the first one with an entry. -/
def passed (t : Table) (c : NodeClass) : List NodeRef :=
  c.order.takeWhile fun s => (t.get? (.node s)).isNone

/-- Keeping a choice brings it to all classes whose search passes the class that it was made for. -/
theorem choose_keep (hf : choose t d = some f) (c : NodeClass) :
    choose (t.insert (.node d.ref) f) c = if d.ref ∈ passed t c then some f else choose t c := by
  have hget : ∀ k, (t.insert (.node d.ref) f).get? k =
      if k = .node d.ref then some f else t.get? k := fun k => by rw [OrderedMap.get?_insert]
  rw [choose_eq, choose_eq]
  have hdefault : (t.insert (.node d.ref) f).get? .default = t.get? .default := by
    rw [hget, if_neg (by simp)]
  rw [hdefault]
  cases hd : t.get? (.node d.ref) with
  | none =>
    have hsame : ∀ s, s ≠ d.ref → (t.insert (.node d.ref) f).get? (.node s) = t.get? (.node s) :=
      fun s hs => by rw [hget, if_neg (by simpa using hs)]
    rw [findSome?_of_new (g := fun s => t.get? (.node s)) hd (by rw [hget, if_pos rfl]) hsame,
      passed]
    split <;> rfl
  | some h =>
    -- an entry is its own choice, so nothing was written
    obtain rfl : h = f := Option.some.inj ((choose_of_get? hd).symm.trans hf)
    have hsame : ∀ k, (t.insert (.node d.ref) h).get? k = t.get? k := fun k => by
      rw [hget]
      split
      · rename_i hk
        rw [hk, hd]
      · rfl
    have hnot : d.ref ∉ passed t c := fun hin => by
      have hnone := List.mem_takeWhile_imp (p := fun s => (t.get? (.node s)).isNone) hin
      simp [hd] at hnone
    rw [if_neg hnot]
    simp only [hsame]

/-- Each class of `K` is treated like all classes of `K` that its search passes. -/
def Settled (t : Table) (K : Set NodeClass) : Prop :=
  ∀ c ∈ K, ∀ d ∈ K, d.ref ∈ passed t c → choose t d = choose t c

/-- The choices that a settled table keeps change none. -/
theorem Settled.keep (hs : Settled t K) (hd : d ∈ K) (hf : choose t d = some f) :
    Settled (t.insert (.node d.ref) f) K ∧
      ∀ c ∈ K, choose (t.insert (.node d.ref) f) c = choose t c := by
  have hsame : ∀ c ∈ K, choose (t.insert (.node d.ref) f) c = choose t c := fun c hc => by
    rw [choose_keep hf]
    split
    · rename_i hin
      rw [← hs c hc d hd hin, hf]
    · rfl
  refine ⟨fun c hc d' hd' hin => ?_, hsame⟩
  have hless : ∀ s, (t.insert (.node d.ref) f).get? (.node s) = none → t.get? (.node s) = none := by
    intro s hnone
    rw [OrderedMap.get?_insert] at hnone
    split at hnone
    · cases hnone
    · exact hnone
  rw [hsame c hc, hsame d' hd', hs c hc d' hd' (mem_takeWhile_of_less hless hin)]

/-! ### Classes with one base -/

/-- Classes with all that stands above them, where each order goes on from a class as the order of
that class does. -/
structure Nested (K : Set NodeClass) : Prop where
  closed : ∀ c ∈ K, ∀ s ∈ c.order, ∃ d ∈ K, d.ref = s
  rest : ∀ c ∈ K, ∀ d ∈ K, d.ref ∈ c.order →
    c.order.dropWhile (fun s => decide (s ≠ d.ref)) = d.order

/-- A class that the search passes has the rest of the search before it. -/
theorem Nested.choose_eq (hK : Nested K) (hc : c ∈ K) (hd : d ∈ K) (hin : d.ref ∈ passed t c) :
    choose t d = choose t c := by
  have hrest := hK.rest c hc d hd ((List.takeWhile_sublist _).subset hin)
  rw [Visitor.choose_eq, Visitor.choose_eq, ← hrest, findSome?_dropWhile hin]

theorem Nested.settled (hK : Nested K) (t : Table) : Settled t K :=
  fun _ hc _ hd hin => hK.choose_eq hc hd hin

/-- Node classes that were declared one after the other, each with one base that was there. -/
inductive SingleBased : List NodeClass → Prop
  | object : SingleBased [.object]
  | declare {ns : List NodeClass} {name : String} {b c : NodeClass} (before : SingleBased ns)
    (base : b ∈ ns) (declared : NodeClass.declare ⟨ns.length, name⟩ [b] = some c) :
    SingleBased (c :: ns)

theorem declare_single {ref : NodeRef} (hd : d.order.Nodup) :
    NodeClass.declare ref [d] = some ⟨ref, d.order⟩ := by
  have hmerge : OrderMerge.mergeBases [d.ref] [d.order] = some d.order :=
    OrderMerge.mergeBases_single hd
  simp [NodeClass.declare, hmerge]

/-- Orders of classes with one base hold declared classes, each once. -/
theorem SingleBased.order {ns : List NodeClass} (h : SingleBased ns) :
    ∀ c ∈ ns, c.order.Nodup ∧ ∀ s ∈ c.order, s.id < ns.length := by
  induction h with
  | object =>
    intro c hc
    obtain rfl := List.mem_singleton.1 hc
    decide
  | @declare ns name b c before base declared ih =>
    rw [declare_single (ih b base).1] at declared
    obtain rfl := Option.some.inj declared
    intro c hc
    rcases List.mem_cons.1 hc with rfl | hc
    · refine ⟨List.nodup_cons.2 ⟨fun hin => ?_, (ih b base).1⟩, fun s hs => ?_⟩
      · exact absurd ((ih b base).2 _ hin) (Nat.lt_irrefl _)
      · rcases List.mem_cons.1 hs with rfl | hs
        · exact Nat.lt_succ_self _
        · exact Nat.lt_succ_of_lt ((ih b base).2 s hs)
    · exact ⟨(ih c hc).1, fun s hs => Nat.lt_succ_of_lt ((ih c hc).2 s hs)⟩

theorem SingleBased.nested {ns : List NodeClass} (h : SingleBased ns) : Nested {c | c ∈ ns} := by
  induction h with
  | object =>
    refine ⟨fun c hc s hs => ?_, fun c hc d hd _ => ?_⟩
    · obtain rfl := List.mem_singleton.1 hc
      exact ⟨_, hc, (List.mem_singleton.1 hs).symm⟩
    · obtain rfl := List.mem_singleton.1 hc
      obtain rfl := List.mem_singleton.1 hd
      rfl
  | @declare ns name b c before base declared ih =>
    rw [declare_single (before.order b base).1] at declared
    obtain rfl := Option.some.inj declared
    refine ⟨fun c hc s hs => ?_, fun c hc d hd hin => ?_⟩
    · rcases List.mem_cons.1 hc with rfl | hc
      · rcases List.mem_cons.1 hs with rfl | hs
        · exact ⟨_, List.mem_cons_self, rfl⟩
        · obtain ⟨d, hd, hds⟩ := ih.closed b base s hs
          exact ⟨d, List.mem_cons_of_mem _ hd, hds⟩
      · obtain ⟨d, hd, hds⟩ := ih.closed c hc s hs
        exact ⟨d, List.mem_cons_of_mem _ hd, hds⟩
    · -- the number of the new class stands in no other order
      have hnew : ∀ d ∈ ns, d.ref.id < ns.length := fun d hd =>
        (before.order d hd).2 _ List.mem_cons_self
      rcases List.mem_cons.1 hc with rfl | hc <;> rcases List.mem_cons.1 hd with rfl | hd
      · simp [NodeClass.order]
      · have hne : (⟨ns.length, name⟩ : NodeRef) ≠ d.ref := fun heq =>
          absurd (hnew d hd) (by rw [← heq]; exact Nat.lt_irrefl _)
        have hskip : decide ((⟨ns.length, name⟩ : NodeRef) ≠ d.ref) = true := decide_eq_true hne
        rw [NodeClass.order, List.dropWhile_cons, if_pos hskip]
        exact ih.rest b base d hd ((List.mem_cons.1 hin).resolve_left (Ne.symm hne))
      · exact absurd ((before.order c hc).2 _ hin) (Nat.lt_irrefl _)
      · exact ih.rest c hc d hd hin

/-- A table with an entry wherever the other has one, and the same default. -/
structure Overlays (t t₀ : Table) : Prop where
  node : ∀ s, t.get? (.node s) = none → t₀.get? (.node s) = none
  default : t.get? .default = t₀.get? .default

theorem Overlays.refl (t : Table) : Overlays t t := ⟨fun _ => id, rfl⟩

theorem Overlays.insert (h : Overlays t t₀) (s : NodeRef) (f : Handler) :
    Overlays (t.insert (.node s) f) t₀ where
  node s' hs := by
    rw [OrderedMap.get?_insert] at hs
    split at hs
    · cases hs
    · exact h.node s' hs
  default := by
    rw [OrderedMap.get?_insert, if_neg (by simp)]
    exact h.default

/-! ## Inheriting -/

theorem get?_inherit (t u : Table) (k : Case) :
    (inherit t u).get? k = (t.get? k).or (u.get? k) := by
  have hsame : ∀ (s : Table) v, (if s.contains k then s else s.insert k v).get? k =
      (s.get? k).or (some v) := by
    intro s v
    unfold OrderedMap.contains
    cases hs : s.get? k with
    | none => simp
    | some w => simp [hs]
  have hother : ∀ (s : Table) (e : Case × Handler), e.1 ≠ k →
      (if s.contains e.1 then s else s.insert e.1 e.2).get? k = s.get? k := by
    intro s e he
    split
    · rfl
    · rw [OrderedMap.get?_insert, if_neg (Ne.symm he)]
  refine (OrderedMap.read_foldl_entries (fun s => s.get? k) (fun v f => f.or (some v)) hsame
    hother u t).trans ?_
  cases u.get? k <;> simp

theorem Overlays.inherit (h : Overlays t t₀) (h' : Overlays u u₀) :
    Overlays (inherit t u) (inherit t₀ u₀) where
  node c hc := by
    rw [get?_inherit, Option.or_eq_none_iff] at hc ⊢
    exact ⟨h.node c hc.1, h'.node c hc.2⟩
  default := by rw [get?_inherit, get?_inherit, h.default, h'.default]

end

/-! ## Visitors with and without calls -/

/-- A registry like the other, but for handlers that were kept. -/
structure Cached (r r₀ : Registry) : Prop where
  length : r.classes.length = r₀.classes.length
  order : ∀ i, r.orderOf i = r₀.orderOf i
  table : ∀ i, Overlays (r.tableOf i) (r₀.tableOf i)

section
variable {r r₀ r' : Registry} {i j : Nat} {c : NodeClass} {h : Handler} {v v₀ : VisitorClass}

theorem class?_append (r : Registry) (v : VisitorClass) (i : Nat) :
    (⟨r.classes ++ [v]⟩ : Registry).class? i =
      if i = r.classes.length then some v else r.class? i := by
  unfold class?
  rw [List.getElem?_append, List.getElem?_singleton]
  rcases Nat.lt_trichotomy i r.classes.length with hlt | rfl | hgt
  · rw [if_pos hlt, if_neg (Nat.ne_of_lt hlt)]
  · simp
  · rw [if_neg (by omega), if_neg (by omega), if_neg (by omega), List.getElem?_eq_none (by omega)]

theorem orderOf_append (r : Registry) (v : VisitorClass) (i : Nat) :
    (⟨r.classes ++ [v]⟩ : Registry).orderOf i =
      if i = r.classes.length then v.order else r.orderOf i := by
  unfold Registry.orderOf
  rw [class?_append]
  split <;> rfl

theorem tableOf_append (r : Registry) (v : VisitorClass) (i : Nat) :
    (⟨r.classes ++ [v]⟩ : Registry).tableOf i =
      if i = r.classes.length then v.table else r.tableOf i := by
  unfold tableOf
  rw [class?_append]
  split <;> rfl

theorem Cached.append (h : Cached r r₀) (ho : v.order = v₀.order)
    (ht : Overlays v.table v₀.table) :
    Cached ⟨r.classes ++ [v]⟩ ⟨r₀.classes ++ [v₀]⟩ where
  length := by simp [h.length]
  order i := by
    rw [orderOf_append, orderOf_append, h.length, ho, h.order]
  table i := by
    rw [tableOf_append, tableOf_append, h.length]
    split
    · exact ht
    · exact h.table i

/-- A call that runs a handler keeps it in the table of its visitor, and changes nothing else. -/
theorem call_eq_some (hc : r.call i c = some (h, r')) :
    r.isCallable i ∧ choose (r.tableOf i) c = some h ∧
      r'.classes.length = r.classes.length ∧ (∀ j, r'.orderOf j = r.orderOf j) ∧
      ∀ j, r'.tableOf j = if j = i then (r.tableOf i).insert (.node c.ref) h else r.tableOf j := by
  unfold call at hc
  split at hc
  · rename_i hi
    obtain ⟨f, hf, heq⟩ := Option.map_eq_some_iff.1 hc
    obtain ⟨rfl, rfl⟩ := Prod.mk.inj heq
    have hclass : ∀ j, (⟨r.classes.modify i fun v =>
        { v with table := v.table.insert (.node c.ref) f }⟩ : Registry).class? j =
          if j = i then (r.class? j).map fun v =>
            { v with table := v.table.insert (.node c.ref) f } else r.class? j := by
      intro j
      unfold class?
      rw [List.getElem?_modify]
      by_cases hj : i = j
      · simp [hj]
      · simp [hj, Ne.symm hj]
    -- a visitor that can be called was declared
    obtain ⟨v, hv⟩ : ∃ v, r.class? i = some v := by
      cases hv : r.class? i with
      | some v => exact ⟨v, rfl⟩
      | none => simp [isCallable, Registry.orderOf, hv] at hi
    refine ⟨hi, hf, by simp, fun j => ?_, fun j => ?_⟩
    · unfold Registry.orderOf
      rw [hclass]
      split
      · cases r.class? j <;> rfl
      · rfl
    · unfold tableOf
      rw [hclass]
      split
      · rename_i hj
        rw [hj, hv]
        rfl
      · rfl
  · cases hc

/-! ## Declaring -/

/-- The handlers of a body. -/
def ownHandlers (name : String) (handlers : List Declaration) : Except DeclarationError Table := do
  let written ← handlers.mapM Declaration.read
  ownTable name ((OrderedMap.ofList written).entries.flatMap fun e => e.2.map fun c => (e.1, c)) ∅

/-- The handlers of a body and those that are inherited. -/
def inheritAll (r : Registry) (bases : List Nat) (own : Table) : Table :=
  (bases.flatMap r.orderOf).foldl (fun t i => inherit t (r.tableOf i)) own

theorem declare_eq (r : Registry) (name : String) (bases : List Nat)
    (handlers : List Declaration) : r.declare name bases handlers =
      match ownHandlers name handlers with
      | .error e => .error e
      | .ok own =>
        if (inheritAll r bases own).contains .default then
          match r.linearize bases with
          | none => .error .inconsistentBases
          | some order => .ok (r.classes.length,
              ⟨r.classes ++ [⟨name, r.classes.length :: order, inheritAll r bases own⟩]⟩)
        else .error (.withoutDefault name) := by
  unfold declare ownHandlers
  cases handlers.mapM Declaration.read with
  | error e => rfl
  | ok written =>
    dsimp only [bind, Except.bind]
    cases ownTable name _ _ <;> rfl

theorem Cached.orderOf_eq (h : Cached r r₀) : r.orderOf = r₀.orderOf := funext h.order

theorem Cached.inheritAll (h : Cached r r₀) (bases : List Nat) (own : Table) :
    Overlays (inheritAll r bases own) (inheritAll r₀ bases own) := by
  unfold Visitor.inheritAll
  rw [h.orderOf_eq]
  have fold : ∀ (l : List Nat) (t t₀ : Table), Overlays t t₀ →
      Overlays (l.foldl (fun t i => inherit t (r.tableOf i)) t)
        (l.foldl (fun t i => inherit t (r₀.tableOf i)) t₀) := by
    intro l
    induction l with
    | nil => exact fun t t₀ ht => ht
    | cons i l ih => exact fun t t₀ ht => ih _ _ (ht.inherit (h.table i))
  exact fold _ own own (.refl own)

theorem Cached.linearize_eq (h : Cached r r₀) (bases : List Nat) :
    r.linearize bases = r₀.linearize bases := by
  unfold linearize
  rw [h.orderOf_eq]

end

/-! ## Histories -/

/-- What is done with visitors. -/
inductive Event where
  | declare (name : String) (bases : List Nat) (handlers : List Declaration)
  | call (visitor : Nat) (c : NodeClass)

def Event.isDeclaration : Event → Bool
  | .declare .. => true
  | .call .. => false

/-- A history without its calls. -/
def declarations (H : List Event) : List Event := H.filter Event.isDeclaration

namespace Registry

variable (r : Registry)

/-- The registry after an event. What is refused changes nothing. -/
def next : Event → Registry
  | .declare name bases handlers =>
    match r.declare name bases handlers with
    | .ok (_, r') => r'
    | .error _ => r
  | .call i c =>
    match r.call i c with
    | some (_, r') => r'
    | none => r

def after (H : List Event) : Registry := H.foldl next r

/-- The handler that a call runs. -/
def handler (i : Nat) (c : NodeClass) : Option Handler := (r.call i c).map Prod.fst

end Registry

section
variable {r r₀ : Registry} {i : Nat} {H : List Event} {c : NodeClass} {K : Set NodeClass}

theorem handler_eq (hi : r.isCallable i) (c : NodeClass) :
    r.handler i c = choose (r.tableOf i) c := by
  unfold handler call
  rw [if_pos hi, Option.map_map]
  cases choose (r.tableOf i) c <;> rfl

/-- A declaration is refused, or adds a visitor. -/
theorem next_declare_cases (r : Registry) (name : String) (bases : List Nat)
    (handlers : List Declaration) : r.next (.declare name bases handlers) = r ∨
      ∃ v, r.next (.declare name bases handlers) = ⟨r.classes ++ [v]⟩ := by
  unfold next
  dsimp only
  rw [declare_eq]
  split
  · rename_i heq
    split at heq
    · cases heq
    · split at heq
      · split at heq
        · cases heq
        · obtain ⟨-, rfl⟩ := Prod.mk.inj (Except.ok.inj heq)
          exact .inr ⟨_, rfl⟩
      · cases heq
  · exact .inl rfl

theorem Cached.next_declare (h : Cached r r₀) (name : String) (bases : List Nat)
    (handlers : List Declaration) :
    Cached (r.next (.declare name bases handlers)) (r₀.next (.declare name bases handlers)) := by
  unfold next
  dsimp only
  rw [declare_eq, declare_eq]
  cases ownHandlers name handlers with
  | error e => exact h
  | ok own =>
    have ht := h.inheritAll bases own
    have hdefault : (Visitor.inheritAll r bases own).contains .default =
        (Visitor.inheritAll r₀ bases own).contains .default := by
      rw [OrderedMap.contains, OrderedMap.contains, ht.default]
    dsimp only
    rw [hdefault, h.linearize_eq bases]
    cases (Visitor.inheritAll r₀ bases own).contains .default with
    | false => exact h
    | true =>
      cases r₀.linearize bases with
      | none => exact h
      | some order => exact h.append (congrArg (· :: order) h.length) ht

theorem Cached.next_call (h : Cached r r₀) (i : Nat) (c : NodeClass) :
    Cached (r.next (.call i c)) r₀ := by
  unfold next
  dsimp only
  cases hc : r.call i c with
  | none => exact h
  | some x =>
    obtain ⟨f, r'⟩ := x
    obtain ⟨-, -, hlength, horder, htable⟩ := call_eq_some hc
    refine ⟨hlength.trans h.length, fun j => (horder j).trans (h.order j), fun j => ?_⟩
    rw [htable]
    split
    · rename_i hj
      rw [hj]
      exact (h.table i).insert c.ref f
    · exact h.table j

/-- Calls neither make a declaration fail nor change which number a visitor has. -/
theorem Cached.after (h : Cached r r₀) (H : List Event) :
    Cached (r.after H) (r₀.after (declarations H)) := by
  induction H generalizing r r₀ with
  | nil => exact h
  | cons e H ih =>
    cases e with
    | declare name bases handlers => exact ih (h.next_declare name bases handlers)
    | call i c => exact ih (h.next_call i c)

/-- The table of a visitor changes only by what its own calls keep. -/
theorem next_table (hi : i < r.classes.length) (e : Event) :
    i < (r.next e).classes.length ∧ (r.next e).orderOf i = r.orderOf i ∧
      ((r.next e).tableOf i = r.tableOf i ∨ ∃ c f, e = .call i c ∧
        choose (r.tableOf i) c = some f ∧
        (r.next e).tableOf i = (r.tableOf i).insert (.node c.ref) f) := by
  cases e with
  | declare name bases handlers =>
    rcases next_declare_cases r name bases handlers with heq | ⟨v, heq⟩
    · rw [heq]
      exact ⟨hi, rfl, .inl rfl⟩
    · rw [heq, orderOf_append, tableOf_append, if_neg (Nat.ne_of_lt hi), if_neg (Nat.ne_of_lt hi)]
      exact ⟨by simp; omega, rfl, .inl rfl⟩
  | call j c =>
    unfold next
    dsimp only
    cases hc : r.call j c with
    | none => exact ⟨hi, rfl, .inl rfl⟩
    | some x =>
      obtain ⟨f, r'⟩ := x
      obtain ⟨-, hf, hlength, horder, htable⟩ := call_eq_some hc
      refine ⟨hlength ▸ hi, horder i, ?_⟩
      dsimp only
      rw [htable]
      split
      · rename_i hj
        obtain rfl := hj
        exact .inr ⟨c, f, rfl, hf, rfl⟩
      · exact .inl rfl

theorem after_call {f : Handler} (hi : r.isCallable i) (hf : choose (r.tableOf i) c = some f) :
    (r.after [.call i c]).orderOf i = r.orderOf i ∧
      (r.after [.call i c]).tableOf i = (r.tableOf i).insert (.node c.ref) f := by
  obtain ⟨r', hcall⟩ : ∃ r', r.call i c = some (f, r') := by
    unfold call
    rw [if_pos hi, hf]
    exact ⟨_, rfl⟩
  have hafter : r.after [.call i c] = r' := by
    change r.next (.call i c) = r'
    unfold next
    dsimp only
    rw [hcall]
  obtain ⟨-, -, -, horder, htable⟩ := call_eq_some hcall
  rw [hafter]
  exact ⟨horder i, by rw [htable, if_pos rfl]⟩

/-- All calls of a visitor are on classes of `K`. -/
def CallsIn (K : Set NodeClass) (i : Nat) (H : List Event) : Prop := ∀ c, .call i c ∈ H → c ∈ K

/-- As long as its table is settled on the classes that it is called on, a visitor keeps its choices
for these. -/
theorem after_settled (hi : i < r.classes.length) (hs : Settled (r.tableOf i) K)
    (hH : CallsIn K i H) : (r.after H).orderOf i = r.orderOf i ∧
      ∀ c ∈ K, choose ((r.after H).tableOf i) c = choose (r.tableOf i) c := by
  induction H generalizing r with
  | nil => exact ⟨rfl, fun _ _ => rfl⟩
  | cons e H ih =>
    obtain ⟨hlt, horder, htable⟩ := next_table hi e
    have hnext : Settled ((r.next e).tableOf i) K ∧
        ∀ c ∈ K, choose ((r.next e).tableOf i) c = choose (r.tableOf i) c := by
      rcases htable with heq | ⟨d, f, rfl, hf, heq⟩
      · rw [heq]
        exact ⟨hs, fun _ _ => rfl⟩
      · rw [heq]
        exact hs.keep (hH d List.mem_cons_self) hf
    obtain ⟨horder', hsame⟩ := ih hlt hnext.1 fun c hc => hH c (List.mem_cons_of_mem _ hc)
    exact ⟨horder'.trans horder, fun c hc => (hsame c hc).trans (hnext.2 c hc)⟩

/-- Without calls nothing changes for a visitor. -/
theorem after_declarations (hi : i < r.classes.length) (H : List Event) :
    (r.after (declarations H)).orderOf i = r.orderOf i ∧
      (r.after (declarations H)).tableOf i = r.tableOf i := by
  unfold declarations
  induction H generalizing r with
  | nil => exact ⟨rfl, rfl⟩
  | cons e H ih =>
    rw [List.filter_cons]
    split
    · rename_i he
      obtain ⟨hlt, horder, htable⟩ := next_table hi e
      obtain ⟨horder', htable'⟩ := ih hlt
      refine ⟨horder'.trans horder, htable'.trans (htable.resolve_right ?_)⟩
      rintro ⟨c, f, rfl, -⟩
      cases he
    · exact ih hi

theorem lt_of_isCallable (hi : r.isCallable i) : i < r.classes.length := by
  by_contra hge
  have hnone : r.class? i = none := List.getElem?_eq_none (by omega)
  simp [isCallable, Registry.orderOf, hnone] at hi

theorem isCallable_of_order {r' : Registry} (hi : r.isCallable i)
    (ho : r'.orderOf i = r.orderOf i) : r'.isCallable i := by
  unfold isCallable
  rwa [ho]

theorem Cached.refl (r : Registry) : Cached r r := ⟨rfl, fun _ => rfl, fun _ => .refl _⟩

theorem declarations_append (H later : List Event) :
    declarations (H ++ later) = declarations H ++ declarations later := List.filter_append H later

theorem after_append (r : Registry) (H later : List Event) :
    r.after (H ++ later) = (r.after H).after later := List.foldl_append

/-! ### Defaults -/

/-- Every visitor has a default. -/
def Defaulted (r : Registry) : Prop :=
  ∀ i < r.classes.length, ((r.tableOf i).get? .default).isSome

theorem defaulted_initial (name : String) : Defaulted (initial name) := by
  intro i hi
  obtain rfl : i = 0 := by simpa [Registry.initial] using hi
  rfl

theorem Defaulted.next (h : Defaulted r) (e : Event) : Defaulted (r.next e) := by
  cases e with
  | declare name bases handlers =>
    unfold Registry.next
    dsimp only
    rw [declare_eq]
    cases ownHandlers name handlers with
    | error e => exact h
    | ok own =>
      dsimp only
      cases hdefault : (inheritAll r bases own).contains .default with
      | false => exact h
      | true =>
        cases r.linearize bases with
        | none => exact h
        | some order =>
          intro i hi
          rw [if_pos rfl] at hi ⊢
          dsimp only at hi ⊢
          rw [tableOf_append]
          split
          · exact hdefault
          · rw [List.length_append, List.length_singleton] at hi
            exact h i (by omega)
  | call j c =>
    intro i hi
    have hlt : i < r.classes.length := by
      unfold Registry.next at hi
      dsimp only at hi
      cases hc : r.call j c with
      | none => rwa [hc] at hi
      | some x =>
        rw [hc] at hi
        rwa [(call_eq_some hc).2.2.1] at hi
    obtain ⟨-, -, htable⟩ := next_table hlt (.call j c)
    rcases htable with heq | ⟨d, f, -, -, heq⟩
    · rw [heq]
      exact h i hlt
    · rw [heq, ((Overlays.refl _).insert d.ref f).default]
      exact h i hlt

theorem Defaulted.after (h : Defaulted r) (H : List Event) : Defaulted (r.after H) := by
  induction H generalizing r with
  | nil => exact h
  | cons e H ih => exact ih (h.next e)

theorem Defaulted.exists_choice (h : Defaulted r) (hi : i < r.classes.length) (c : NodeClass) :
    ∃ f, choose (r.tableOf i) c = some f := by
  rw [← Option.isSome_iff_exists, choose_eq, Option.isSome_or, h i hi, Bool.or_true]

/-! ## What a visitor runs -/

/-- On classes of `K` a visitor runs what it runs without calls, now and later, exactly if it does
now and its table is settled. -/
theorem Cached.fixed_iff (h : Cached r r₀) (hdefault : Defaulted r) (hi : r.isCallable i) :
    (∀ later, CallsIn K i later → ∀ c ∈ K,
      (r.after later).handler i c = (r₀.after (declarations later)).handler i c) ↔
    (∀ c ∈ K, r.handler i c = r₀.handler i c) ∧ Settled (r.tableOf i) K := by
  have hi₀ : r₀.isCallable i := isCallable_of_order hi (h.order i).symm
  have hlt := lt_of_isCallable hi
  have hwithout : ∀ later c, (r₀.after (declarations later)).handler i c = r₀.handler i c := by
    intro later c
    obtain ⟨horder, htable⟩ := after_declarations (lt_of_isCallable hi₀) later
    rw [handler_eq (isCallable_of_order hi₀ horder), handler_eq hi₀, htable]
  simp only [hwithout]
  constructor
  · intro hall
    have hnow : ∀ c ∈ K, r.handler i c = r₀.handler i c :=
      hall [] fun c hc => absurd hc List.not_mem_nil
    refine ⟨hnow, fun c hc d hd hin => ?_⟩
    obtain ⟨f, hf⟩ := hdefault.exists_choice hlt d
    -- a call on the class that is passed would keep its handler
    have hcalled := hall [.call i d] (fun d' hd' => by
      obtain rfl := (Event.call.inj (List.mem_singleton.1 hd')).2
      exact hd) c hc
    obtain ⟨horder, htable⟩ := after_call hi hf
    rw [handler_eq (isCallable_of_order hi horder), htable, choose_keep hf, if_pos hin,
      ← hnow c hc, handler_eq hi] at hcalled
    rw [hf, hcalled]
  · rintro ⟨hnow, hs⟩ later hlater c hc
    obtain ⟨horder, hsame⟩ := after_settled hlt hs hlater
    rw [handler_eq (isCallable_of_order hi horder), hsame c hc, ← handler_eq hi, hnow c hc]

/-- Where orders are nested, the two tables of a visitor choose alike exactly if each entry of the
larger is a choice of the smaller. -/
theorem Overlays.choose_eq_iff {t t₀ : Table} (ho : Overlays t t₀) (hK : Nested K) :
    (∀ c ∈ K, choose t c = choose t₀ c) ↔
      ∀ c ∈ K, ∀ f, t.get? (.node c.ref) = some f → choose t₀ c = some f := by
  constructor
  · intro heq c hc f hf
    rw [← heq c hc]
    exact choose_of_get? hf
  · intro hentries c hc
    rw [choose_eq t]
    cases hfind : c.order.findSome? fun s => t.get? (.node s) with
    | none =>
      rw [List.findSome?_eq_none_iff] at hfind
      rw [choose_eq t₀, List.findSome?_eq_none_iff.2 fun s hs => ho.node s (hfind s hs), ho.default]
    | some f =>
      obtain ⟨before, s, behind, horder, hf, hno⟩ := List.findSome?_eq_some_iff.1 hfind
      obtain ⟨d, hd, rfl⟩ := hK.closed c hc s (by rw [horder]; simp)
      -- the order goes on from the first class with an entry as the order of that class does
      have hrest : d.order = d.ref :: behind := by
        rw [← hK.rest c hc d hd (by rw [horder]; simp), horder, List.dropWhile_append_of_pos]
        · simp
        · intro x hx
          refine decide_eq_true fun heq => ?_
          have hnone := hno x hx
          rw [heq, hf] at hnone
          cases hnone
      have hd₀ := hentries d hd f hf
      rw [choose_eq, hrest] at hd₀
      rw [choose_eq t₀, horder, List.findSome?_append,
        List.findSome?_eq_none_iff.2 fun s hs => ho.node s (hno s hs), Option.none_or, hd₀]
      rfl

/-- Of a visitor that was declared in the course of `H`, no call ever changes what it runs on classes
of `K`, be it made before or later and on which visitor, exactly if it runs what it would run without
calls after `H`, and treats each class like all that the search for it passes. The former is so if
there was no call in `H`. Where orders are nested, as they are where no class has two bases, the
latter is always so, and the former exactly if each entry for a class of `K` is what the visitor runs
on it without calls. -/
theorem handlers_fixed_iff (name : String) (H : List Event) (i : Nat)
    (hi : ((initial name).after H).isCallable i) (K : Set NodeClass) :
    ((∀ later, CallsIn K i later → ∀ c ∈ K, ((initial name).after (H ++ later)).handler i c =
        ((initial name).after (declarations (H ++ later))).handler i c) ↔
      (∀ c ∈ K, ((initial name).after H).handler i c =
        ((initial name).after (declarations H)).handler i c) ∧
      Settled (((initial name).after H).tableOf i) K) ∧
    ((∀ e ∈ H, e.isDeclaration) → ∀ c, ((initial name).after H).handler i c =
      ((initial name).after (declarations H)).handler i c) ∧
    (Nested K → Settled (((initial name).after H).tableOf i) K ∧
      ((∀ c ∈ K, ((initial name).after H).handler i c =
          ((initial name).after (declarations H)).handler i c) ↔
        ∀ c ∈ K, ∀ f, (((initial name).after H).tableOf i).get? (.node c.ref) = some f →
          ((initial name).after (declarations H)).handler i c = some f)) := by
  have hcached : Cached ((initial name).after H) ((initial name).after (declarations H)) :=
    (Cached.refl (initial name)).after H
  have hi₀ : ((initial name).after (declarations H)).isCallable i :=
    isCallable_of_order hi (hcached.order i).symm
  refine ⟨?_, fun hH c => ?_, fun hK => ⟨hK.settled _, ?_⟩⟩
  · simp only [declarations_append, after_append]
    exact hcached.fixed_iff ((defaulted_initial name).after H) hi
  · have hno : declarations H = H := List.filter_eq_self.2 hH
    rw [hno]
  · simp only [handler_eq hi, handler_eq hi₀]
    exact (hcached.table i).choose_eq_iff hK

end

/-! ### A visitor that overrides a default -/

namespace Shapes

def shape : NodeClass := ⟨⟨1, "Shape"⟩, NodeClass.object.order⟩

def circle : NodeClass := ⟨⟨2, "Circle"⟩, shape.order⟩

/-- Treats all nodes alike. -/
def plain : Event := .declare "Plain" [0] [⟨"other", none⟩]

/-- Treats shapes by a handler of its own, and all else as the visitor above. -/
def drawing : Event := .declare "Drawing" [1] [⟨"onShape", some [.node shape.ref]⟩]

def root : Registry := .initial "Root"

def classes : List NodeClass := [circle, shape, .object]

theorem singleBased : SingleBased classes := by
  have hshape : SingleBased [shape, .object] :=
    .declare .object (List.mem_singleton.2 rfl) (show NodeClass.declare shape.ref _ = _ from rfl)
  exact .declare hshape List.mem_cons_self (show NodeClass.declare circle.ref _ = _ from rfl)

/-- The second visitor inherits what was kept for objects, which is its own choice. So no call ever
matters to it. -/
theorem handlers_fixed_iff_shapes :
    (root.after [plain, .call 1 .object, drawing]).isCallable 2 ∧ Nested {c | c ∈ classes} ∧
    ((root.after [plain, .call 1 .object, drawing]).tableOf 2).get? (.node NodeClass.object.ref) =
      some (.named "Plain" "other") ∧
    ∀ later, CallsIn {c | c ∈ classes} 2 later → ∀ c ∈ classes,
      (root.after ([plain, .call 1 .object, drawing] ++ later)).handler 2 c =
        (root.after (declarations ([plain, .call 1 .object, drawing] ++ later))).handler 2 c := by
  have hcallable : (root.after [plain, .call 1 .object, drawing]).isCallable 2 := by decide
  obtain ⟨hiff, -, hnested⟩ := handlers_fixed_iff "Root" [plain, .call 1 .object, drawing] 2
    hcallable {c | c ∈ classes}
  obtain ⟨hsettled, hentries⟩ := hnested singleBased.nested
  refine ⟨hcallable, singleBased.nested, by decide, hiff.2 ⟨hentries.2 fun c hc f hf => ?_, hsettled⟩⟩
  rcases List.mem_cons.1 hc with rfl | hc
  · cases hf
  · rcases List.mem_pair.1 hc with rfl | rfl
    · obtain rfl := Option.some.inj hf
      decide
    · obtain rfl := Option.some.inj hf
      decide

def filled : NodeClass := ⟨⟨3, "Filled"⟩, NodeClass.object.order⟩

def rounded : NodeClass := ⟨⟨4, "Rounded"⟩, NodeClass.object.order⟩

def disc : NodeClass := ⟨⟨5, "Disc"⟩, [rounded.ref, filled.ref, NodeClass.object.ref]⟩

/-- Treats what is filled by a handler of its own. -/
def painting : Event :=
  .declare "Painting" [0] [⟨"onFilled", some [.node filled.ref]⟩, ⟨"other", none⟩]

/-- Declared after a call on a circle, a visitor inherits what that call kept. And the search for a
class with two bases ends at the first of them if the visitor was called on that one before. -/
theorem handler_kept_by_call :
    ((root.after [plain, .call 1 circle, drawing]).handler 2 circle =
        some (.named "Plain" "other") ∧
      (root.after (declarations [plain, .call 1 circle, drawing])).handler 2 circle =
        some (.named "Drawing" "onShape")) ∧
    NodeClass.declare disc.ref [rounded, filled] = some disc ∧
    (root.after [painting, .call 1 rounded]).handler 1 disc = some (.named "Painting" "other") ∧
    (root.after (declarations [painting, .call 1 rounded])).handler 1 disc =
      some (.named "Painting" "onFilled") := by
  refine ⟨⟨?_, ?_⟩, ?_, ?_, ?_⟩ <;> decide

end Shapes

end Visitor

end ObjectFlow
