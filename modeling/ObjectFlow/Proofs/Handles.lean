import ObjectFlow.PointsTo.ContextTable
import ObjectFlow.Proofs.Universe
/-!
# One handle for each context

A selector answers equal contexts with one handle and different contexts with
different handles, however often it is asked. What a handle stands for never
changes, so contexts may be compared by their handles. All contexts that calls and
allocations lead to can be handed out by one table.
-/

namespace ObjectFlow

/-! ## Interning -/

namespace Interner

variable {κ : Type} [DecidableEq κ]

/-- A table only grows at its end. -/
theorem prefix_get (t : Interner κ) (k : κ) : t.toList <+: (t.get k).2.toList := by
  simp only [get, intern, toList, OrderedSet.toList_insert]
  split
  · exact List.prefix_rfl
  · exact List.prefix_append _ _

/-- The handle of a key leads back to the key. -/
theorem getElem?_get (t : Interner κ) (k : κ) : (t.get k).2.toList[(t.get k).1]? = some k := by
  by_cases hk : k ∈ t.keys
  · obtain ⟨i, hi⟩ := Option.ne_none_iff_exists'.1 fun hn : t.find? k = none =>
      absurd rfl (of_decide_eq_false (List.findIdx?_eq_none_iff.1 hn k hk))
    obtain ⟨hlt, heq, -⟩ := List.findIdx?_eq_some_iff_getElem.1 hi
    have hget : t.keys.toList[i]? = some k := by
      rw [List.getElem?_eq_getElem hlt, of_decide_eq_true heq]
    simpa [get, hi, intern, toList, OrderedSet.insert_of_mem hk] using hget
  · have hn : t.find? k = none := by
      refine List.findIdx?_eq_none_iff.2 fun j hj => decide_eq_false ?_
      rintro rfl
      exact hk hj
    simp [get, hn, intern, toList, OrderedSet.toList_insert, hk, size, OrderedSet.size]

end Interner

/-! ## One answer -/

namespace ContextRequest

variable {ε : Type}

/-- The elements of the context that answers a request, where those of a handle are known. -/
def meaning (s : Selector) (elements : Nat → Context ε) : ContextRequest ε → Context ε
  | make limit es => Context.latest limit es
  | append limit c e => Context.append limit (elements c) e
  | callee caller site receiver => s.calleeContext (elements caller) site
      (receiver.map fun r => ⟨elements r.context, r.object, r.container⟩)
  | heap c => s.heapContext (elements c)

end ContextRequest

namespace ContextTable

variable {ε : Type} [DecidableEq ε] {s : Selector} {t : ContextTable ε} {hs : List Nat}

/-- A context stands for a handle in a table, and in every later one. -/
def Holds (t : ContextTable ε) (h : Nat) (c : Context ε) : Prop := t.contexts.toList[h]? = some c

omit [DecidableEq ε] in
theorem Holds.elements {h : Nat} {c : Context ε} (hc : t.Holds h c) : t.elements h = c := by
  rw [ContextTable.elements, hc, Option.getD_some]

/-- An answer with a context: the table has kept what it had. -/
structure Answers (t : ContextTable ε) (c : Context ε) (a : Nat × ContextTable ε) : Prop where
  holds : a.2.Holds a.1 c
  keeps : ∀ {h d}, t.Holds h d → a.2.Holds h d

omit [DecidableEq ε] in
/-- A handle that is handed out again. -/
theorem Answers.again {h : Nat} {c : Context ε} (hc : t.Holds h c) : t.Answers c (h, t) := ⟨hc, id⟩

theorem make_answers (hfirst : t.Holds emptyContext []) (limit : Int) (es : List ε) :
    t.Answers (Context.latest limit es) (t.make limit es) := by
  unfold make
  split
  · rename_i hl
    have hnil : Context.latest limit es = [] := by
      rw [Context.latest, Int.toNat_eq_zero.2 hl, Nat.sub_zero, List.drop_length]
    rw [hnil]
    exact .again hfirst
  · refine ⟨Interner.getElem?_get _ _, fun {h d} hd => ?_⟩
    obtain ⟨rest, hrest⟩ := Interner.prefix_get t.contexts (Context.latest limit es)
    have hlt : h < t.contexts.toList.length := (List.getElem?_eq_some_iff.1 hd).1
    rw [Holds, ← hrest, List.getElem?_append_left hlt]
    exact hd

theorem calleeContext_answers (hfirst : t.Holds emptyContext []) {caller : Nat} {c : Context ε}
    (hc : t.Holds caller c) (site : ε) (receiver : Option (ReceiverHandle ε)) :
    t.Answers (s.calleeContext c site
        (receiver.map fun r => ⟨t.elements r.context, r.object, r.container⟩))
      (t.calleeContext s caller site receiver) := by
  obtain rfl := hc.elements
  match s, receiver with
  | .insensitive, _ => exact .again hfirst
  | .limited .callSite _ _, _ => exact make_answers hfirst _ _
  | .limited .object _ _, none | .limited .type _ _, none => exact .again hc
  | .limited .object _ _, some _ | .limited .type _ _, some _ => exact make_answers hfirst _ _

theorem heapContext_answers (hfirst : t.Holds emptyContext []) (h : Nat) :
    t.Answers (s.heapContext (t.elements h)) (t.heapContext s h) := by
  cases s with
  | insensitive => exact .again hfirst
  | limited f k hk => exact make_answers hfirst hk _

/-- The answer to a request about known handles stands for the context that was asked for. -/
theorem answer_answers (hfirst : t.Holds emptyContext []) {r : ContextRequest ε}
    (hr : ∀ h ∈ r.handles, ∃ c, t.Holds h c) : t.Answers (r.meaning s t.elements) (t.answer s r) := by
  cases r with
  | make limit es => exact make_answers hfirst limit es
  | append limit c e => exact make_answers hfirst limit _
  | callee caller site receiver =>
    obtain ⟨c, hc⟩ := hr caller List.mem_cons_self
    rw [ContextRequest.meaning, hc.elements]
    exact calleeContext_answers hfirst hc site receiver
  | heap c => exact heapContext_answers hfirst c

/-! ## All answers -/

/-- The handles that a selector has handed out so far, and its table. -/
inductive HandedOut (s : Selector) : List Nat → ContextTable ε → Prop
  | fresh : HandedOut s [emptyContext] .fresh
  | ask {hs : List Nat} {t : ContextTable ε} (before : HandedOut s hs t) (r : ContextRequest ε)
    (hr : ∀ h ∈ r.handles, h ∈ hs) : HandedOut s (hs ++ [(t.answer s r).1]) (t.answer s r).2

/-- Every handle that was handed out stands for a context, the first one for that without
elements. -/
theorem HandedOut.holds (h : HandedOut s hs t) :
    t.Holds emptyContext [] ∧ ∀ a ∈ hs, ∃ c, t.Holds a c := by
  induction h with
  | fresh =>
    refine ⟨rfl, fun a ha => ⟨[], ?_⟩⟩
    obtain rfl := List.mem_singleton.1 ha
    rfl
  | ask _ r hr ih =>
    obtain ⟨hfirst, hall⟩ := ih
    have hans := answer_answers (s := s) hfirst fun a ha => hall a (hr a ha)
    refine ⟨hans.keeps hfirst, fun a ha => ?_⟩
    rcases List.mem_append.1 ha with ha | ha
    · obtain ⟨c, hc⟩ := hall a ha
      exact ⟨c, hans.keeps hc⟩
    · obtain rfl := List.mem_singleton.1 ha
      exact ⟨_, hans.holds⟩

/-- Handles are equal exactly if the contexts have the same elements. -/
theorem HandedOut.eq_iff (h : HandedOut s hs t) {a b : Nat} (ha : a ∈ hs) (hb : b ∈ hs) :
    a = b ↔ t.elements a = t.elements b := by
  obtain ⟨c, hc⟩ := h.holds.2 a ha
  obtain ⟨d, hd⟩ := h.holds.2 b hb
  rw [hc.elements, hd.elements]
  constructor
  · rintro rfl
    exact Option.some.inj (hc.symm.trans hd)
  · -- no context stands in the table twice
    rintro rfl
    have hlt : a < t.contexts.toList.length := (List.getElem?_eq_some_iff.1 hc).1
    exact (List.getElem?_inj hlt t.contexts.keys.nodup).1 (hc.trans hd.symm)

theorem HandedOut.emptyContext_mem (h : HandedOut s hs t) : emptyContext ∈ hs := by
  induction h with
  | fresh => exact List.mem_singleton.2 rfl
  | ask _ _ _ ih => exact List.mem_append_left _ ih

/-- The context without elements has one handle. -/
theorem HandedOut.eq_emptyContext_iff (h : HandedOut s hs t) {a : Nat} (ha : a ∈ hs) :
    a = emptyContext ↔ (t.elements a).length = 0 := by
  rw [h.eq_iff ha h.emptyContext_mem, h.holds.1.elements, List.length_eq_zero_iff]

/-! ## Every context of a run -/

/-- The contexts that a selector can be brought to hand out. -/
inductive Obtained (s : Selector) : Context ε → Prop
  | empty : Obtained s []
  | callee {caller : Context ε} (hc : Obtained s caller) (site : ε)
    (r : Option (ReceiverObject ε)) (hr : ∀ o, r = some o → Obtained s o.context) :
    Obtained s (s.calleeContext caller site r)
  | heap {c : Context ε} (hc : Obtained s c) : Obtained s (s.heapContext c)

/-- A selector that was asked further: its handles stay what they were. -/
structure Later (s : Selector) (hs : List Nat) (t : ContextTable ε) (hs' : List Nat)
    (t' : ContextTable ε) : Prop where
  handed : HandedOut s hs' t'
  sub : ∀ a ∈ hs, a ∈ hs'
  keeps : ∀ {a c}, t.Holds a c → t'.Holds a c

/-- The context has a handle. -/
def Has (hs : List Nat) (t : ContextTable ε) (c : Context ε) : Prop := ∃ a ∈ hs, t.Holds a c

theorem Later.refl (h : HandedOut s hs t) : Later s hs t hs t := ⟨h, fun _ ha => ha, id⟩

theorem Later.trans {hs' hs'' : List Nat} {t' t'' : ContextTable ε} (h : Later s hs t hs' t')
    (h' : Later s hs' t' hs'' t'') : Later s hs t hs'' t'' :=
  ⟨h'.handed, fun a ha => h'.sub a (h.sub a ha), fun hc => h'.keeps (h.keeps hc)⟩

theorem Later.has {hs' : List Nat} {t' : ContextTable ε} (h : Later s hs t hs' t')
    {c : Context ε} (hc : Has hs t c) : Has hs' t' c := by
  obtain ⟨a, ha, hc⟩ := hc
  exact ⟨a, h.sub a ha, h.keeps hc⟩

theorem HandedOut.asked (h : HandedOut s hs t) {r : ContextRequest ε}
    (hr : ∀ a ∈ r.handles, a ∈ hs) :
    ∃ hs' t', Later s hs t hs' t' ∧ Has hs' t' (r.meaning s t.elements) := by
  have hans := answer_answers (s := s) h.holds.1 fun a ha => h.holds.2 a (hr a ha)
  exact ⟨_, _, ⟨h.ask r hr, fun a ha => List.mem_append_left _ ha, hans.keeps⟩,
    _, List.mem_append_right _ (List.mem_singleton.2 rfl), hans.holds⟩

/-- Whatever was handed out before, further requests lead to a context that can be obtained. -/
theorem HandedOut.reach {c : Context ε} (hc : Obtained s c) (h : HandedOut s hs t) :
    ∃ hs' t', Later s hs t hs' t' ∧ Has hs' t' c := by
  induction hc generalizing hs t with
  | empty => exact ⟨hs, t, .refl h, _, h.emptyContext_mem, h.holds.1⟩
  | heap _ ih =>
    obtain ⟨hs₁, t₁, h₁, a, ha, hac⟩ := ih h
    obtain ⟨hs₂, t₂, h₂, hc⟩ := h₁.handed.asked (r := .heap a)
      fun b hb => List.mem_singleton.1 hb ▸ ha
    rw [ContextRequest.meaning, hac.elements] at hc
    exact ⟨hs₂, t₂, h₁.trans h₂, hc⟩
  | callee _ site r _ ih ihr =>
    obtain ⟨hs₁, t₁, h₁, a, ha, hac⟩ := ih h
    cases r with
    | none =>
      obtain ⟨hs₂, t₂, h₂, hc⟩ := h₁.handed.asked (r := .callee a site none)
        fun b hb => List.mem_singleton.1 hb ▸ ha
      rw [ContextRequest.meaning, hac.elements] at hc
      exact ⟨hs₂, t₂, h₁.trans h₂, hc⟩
    | some o =>
      -- the context of the object comes second, that of the caller is still there
      obtain ⟨hs₂, t₂, h₂, b, hb, hbc⟩ := ihr o rfl h₁.handed
      obtain ⟨hs₃, t₃, h₃, hc⟩ := h₂.handed.asked
        (r := .callee a site (some ⟨b, o.object, o.container⟩)) fun d hd => by
          rcases List.mem_cons.1 hd with rfl | hd
          · exact h₂.sub _ ha
          · exact List.mem_singleton.1 hd ▸ hb
      rw [ContextRequest.meaning, (h₂.keeps hac).elements, Option.map_some, hbc.elements] at hc
      exact ⟨hs₃, t₃, (h₁.trans h₂).trans h₃, hc⟩

/-- One selector can hand out any contexts that can be obtained. -/
theorem exists_handedOut {l : List (Context ε)} (hl : ∀ c ∈ l, Obtained s c) :
    ∃ hs t, HandedOut s hs t ∧ ∀ c ∈ l, Has hs t c := by
  induction l with
  | nil => exact ⟨_, _, .fresh, fun _ hc => absurd hc List.not_mem_nil⟩
  | cons c l ih =>
    obtain ⟨hs, t, h, hall⟩ := ih fun d hd => hl d (List.mem_cons_of_mem _ hd)
    obtain ⟨hs', t', h', hc⟩ := h.reach (hl c List.mem_cons_self)
    refine ⟨hs', t', h'.handed, fun d hd => ?_⟩
    rcases List.mem_cons.1 hd with rfl | hd
    · exact hc
    · exact h'.has (hall d hd)

end ContextTable

end ObjectFlow
