import ObjectFlow.Proofs.Coarsening
/-!
# Entries as a set

The rules ask of the entries only that each of them is reachable, so what is
closed under the rules for some entries is closed for any fewer. Neither the
order of the entries nor how often one is named makes a difference, and another
entry only adds to what is found.
-/

namespace ObjectFlow.PointsTo

section
variable {p : Program} {E E' : List Method} {s : Selector} {F : Set Conclusion} {st st' : State}
  {fuel fuel' : Nat}

/-- What is closed for some entries is closed for those among them. -/
theorem Closed.of_entries {n n' : Nat} (hE : E ⊆ E') (hF : Closed p ⟨E', s, n⟩ F) :
    Closed p ⟨E, s, n'⟩ F where
  entry m hm := hF.entry m (hE hm)
  alloc := hF.alloc
  copy := hF.copy
  staticLoad := hF.staticLoad
  staticStore := hF.staticStore
  staticCall := hF.staticCall
  fieldStore := hF.fieldStore
  fieldLoad := hF.fieldLoad
  elementStore := hF.elementStore
  elementLoad := hF.elementLoad
  instanceCall := hF.instanceCall
  receiver := hF.receiver
  callee := hF.callee
  argument := hF.argument
  result := hF.result
  flow := hF.flow
  bodiless := hF.bodiless

/-- Two analyses that return, the one from no other entries than the other. -/
theorem conclusions_subset_of_entries (hE : E ⊆ E')
    (h : analyze fuel p ⟨E, s, 0⟩ .empty = (.ok (), st))
    (h' : analyze fuel' p ⟨E', s, 0⟩ .empty = (.ok (), st')) :
    st.conclusions ⊆ st'.conclusions := by
  have hleast : IsLeast {F | Closed p ⟨E, s, 0⟩ F} st.conclusions := (analyze_least rfl h).1
  have hclosed : Closed p ⟨E', s, 0⟩ st'.conclusions := (analyze_least rfl h').1.1
  exact hleast.2 (hclosed.of_entries hE)

/-- Fewer entries meet no fault that more do not meet. -/
theorem yields_of_entries (hE : E ⊆ E')
    (h' : analyze fuel' p ⟨E', s, 0⟩ .empty = (.ok (), st')) : ∃ st, Yields p ⟨E, s, 0⟩ st := by
  obtain ⟨st₀, hs, hr, hp⟩ := analyze_eq_ok h'
  have howed := (Owed.start hs).reaches hr
  exact yields_of_faultless rfl ((howed.closed hp).of_entries hE) howed.faultless

/-- If an analysis returns then so does the one from some of its entries, and finds no more: no
other reachable methods, call edges, flow edges or objects. Where the entries are the same, in
whatever order and however often each is named, the same is found. -/
theorem fewer_entries_find_less (p : Program) (s : Selector) {E E' : List Method} (hE : E ⊆ E')
    {fuel : Nat} {st' : State} (h' : analyze fuel p ⟨E', s, 0⟩ .empty = (.ok (), st')) :
    ∃ st, Yields p ⟨E, s, 0⟩ st ∧ st.conclusions ⊆ st'.conclusions ∧
      (E' ⊆ E → st.conclusions = st'.conclusions) := by
  obtain ⟨st, n, hn⟩ := yields_of_entries hE h'
  have h := hn n (Nat.le_refl n)
  have hsub := conclusions_subset_of_entries hE h h'
  exact ⟨st, ⟨n, hn⟩, hsub, fun hE' => hsub.antisymm (conclusions_subset_of_entries hE' h' h)⟩

end

/-! ### A method that stores an object, and one that loads it -/

namespace Handover

def owner : ClassRef := ⟨0, "A"⟩

def make : Method := ⟨0, owner, ⟨"make", [], .void⟩, true, false, false⟩

def use : Method := ⟨1, owner, ⟨"use", [], .void⟩, true, false, false⟩

def hierarchy : Hierarchy :=
  let h := (Hierarchy.empty.addClass "A" none [] false false).2
  let h := (h.addMethod owner make.signature true false false).2
  (h.addMethod owner use.signature true false false).2

def shared : Field := ⟨0, owner, "shared", .object owner, true⟩

def made : Var := ⟨0, "made", .object owner, make⟩

def used : Var := ⟨0, "used", .object owner, use⟩

def makeBody : Body where
  method := make
  receiver := none
  params := []
  vars := [made]
  stmts := [⟨⟨0, 1, make⟩, .alloc made (.object owner)⟩,
    ⟨⟨1, 2, make⟩, .storeField (.static shared) made⟩, ⟨⟨2, 3, make⟩, .ret none⟩]

def useBody : Body where
  method := use
  receiver := none
  params := []
  vars := [used]
  stmts := [⟨⟨0, 1, use⟩, .loadField used (.static shared)⟩, ⟨⟨1, 2, use⟩, .ret none⟩]

def program : Program := ⟨hierarchy, OrderedMap.ofList [(make, makeBody), (use, useBody)]⟩

def object : CtxObject := ⟨[], ⟨⟨0, 1, make⟩, .object owner⟩⟩

def selector : Selector := .limited .object 2 1

def final : State := (analyze 20 program ⟨[use, make, use], selector, 0⟩ .empty).2

theorem analyze_eq :
    analyze 20 program ⟨[use, make, use], selector, 0⟩ .empty = (.ok (), final) := rfl

theorem analyze_use : ∃ st, analyze 20 program ⟨[use], selector, 0⟩ .empty = (.ok (), st) ∧
    object ∉ st.objectsOf (varIn [] used) := ⟨_, rfl, by decide⟩

/-- From both methods the object is found where it is loaded, whichever is named first. From the
method that loads it alone, nothing is found there. -/
theorem fewer_entries_find_less_handover :
    analyze 20 program ⟨[use, make, use], selector, 0⟩ .empty = (.ok (), final) ∧
    object ∈ final.objectsOf (varIn [] used) ∧
    (∃ st, Yields program ⟨[make, use], selector, 0⟩ st ∧ st.conclusions = final.conclusions) ∧
    ∃ st, Yields program ⟨[use], selector, 0⟩ st ∧ st.conclusions ⊆ final.conclusions ∧
      object ∉ st.objectsOf (varIn [] used) := by
  refine ⟨analyze_eq, by decide, ?_, ?_⟩
  · obtain ⟨st, hst, -, hsame⟩ := fewer_entries_find_less program selector
      (show [make, use] ⊆ [use, make, use] by decide) analyze_eq
    exact ⟨st, hst, hsame (by decide)⟩
  · obtain ⟨st, ⟨n, hn⟩, hsub, -⟩ := fewer_entries_find_less program selector
      (show [use] ⊆ [use, make, use] by decide) analyze_eq
    refine ⟨st, ⟨n, hn⟩, hsub, fun hin => ?_⟩
    -- any two analyses that return find the same
    obtain ⟨st', hst', hno⟩ := analyze_use
    have hle := conclusions_subset_of_entries (List.Subset.refl [use]) (hn n (Nat.le_refl n)) hst'
    exact hno (show Conclusion.holds (varIn [] used) object ∈ st'.conclusions from hle hin)

end Handover

end ObjectFlow.PointsTo
