import ObjectFlow.Proofs.Handlers
/-!
# What a visitor is written as

A handler is written for node classes in nested groups, or as the default. A body keeps
the last handler of each name. Its table is what its source says, if every handler was
written for node classes and those that are kept list no case twice; any other body is
refused.
-/

namespace ObjectFlow.Visitor

open Registry

/-! ## What is written -/

/-- What stands at the end of a branch of a case tree. -/
inductive Leaf where
  | type (c : NodeRef)
  | other (t : Term)

def Leaf.case? : Leaf → Option Case
  | type c => some (.node c)
  | other _ => none

namespace CaseTree

mutual
/-- The leaves of a tree, in order. -/
def leaves : CaseTree → List Leaf
  | node c => [.type c]
  | other t => [.other t]
  | group items => leavesAll items

def leavesAll : List CaseTree → List Leaf
  | [] => []
  | t :: ts => leaves t ++ leavesAll ts
end

end CaseTree

namespace Declaration

/-- What a handler is written for. -/
def leaves (d : Declaration) : List Leaf := (d.cases.map CaseTree.leavesAll).getD []

/-- The cases that a handler lists. -/
def listed (d : Declaration) : List Case :=
  match d.cases with
  | none => [.default]
  | some ts => (CaseTree.leavesAll ts).filterMap Leaf.case?

end Declaration

/-- The handlers of a body that no later handler of the same name replaces. -/
def surviving : List Declaration → List Declaration
  | [] => []
  | d :: ds => if d.name ∈ ds.map Declaration.name then surviving ds else d :: surviving ds

/-- A visitor as it is written. -/
structure Source where
  name : String
  bases : List Nat
  handlers : List Declaration

namespace Source

/-- The cases that the body lists. -/
def listed (d : Source) : List Case := (surviving d.handlers).flatMap Declaration.listed

/-- The handler that the body has for a case. -/
def own (d : Source) (c : Case) : Option Handler :=
  ((surviving d.handlers).find? fun h => decide (c ∈ h.listed)).map fun h => .named d.name h.name

end Source

/-! ## Reading what is written -/

section
variable {c : Case} {h : Handler}

mutual
/-- A tree whose leaves are node classes is read as these; any other has a leaf that is refused. -/
theorem flatten_cases : ∀ t : CaseTree,
    (∃ cs, t.flatten = .ok cs ∧ t.leaves = cs.map .type) ∨
      ∃ u, t.flatten = .error (.notAClass u) ∧ .other u ∈ t.leaves
  | .node c => .inl ⟨[c], by simp [CaseTree.flatten, CaseTree.leaves]⟩
  | .other u => .inr ⟨u, by simp [CaseTree.flatten, CaseTree.leaves]⟩
  | .group items => by
    simp only [CaseTree.flatten, CaseTree.leaves]
    exact flattenAll_cases items

theorem flattenAll_cases : ∀ ts : List CaseTree,
    (∃ cs, CaseTree.flattenAll ts = .ok cs ∧ CaseTree.leavesAll ts = cs.map .type) ∨
      ∃ u, CaseTree.flattenAll ts = .error (.notAClass u) ∧ .other u ∈ CaseTree.leavesAll ts
  | [] => .inl ⟨[], by simp [CaseTree.flattenAll, CaseTree.leavesAll]⟩
  | t :: ts => by
    simp only [CaseTree.flattenAll, CaseTree.leavesAll]
    rcases flatten_cases t with ⟨cs, ht, hleaves⟩ | ⟨u, ht, hu⟩
    · rcases flattenAll_cases ts with ⟨ds, hts, hrest⟩ | ⟨u, hts, hu⟩
      · refine .inl ⟨cs ++ ds, ?_, ?_⟩
        · rw [ht, hts]
          rfl
        · rw [hleaves, hrest, List.map_append]
      · refine .inr ⟨u, ?_, List.mem_append_right _ hu⟩
        rw [ht, hts]
        rfl
    · refine .inr ⟨u, ?_, List.mem_append_left _ hu⟩
      rw [ht]
      rfl
end

/-- A handler is read with the cases that it lists, unless it is written for something else. -/
theorem read_cases (d : Declaration) :
    (d.read = .ok (d.name, d.listed) ∧ ∀ u, .other u ∉ d.leaves) ∨
      ∃ u, d.read = .error (.notAClass u) ∧ .other u ∈ d.leaves := by
  unfold Declaration.read Declaration.listed Declaration.leaves
  cases d.cases with
  | none => exact .inl ⟨rfl, fun u => List.not_mem_nil⟩
  | some ts =>
    rcases flattenAll_cases ts with ⟨cs, hts, hleaves⟩ | ⟨u, hts, hu⟩
    · refine .inl ⟨?_, fun u hu => ?_⟩
      · simp [hts, hleaves, Except.map, List.filterMap_map, Function.comp_def, Leaf.case?]
      · rw [Option.map_some, Option.getD_some, hleaves] at hu
        obtain ⟨_, -, hc⟩ := List.mem_map.1 hu
        cases hc
    · refine .inr ⟨u, ?_, hu⟩
      dsimp only
      rw [hts]
      rfl

theorem mapM_read_cases (ds : List Declaration) :
    (ds.mapM Declaration.read = .ok (ds.map fun d => (d.name, d.listed)) ∧
      ∀ d ∈ ds, ∀ u, .other u ∉ d.leaves) ∨
    ∃ u, ds.mapM Declaration.read = .error (.notAClass u) ∧ ∃ d ∈ ds, .other u ∈ d.leaves := by
  induction ds with
  | nil => exact .inl ⟨rfl, fun d hd => absurd hd List.not_mem_nil⟩
  | cons d ds ih =>
    rw [List.mapM_cons]
    rcases read_cases d with ⟨hd, hno⟩ | ⟨u, hd, hu⟩
    · rcases ih with ⟨hds, hrest⟩ | ⟨u, hds, d', hd', hu⟩
      · left
        refine ⟨?_, List.forall_mem_cons.2 ⟨hno, hrest⟩⟩
        rw [hd, hds]
        rfl
      · refine .inr ⟨u, ?_, d', List.mem_cons_of_mem _ hd', hu⟩
        rw [hd, hds]
        rfl
    · refine .inr ⟨u, ?_, d, List.mem_cons_self, hu⟩
      rw [hd]
      rfl

/-! ## Handlers of one name -/

theorem name_mem_surviving {ds : List Declaration} {n : String} :
    n ∈ (surviving ds).map Declaration.name ↔ n ∈ ds.map Declaration.name := by
  induction ds with
  | nil => rfl
  | cons d ds ih =>
    unfold surviving
    split
    · rename_i hin
      rw [ih, List.map_cons, List.mem_cons]
      exact ⟨.inr, fun hor => hor.elim (fun heq => heq ▸ hin) id⟩
    · rw [List.map_cons, List.map_cons, List.mem_cons, List.mem_cons, ih]

theorem nodup_surviving (ds : List Declaration) :
    ((surviving ds).map Declaration.name).Nodup := by
  induction ds with
  | nil => exact List.nodup_nil
  | cons d ds ih =>
    unfold surviving
    split
    · exact ih
    · rename_i hno
      exact List.nodup_cons.2 ⟨fun hin => hno (name_mem_surviving.1 hin), ih⟩

theorem find?_surviving {ds : List Declaration} {d : Declaration} {n : String} :
    (surviving ds).find? (fun d => decide (d.name = n)) = some d ↔
      d ∈ surviving ds ∧ d.name = n := by
  constructor
  · intro h
    have hname := List.find?_some h
    exact ⟨List.mem_of_find?_eq_some h, of_decide_eq_true hname⟩
  · rintro ⟨hd, hn⟩
    cases hf : (surviving ds).find? fun d => decide (d.name = n) with
    | none => exact absurd (decide_eq_true hn) (List.find?_eq_none.1 hf d hd)
    | some d' =>
      have hname := List.find?_some hf
      rw [List.inj_on_of_nodup_map (nodup_surviving ds) (List.mem_of_find?_eq_some hf) hd
        ((of_decide_eq_true hname).trans hn.symm)]

/-- Bindings made one after the other leave what survives of them. -/
theorem get?_insertAll_surviving (ds : List Declaration) (m : OrderedMap String (List Case))
    (n : String) : (m.insertAll (ds.map fun d => (d.name, d.listed))).get? n =
      (((surviving ds).find? fun d => decide (d.name = n)).map Declaration.listed).or
        (m.get? n) := by
  induction ds generalizing m with
  | nil => simp [OrderedMap.insertAll, surviving]
  | cons d ds ih =>
    have hinsert : m.insertAll ((d :: ds).map fun d => (d.name, d.listed)) =
        (m.insert d.name d.listed).insertAll (ds.map fun d => (d.name, d.listed)) := rfl
    rw [hinsert, ih, OrderedMap.get?_insert, surviving]
    by_cases hd : d.name ∈ ds.map Declaration.name
    · rw [if_pos hd]
      by_cases hn : n = d.name
      · -- a later handler of the name takes the place
        obtain ⟨d', hd', hname⟩ := List.mem_map.1 (name_mem_surviving.2 hd)
        rw [find?_surviving.2 ⟨hd', hname.trans hn.symm⟩]
        rfl
      · rw [if_neg hn]
    · rw [if_neg hd]
      by_cases hn : n = d.name
      · subst hn
        have hnone : (surviving ds).find? (fun d' => decide (d'.name = d.name)) = none := by
          refine List.find?_eq_none.2 fun d' hd' hname => hd ?_
          exact name_mem_surviving.1 (List.mem_map.2 ⟨d', hd', of_decide_eq_true hname⟩)
        simp [hnone]
      · have hne : ¬ d.name = n := fun h => hn h.symm
        simp [hn, hne]

/-- The handlers of a body by name are those that survive. -/
theorem entries_perm_surviving (ds : List Declaration) :
    (OrderedMap.ofList (ds.map fun d => (d.name, d.listed))).entries.Perm
      ((surviving ds).map fun d => (d.name, d.listed)) := by
  have hnames : (((surviving ds).map fun d => (d.name, d.listed)).map Prod.fst).Nodup := by
    rw [List.map_map]
    exact nodup_surviving ds
  refine (List.perm_ext_iff_of_nodup (.of_map _ (OrderedMap.nodup _)) (.of_map _ hnames)).2 ?_
  rintro ⟨n, cs⟩
  rw [OrderedMap.mem_entries_iff, OrderedMap.ofList, get?_insertAll_surviving,
    OrderedMap.get?_empty, Option.or_none, Option.map_eq_some_iff]
  simp only [find?_surviving, List.mem_map, Prod.mk.injEq, and_assoc]

/-! ## The table of a body -/

/-- A body is read case by case, up to the first that was handled before. -/
theorem ownTable_cases (v : String) (l : List (String × Case)) (t : Table) :
    (∃ t', ownTable v l t = .ok t' ∧ (t.keys ++ l.map Prod.snd).Nodup ∧
      ∀ c f, t'.get? c = some f ↔ t.get? c = some f ∨ ∃ n, (n, c) ∈ l ∧ f = .named v n) ∨
    ∃ c, ownTable v l t = .error (.repeated v c) ∧ ¬ (t.keys ++ l.map Prod.snd).Nodup := by
  induction l generalizing t with
  | nil =>
    have hkeys : (t.keys ++ []).Nodup := by
      rw [List.append_nil]
      exact t.nodup
    exact .inl ⟨t, rfl, hkeys, by simp⟩
  | cons e l ih =>
    obtain ⟨n, c⟩ := e
    unfold ownTable
    by_cases hc : t.contains c
    · refine .inr ⟨c, if_pos hc, fun hnodup => ?_⟩
      exact (List.nodup_append.1 hnodup).2.2 c (OrderedMap.contains_iff.1 hc) c List.mem_cons_self rfl
    · rw [if_neg hc]
      have hfree : c ∉ t.keys := fun hin => hc (OrderedMap.contains_iff.2 hin)
      -- the case goes from those that are to be read to those that are there
      have hmove : (t.insert c (.named v n)).keys ++ l.map Prod.snd =
          t.keys ++ ((n, c) :: l).map Prod.snd := by
        rw [OrderedMap.keys_insert, if_neg hfree, List.append_assoc]
        rfl
      rcases ih (t.insert c (.named v n)) with ⟨t', ht', hnodup, hget⟩ | ⟨d, ht', hrep⟩
      · rw [hmove] at hnodup
        refine .inl ⟨t', ht', hnodup, fun d f => ?_⟩
        rw [hget, OrderedMap.get?_insert]
        by_cases hd : d = c
        · subst hd
          have hnone : t.get? d = none := by simpa [OrderedMap.contains] using hc
          simp [hnone, eq_comm]
        · simp [hd]
      · rw [hmove] at hrep
        exact .inr ⟨d, ht', hrep⟩

/-- The cases of a body with the names of their handlers. -/
def bindings (es : List (String × List Case)) : List (String × Case) :=
  es.flatMap fun e => e.2.map fun c => (e.1, c)

section
variable {d : Source} {es : List (String × List Case)}
  (hperm : es.Perm ((surviving d.handlers).map fun h => (h.name, h.listed)))

include hperm

theorem bindings_perm_listed : ((bindings es).map Prod.snd).Perm d.listed := by
  have hcases : (bindings es).map Prod.snd = es.flatMap Prod.snd := by
    simp [bindings, List.map_flatMap, Function.comp_def]
  rw [hcases]
  refine (hperm.flatMap_right Prod.snd).trans ?_
  rw [List.flatMap_map]
  exact .refl _

theorem mem_bindings {n : String} :
    (n, c) ∈ bindings es ↔ ∃ h ∈ surviving d.handlers, h.name = n ∧ c ∈ h.listed := by
  simp only [bindings, List.mem_flatMap, hperm.mem_iff, List.mem_map, Prod.mk.injEq]
  constructor
  · rintro ⟨_, ⟨h, hh, rfl⟩, c', hc', rfl, rfl⟩
    exact ⟨h, hh, rfl, hc'⟩
  · rintro ⟨h, hh, rfl, hc⟩
    exact ⟨_, ⟨h, hh, rfl⟩, c, hc, rfl, rfl⟩

/-- A table with an entry for just the cases of a body is what the source says. -/
theorem eq_own {f? : Option Handler}
    (hf : ∀ f, f? = some f ↔ ∃ n, (n, c) ∈ bindings es ∧ f = .named d.name n) : f? = d.own c := by
  unfold Source.own
  cases hfind : (surviving d.handlers).find? fun h => decide (c ∈ h.listed) with
  | none =>
    cases f? with
    | none => rfl
    | some f =>
      obtain ⟨n, hn, -⟩ := (hf f).1 rfl
      obtain ⟨h, hh, -, hc⟩ := (mem_bindings hperm).1 hn
      exact absurd (decide_eq_true hc) (List.find?_eq_none.1 hfind h hh)
  | some h =>
    have hc := List.find?_some hfind
    refine (hf _).2 ⟨h.name, (mem_bindings hperm).2 ⟨h, ?_, rfl, of_decide_eq_true hc⟩, rfl⟩
    exact List.mem_of_find?_eq_some hfind

/-- A body that lists each case at most once has the table that its source says. Any other is
refused. -/
theorem ownTable_surviving :
    (∃ t, ownTable d.name (bindings es) ∅ = .ok t ∧ d.listed.Nodup ∧ ∀ c, t.get? c = d.own c) ∨
      ∃ c, ownTable d.name (bindings es) ∅ = .error (.repeated d.name c) ∧ ¬ d.listed.Nodup := by
  have hnodup : ((∅ : Table).keys ++ (bindings es).map Prod.snd).Nodup ↔ d.listed.Nodup :=
    (bindings_perm_listed hperm).nodup_iff
  rcases ownTable_cases d.name (bindings es) ∅ with ⟨t, ht, hno, hget⟩ | ⟨c, ht, hrep⟩
  · refine .inl ⟨t, ht, hnodup.1 hno, fun c => eq_own hperm fun f => ?_⟩
    rw [hget]
    simp
  · exact .inr ⟨c, ht, fun hno => hrep (hnodup.2 hno)⟩

end

/-- What becomes of the handlers of a body: a table as the source says, or why they are refused. -/
theorem ownHandlers_cases (d : Source) :
    (∃ t, ownHandlers d.name d.handlers = .ok t ∧ (∀ c, t.get? c = d.own c) ∧ d.listed.Nodup ∧
      ∀ h ∈ d.handlers, ∀ u, .other u ∉ h.leaves) ∨
    ∃ e, ownHandlers d.name d.handlers = .error e ∧ e ≠ .inconsistentBases ∧
      (¬ d.listed.Nodup ∨ ∃ h ∈ d.handlers, ∃ u, .other u ∈ h.leaves) := by
  unfold ownHandlers
  rcases mapM_read_cases d.handlers with ⟨hread, hno⟩ | ⟨u, hread, h, hh, hu⟩
  · rw [hread]
    have hperm := entries_perm_surviving d.handlers
    rcases ownTable_surviving hperm with ⟨t, ht, hnodup, hget⟩ | ⟨c, ht, hrep⟩
    · exact .inl ⟨t, ht, hget, hnodup, hno⟩
    · exact .inr ⟨_, ht, by simp, .inl hrep⟩
  · rw [hread]
    exact .inr ⟨_, rfl, by simp, .inr ⟨h, hh, u, hu⟩⟩

end

end ObjectFlow.Visitor
