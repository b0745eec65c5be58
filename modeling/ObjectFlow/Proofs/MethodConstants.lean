import ObjectFlow.Proofs.Convergence
import ObjectFlow.Proofs.Steady
/-!
# Constants within a method

The equations of a method speak of finitely many nodes and variables, and its
entry is never recomputed. So the solver ends on it exactly if its facts stop
falling, and they never fall if all its statements are steady.
-/

namespace ObjectFlow

/-! ## Where edges lead -/

namespace Cfg

variable {p : Program} {m : Method} {b : Body}

theorem mem_edgeTo {kind : EdgeKind} {source : Node} {target : Option Stmt} {e : Edge} :
    e ∈ edgeTo kind source target ↔ ∃ s, target = some s ∧ e = ⟨kind, source, .stmt s⟩ := by
  cases target <;> simp [edgeTo]

/-- An edge out of a statement leads to the exit or to a statement of the body. -/
theorem target_of_mem_edgesOf {s : Stmt} {next : Option Stmt} {e : Edge}
    (hnext : ∀ s', next = some s' → s' ∈ b.stmts) (he : e ∈ edgesOf b s next) :
    e.target = .exit b.method ∨ ∃ s' ∈ b.stmts, e.target = .stmt s' := by
  have jump : ∀ {kind source i}, e ∈ edgeTo kind source (b.target? i) →
      ∃ s' ∈ b.stmts, e.target = .stmt s' := by
    intro kind source i he
    obtain ⟨s', hs', rfl⟩ := mem_edgeTo.1 he
    exact ⟨s', List.mem_of_find?_eq_some hs', rfl⟩
  have fall : ∀ {kind source}, e ∈ edgeTo kind source next →
      ∃ s' ∈ b.stmts, e.target = .stmt s' := by
    intro kind source he
    obtain ⟨s', hs', rfl⟩ := mem_edgeTo.1 he
    exact ⟨s', hnext s' hs', rfl⟩
  unfold edgesOf at he
  split at he
  · obtain rfl := List.mem_singleton.1 he
    exact .inl rfl
  · exact .inr (jump he)
  · rcases List.mem_append.1 he with he | he
    · exact .inr (jump he)
    · exact .inr (fall he)
  · exact .inr (fall he)

theorem target_of_mem_edgesOfAll {l : List Stmt} {e : Edge} (hl : ∀ s ∈ l, s ∈ b.stmts)
    (he : e ∈ edgesOfAll b l) :
    e.target = .exit b.method ∨ ∃ s' ∈ b.stmts, e.target = .stmt s' := by
  induction l with
  | nil => cases he
  | cons s l ih =>
    rcases List.mem_append.1 he with he | he
    · refine target_of_mem_edgesOf (fun s' hs' => ?_) he
      exact hl s' (List.mem_cons_of_mem _ (List.mem_of_head? hs'))
    · exact ih (fun s' hs' => hl s' (List.mem_cons_of_mem _ hs')) he

/-- No edge of a method leads to its entry, and those that lead to a statement stay in the body. -/
theorem target_of_mem {e : Edge} (he : e ∈ (ofMethod p m).edges) :
    (∃ m', e.target = .exit m') ∨
      ∃ b s, e.target = .stmt s ∧ p.body? m = some b ∧ s ∈ b.stmts := by
  unfold ofMethod at he
  split at he
  · obtain rfl := List.mem_singleton.1 he
    exact .inl ⟨m, rfl⟩
  · rename_i b hb
    rcases List.mem_append.1 he with he | he
    · obtain ⟨s, hs, rfl⟩ := mem_edgeTo.1 he
      exact .inr ⟨b, s, rfl, hb, List.mem_of_head? hs⟩
    · rcases target_of_mem_edgesOfAll (fun _ => id) he with h | ⟨s, hs, h⟩
      · exact .inl ⟨_, h⟩
      · exact .inr ⟨b, s, h, hb, hs⟩

theorem stmt_of_mem_nodes {s : Stmt} (h : .stmt s ∈ (ofMethod p m).nodes) :
    ∃ b, p.body? m = some b ∧ s ∈ b.stmts := by
  unfold ofMethod at h
  split at h
  · simp [withoutBody] at h
  · rename_i b hb
    exact ⟨b, hb, by simpa [ofBody] using h⟩

theorem stmt_of_target {e : Edge} {s : Stmt} (he : e ∈ (ofMethod p m).edges)
    (h : e.target = .stmt s) : ∃ b, p.body? m = some b ∧ s ∈ b.stmts := by
  rcases target_of_mem he with ⟨m', hm'⟩ | ⟨b, s', hs', hb, hin⟩
  · rw [h] at hm'
    cases hm'
  · obtain rfl := Node.stmt.inj (h.symm.trans hs')
    exact ⟨b, hb, hin⟩

theorem stmt_of_mem_succs {n : Node} {s : Stmt} (h : .stmt s ∈ (ofMethod p m).succs n) :
    ∃ b, p.body? m = some b ∧ s ∈ b.stmts := by
  obtain ⟨e, he, ht⟩ := List.mem_map.1 h
  exact stmt_of_target (List.mem_of_mem_filter he) ht

end Cfg

namespace Constants

open Dataflow

/-- The variable that a node assigns. -/
def nodeVars : Node → List Var
  | .stmt s => s.command.defined?.toList
  | _ => []

variable {V : List Var}

theorem afterNode_tidy {n : Node} {f : ConstFact} (hn : ∀ v ∈ nodeVars n, v ∈ V)
    (h : ConstFact.Tidy V f) : ConstFact.Tidy V (afterNode n f) := by
  cases n with
  | entry m => exact h
  | exit m => exact h
  | stmt s =>
    unfold afterNode afterStmt
    dsimp only
    cases hd : s.command.defined? with
    | none => exact h
    | some v =>
      dsimp only
      split
      · exact h.update (hn v (by simp [nodeVars, hd])) _
      · exact h

theorem keys_mem_of_tidy {f : ConstFact} (hf : ∀ k ∈ f.keys, k ∈ V)
    (hb : ∀ k x, f.bindings.get? k = some x → x ≠ .undef) : ConstFact.Tidy V f := fun k x h =>
  ⟨hb k x h, hf k (OrderedMap.mem_keys_iff.2 ⟨x, h⟩)⟩

theorem boundary_tidy {p : Program} {m : Method} (hV : ∀ k ∈ (boundary p m).keys, k ∈ V) :
    ConstFact.Tidy V (boundary p m) := by
  refine keys_mem_of_tidy hV fun k x h => ?_
  unfold boundary at h
  split at h
  · cases h
  · rename_i b _
    have htidy : ConstFact.Tidy b.params (.ofList
        ((b.params.filter fun v => v.type.holdsInt).map fun v => (v, Value.nac))) := by
      refine ConstFact.Tidy.empty.updateAll fun e he => ?_
      obtain ⟨v, hv, rfl⟩ := List.mem_map.1 he
      exact List.mem_of_mem_filter hv
    exact (htidy k x h).1

/-! ## Within a method -/

section Method
variable {p : Program} {m : Method}

/-- The state in which the solver starts on a method. -/
def methodStart (p : Program) (m : Method) : State Node ConstFact :=
  let g := Cfg.ofMethod p m
  .start (methodEquations g) g.nodes [] [(g.entry, boundary p m)]
    (g.nodes.filter fun n => decide (n ≠ g.entry))

/-- The nodes that can come into the queue. -/
def methodNodes (g : Cfg) : List Node :=
  (g.nodes.filter fun n => decide (n ≠ g.entry)) ++ g.edges.map Cfg.Edge.target

def methodVars (p : Program) (m : Method) : List Var :=
  (methodNodes (Cfg.ofMethod p m)).flatMap nodeVars ++ (boundary p m).keys

theorem ne_entry_of_mem_methodNodes {n : Node} (h : n ∈ methodNodes (Cfg.ofMethod p m)) :
    n ≠ (Cfg.ofMethod p m).entry := by
  rcases List.mem_append.1 h with h | h
  · exact of_decide_eq_true (List.mem_filter.1 h).2
  · obtain ⟨e, he, rfl⟩ := List.mem_map.1 h
    intro heq
    rcases Cfg.target_of_mem he with ⟨m', hm'⟩ | ⟨b, s, hs, -⟩
    · rw [heq] at hm'
      cases hm'
    · rw [heq] at hs
      cases hs

theorem stmt_of_mem_methodNodes {s : Stmt} (h : .stmt s ∈ methodNodes (Cfg.ofMethod p m)) :
    ∃ b, p.body? m = some b ∧ s ∈ b.stmts := by
  rcases List.mem_append.1 h with h | h
  · exact Cfg.stmt_of_mem_nodes (List.mem_of_mem_filter h)
  · obtain ⟨e, he, ht⟩ := List.mem_map.1 h
    exact Cfg.stmt_of_target he ht

theorem meetAll_map_mono {l l' : Node → ConstFact} (h : ∀ n, l n ≤ l' n) (ns : List Node) :
    meetAll (ns.map l) ≤ meetAll (ns.map l') := by
  refine ConstFact.foldl_meetFact_mono ?_ (le_refl _)
  rw [List.forall₂_map_left_iff, List.forall₂_map_right_iff]
  exact List.forall₂_same.2 fun n _ => h n

theorem methodEquations_bounded : Bounded (methodEquations (Cfg.ofMethod p m))
    (methodNodes (Cfg.ofMethod p m)) (ConstFact.Tidy (methodVars p m))
    (ConstFact.room (methodVars p m)) where
  dependents n _ k hk := by
    obtain ⟨e, he, rfl⟩ := List.mem_map.1 hk
    exact List.mem_append_right _ (List.mem_map.2 ⟨e, List.mem_of_mem_filter he, rfl⟩)
  leaving n hn l b hl hb := by
    obtain rfl := Except.ok.inj hb
    refine afterNode_tidy (fun v hv => ?_) (ConstFact.Tidy.foldl_meetFact _ (fun f hf => ?_) .empty)
    · exact List.mem_append_left _ (List.mem_flatMap.2 ⟨n, hn, hv⟩)
    · obtain ⟨k, -, rfl⟩ := List.mem_map.1 hf
      exact hl k
  room_le := ConstFact.room_le
  room_lt hf hg h hne := ConstFact.room_lt hf hg h hne

theorem methodStart_after (n : Node) :
    (methodStart p m).after (methodEquations (Cfg.ofMethod p m)) n =
      if n = (Cfg.ofMethod p m).entry then boundary p m else ∅ := by
  show ((OrderedMap.ofList _).insert _ _).getD n ∅ = _
  rw [OrderedMap.getD_insert]
  split
  · rfl
  · exact OrderedMap.getD_ofList_const _ n ∅

theorem methodStart_inside : Inside (methodEquations (Cfg.ofMethod p m))
    (methodNodes (Cfg.ofMethod p m)) (ConstFact.Tidy (methodVars p m)) (methodStart p m) where
  queue n hn := by
    have hin := (OrderedSet.mem_insertAll.1 hn).resolve_left (OrderedSet.not_mem_empty n)
    exact List.mem_append_left _ hin
  good n := by
    rw [methodStart_after]
    split
    · exact boundary_tidy fun k hk => List.mem_append_right _ hk
    · exact .empty

theorem methodEquations_monotone
    (h : ∀ b, p.body? m = some b → ∀ s ∈ b.stmts, Steady s.command) :
    Dataflow.Monotone (methodEquations (Cfg.ofMethod p m)) (methodNodes (Cfg.ofMethod p m)) where
  entering n _ l l' b' hl hb' := by
    obtain rfl := Except.ok.inj hb'
    exact ⟨_, rfl, meetAll_map_mono hl _⟩
  leaving n hn f g hfg := by
    refine afterNode_mono (fun s hs => ?_) hfg
    subst hs
    obtain ⟨b, hb, hin⟩ := stmt_of_mem_methodNodes hn
    exact h b hb s hin

/-- Only the entry starts with a fact, and it is never recomputed. -/
theorem methodStart_rising : Rising (methodEquations (Cfg.ofMethod p m))
    (methodNodes (Cfg.ofMethod p m)) (methodStart p m) := by
  intro n hn b _
  rw [methodStart_after, if_neg (ne_entry_of_mem_methodNodes hn)]
  exact ConstFact.empty_le _

theorem ofMethod_ok_iff :
    (∃ bound sol, ∀ fuel, bound ≤ fuel → ofMethod fuel p m = .ok sol) ↔
      Settles (methodEquations (Cfg.ofMethod p m)) (methodStart p m) := by
  have hok : ∀ (e : AnalysisError) l n,
      (methodEquations (Cfg.ofMethod p m)).entering l n ≠ .error e := fun e l n he => by cases he
  rw [← finishes_iff_settles methodEquations_bounded methodStart_inside,
    finishes_iff_solve (hok .outOfFuel)]
  constructor
  · rintro ⟨bound, sol, h⟩
    exact ⟨bound, .ok sol, by simp, h⟩
  · rintro ⟨bound, r, hr, h⟩
    cases r with
    | ok sol => exact ⟨bound, sol, h⟩
    | error e =>
      have hne : e ≠ .outOfFuel := fun heq => hr (congrArg Except.error heq)
      obtain ⟨l, n, he⟩ := entering_of_solve (h bound (Nat.le_refl bound)) hne
      exact absurd he (hok e l n)

theorem method_settles (h : ∀ b, p.body? m = some b → ∀ s ∈ b.stmts, Steady s.command) :
    Settles (methodEquations (Cfg.ofMethod p m)) (methodStart p m) :=
  methodStart_rising.settles methodEquations_bounded (methodEquations_monotone h) methodStart_inside

end Method

end Constants

end ObjectFlow
