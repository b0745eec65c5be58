import ObjectFlow.Dataflow.Fact
import ObjectFlow.Proofs.Convergence
/-!
# Solving under a translation of facts

If facts are written with other values, without mixing values up, every operation on
facts is carried over. A solver whose equations are carried over as well goes through
the translated states, and ends in the translated way.
-/

namespace ObjectFlow

/-! ## Maps and facts -/

namespace OrderedMap

variable {κ α β : Type} (t : α → β)

/-- The map with its values translated. -/
def mapValues (m : OrderedMap κ α) : OrderedMap κ β :=
  ⟨m.entries.map fun e => (e.1, t e.2), by rw [List.map_map]; exact m.nodup⟩

theorem entries_mapValues (m : OrderedMap κ α) :
    (m.mapValues t).entries = m.entries.map fun e => (e.1, t e.2) := rfl

variable [DecidableEq κ] (m : OrderedMap κ α)

@[simp] theorem get?_mapValues (k : κ) : (m.mapValues t).get? k = (m.get? k).map t := by
  simp only [get?, entries_mapValues, List.find?_map, Option.map_map]
  rfl

theorem get?_mapValues_eq_some (ht : Function.Injective t) {k : κ} {a : α} :
    (m.mapValues t).get? k = some (t a) ↔ m.get? k = some a := by
  rw [get?_mapValues, ← Option.map_some, (Option.map_injective ht).eq_iff]

theorem getD_mapValues (k : κ) (a : α) : (m.mapValues t).getD k (t a) = t (m.getD k a) := by
  rw [getD, getD, get?_mapValues, Option.getD_map]

theorem insert_mapValues (k : κ) (a : α) :
    (m.mapValues t).insert k (t a) = (m.insert k a).mapValues t := by
  have hkeys : (m.mapValues t).entries.map Prod.fst = m.entries.map Prod.fst := by
    rw [entries_mapValues, List.map_map]
    rfl
  apply OrderedMap.ext
  by_cases hk : k ∈ m.entries.map Prod.fst
  · rw [insert, dif_pos (hkeys ▸ hk), insert, dif_pos hk]
    simp only [mapValues, replace, List.map_map]
    refine List.map_congr_left fun e _ => ?_
    simp only [Function.comp]
    split <;> rfl
  · rw [insert, dif_neg (hkeys ▸ hk), insert, dif_neg hk]
    simp only [mapValues, List.map_append, List.map_cons, List.map_nil]

theorem erase_mapValues (k : κ) : (m.mapValues t).erase k = (m.erase k).mapValues t := by
  apply OrderedMap.ext
  simp only [erase, mapValues, List.filter_map]
  rfl

theorem insertAll_mapValues (l : List (κ × α)) :
    (m.mapValues t).insertAll (l.map fun e => (e.1, t e.2)) = (m.insertAll l).mapValues t := by
  induction l generalizing m with
  | nil => rfl
  | cons e l ih =>
    show ((m.mapValues t).insert e.1 (t e.2)).insertAll _ =
      ((m.insert e.1 e.2).insertAll l).mapValues t
    rw [insert_mapValues, ih]

theorem ofList_mapValues (l : List (κ × α)) :
    ofList (l.map fun e => (e.1, t e.2)) = (ofList l).mapValues t :=
  insertAll_mapValues t ∅ l

theorem sameAs_mapValues [DecidableEq α] [DecidableEq β] (ht : Function.Injective t)
    (m n : OrderedMap κ α) : (m.mapValues t).sameAs (n.mapValues t) = m.sameAs n := by
  have hsize : ∀ m : OrderedMap κ α, (m.mapValues t).size = m.size := fun m => List.length_map _
  rw [sameAs, sameAs, hsize, hsize]
  congr 1
  simp only [entries_mapValues, List.all_map, Function.comp_def, get?_mapValues_eq_some t n ht]

end OrderedMap

namespace Fact

variable {κ α β : Type} {t : α → β}

/-- The fact with its values translated. -/
def map (t : α → β) (f : Fact κ α) : Fact κ β := ⟨f.bindings.mapValues t⟩

variable [DecidableEq κ] [DecidableEq α] [DecidableEq β] [Bottom α] [Bottom β]

/-- The translation keeps values apart, and the bottom value is translated to the bottom value. -/
structure Embeds (t : α → β) : Prop where
  bottom : t Bottom.bottom = Bottom.bottom
  injective : Function.Injective t

section
variable (ht : Embeds t) (f g : Fact κ α) (k : κ)
include ht

omit [DecidableEq α] [DecidableEq β] in
theorem get_map : (f.map t).get k = t (f.get k) := by
  rw [get, ← ht.bottom]
  exact OrderedMap.getD_mapValues t _ k _

theorem update_map (v : α) : ((f.map t).update k (t v)).2 = (f.update k v).2.map t := by
  have hbottom : t v = Bottom.bottom ↔ v = Bottom.bottom := by
    rw [← ht.bottom, ht.injective.eq_iff]
  have hkept : (f.map t).bindings.get? k = some (t v) ↔ f.bindings.get? k = some v :=
    OrderedMap.get?_mapValues_eq_some t _ ht.injective
  unfold update
  simp only [hbottom, hkept]
  split
  · exact congrArg mk (OrderedMap.erase_mapValues t _ k)
  · split
    · rfl
    · exact congrArg mk (OrderedMap.insert_mapValues t _ k v)

theorem updateAll_map (l : List (κ × α)) :
    (f.map t).updateAll (l.map fun e => (e.1, t e.2)) = (f.updateAll l).map t := by
  induction l generalizing f with
  | nil => rfl
  | cons e l ih =>
    show updateAll ((f.map t).update e.1 (t e.2)).2 _ = (updateAll (f.update e.1 e.2).2 l).map t
    rw [update_map ht, ih]

theorem ofList_map (l : List (κ × α)) :
    ofList (l.map fun e => (e.1, t e.2)) = (ofList l).map t := updateAll_map ht ∅ l

theorem sameAs_map : (f.map t).sameAs (g.map t) = f.sameAs g :=
  OrderedMap.sameAs_mapValues t ht.injective _ _

end

theorem remove_map (f : Fact κ α) (k : κ) : ((f.map t).remove k).2 = (f.remove k).2.map t :=
  congrArg mk (OrderedMap.erase_mapValues t _ k)

end Fact

/-! ## Solvers -/

namespace Dataflow

variable {ν φ φ' ε ε' : Type} {T : φ → φ'} {E : ε → ε'}

/-- A result with its value or its error translated. -/
def translated (T : φ → φ') (E : ε → ε') : Except ε φ → Except ε' φ'
  | .ok a => .ok (T a)
  | .error e => .error (E e)

def State.map (T : φ → φ') (st : State ν φ) : State ν φ' :=
  ⟨st.entering.mapValues T, st.leaving.mapValues T, st.queue, st.rounds⟩

def Solution.map (T : φ → φ') (sol : Solution ν φ) : Solution ν φ' :=
  ⟨T sol.initial, sol.entering.mapValues T, sol.leaving.mapValues T, sol.rounds⟩

/-- The second equations say of translated facts what the first say of the facts. -/
structure Translates (T : φ → φ') (E : ε → ε') (eqs : Equations ν φ ε) (eqs' : Equations ν φ' ε') :
    Prop where
  entering : ∀ l n, eqs'.entering (fun k => T (l k)) n = translated T E (eqs.entering l n)
  leaving : ∀ n f, eqs'.leaving n (T f) = T (eqs.leaving n f)
  dependents : ∀ n, eqs'.dependents n = eqs.dependents n
  initial : eqs'.initial = T eqs.initial
  same : ∀ f g, eqs'.same (T f) (T g) = eqs.same f g

section
variable [DecidableEq ν] {eqs : Equations ν φ ε} {eqs' : Equations ν φ' ε'} {st : State ν φ}

namespace Translates

variable (h : Translates T E eqs eqs')
include h

theorem start (nodes : List ν) (entering leaving : List (ν × φ)) (queue : List ν) :
    State.start eqs' nodes (entering.map fun e => (e.1, T e.2)) (leaving.map fun e => (e.1, T e.2))
      queue = (State.start eqs nodes entering leaving queue).map T := by
  have hinitial : OrderedMap.ofList (nodes.map fun n => (n, eqs'.initial)) =
      (OrderedMap.ofList (nodes.map fun n => (n, eqs.initial))).mapValues T := by
    rw [← OrderedMap.ofList_mapValues, List.map_map, h.initial]
    rfl
  simp only [State.start, State.map, hinitial, OrderedMap.insertAll_mapValues]

/-- Taking a node leads to the translated state, or fails as it did. -/
theorem visit (st : State ν φ) (n : ν) :
    Dataflow.visit eqs' (st.map T) n = translated (State.map T) E (Dataflow.visit eqs st n) := by
  have hafter : (fun k => (st.map T).leaving.getD k eqs'.initial) =
      fun k => T (st.leaving.getD k eqs.initial) := by
    funext k
    rw [h.initial]
    exact OrderedMap.getD_mapValues T _ k _
  unfold Dataflow.visit
  rw [hafter, h.entering]
  cases eqs.entering (fun k => st.leaving.getD k eqs.initial) n with
  | error e => rfl
  | ok before =>
    show (if eqs'.same ((st.map T).leaving.getD n eqs'.initial) (eqs'.leaving n (T before)) then _
      else _) = translated _ _ (if eqs.same (st.leaving.getD n eqs.initial) (eqs.leaving n before)
        then _ else _)
    rw [congrFun hafter n, h.leaving, h.same]
    split
    · simp only [State.map, OrderedMap.insert_mapValues]
      rfl
    · simp only [State.map, OrderedMap.insert_mapValues, h.dependents]
      rfl

theorem run (outOfFuel : ε) (fuel : Nat) : Dataflow.run eqs' (E outOfFuel) fuel (st.map T) =
    translated (State.map T) E (Dataflow.run eqs outOfFuel fuel st) := by
  have hqueue : ∀ st : State ν φ, (st.map T).queue = st.queue := fun _ => rfl
  induction fuel generalizing st with
  | zero =>
    unfold Dataflow.run
    rw [hqueue]
    cases st.queue.pop? with
    | none => rfl
    | some x => rfl
  | succ fuel ih =>
    unfold Dataflow.run
    rw [hqueue]
    cases st.queue.pop? with
    | none => rfl
    | some x =>
      obtain ⟨n, queue⟩ := x
      have hvisit := h.visit { st with queue := queue } n
      dsimp only [State.map] at hvisit ⊢
      rw [hvisit]
      cases Dataflow.visit eqs { st with queue := queue } n with
      | error e => rfl
      | ok st' => exact ih

theorem solve (outOfFuel : ε) (fuel : Nat) : Dataflow.solve eqs' (E outOfFuel) fuel (st.map T) =
    translated (Solution.map T) E (Dataflow.solve eqs outOfFuel fuel st) := by
  unfold Dataflow.solve
  rw [h.run]
  cases Dataflow.run eqs outOfFuel fuel st with
  | error e => rfl
  | ok last => simp only [translated, Except.map, State.map, Solution.map, h.initial]

/-- From a translated state only translated states are reached. -/
theorem reaches {s : State ν φ'} (hr : Reaches eqs' (st.map T) s) :
    ∃ st', Reaches eqs st st' ∧ s = st'.map T := by
  induction hr with
  | refl => exact ⟨st, .refl, rfl⟩
  | tail _ hp ih =>
    obtain ⟨st', hr, rfl⟩ := ih
    obtain ⟨n, queue, hq, hv⟩ := hp
    have hvisit := h.visit { st' with queue := queue } n
    cases hv' : Dataflow.visit eqs { st' with queue := queue } n with
    | error e =>
      rw [hv'] at hvisit
      cases hv.symm.trans hvisit
    | ok st'' =>
      rw [hv'] at hvisit
      exact ⟨st'', hr.tail ⟨n, queue, hq, hv'⟩, Except.ok.inj (hv.symm.trans hvisit)⟩

end Translates

end

end Dataflow

end ObjectFlow
