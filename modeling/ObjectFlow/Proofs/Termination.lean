import Mathlib.Data.Set.Card
import Mathlib.Order.WellFounded
import ObjectFlow.Proofs.Faults
import ObjectFlow.Proofs.Universe
/-!
# The analysis comes to an end

A task either draws a conclusion that was not there, of which there are finitely
many, or leaves less on the agenda than it found. A round either hands over an
object that is new to its pointer, or only shortens the list of waiting pointers.
Neither recursion nor cyclic objects nor repeated entries make an exception.
-/

namespace ObjectFlow.PointsTo

/-- With fuel enough there is one outcome, and it is not for want of fuel. -/
def Ends {α : Type} (run : Nat → Except AnalysisError α × State) : Prop :=
  ∃ n r, r.1 ≠ .error .outOfFuel ∧ ∀ fuel, n ≤ fuel → run fuel = r

section
variable {p : Program} {s : Selector} {setup : Setup} {F : Set Conclusion} {st st' : State}

/-! ## What is left to conclude -/

theorem State.Grows.conclusions (h : st.Grows st') : st.conclusions ⊆ st'.conclusions := by
  rintro (m | e | ⟨a, b⟩ | ⟨q, o⟩) hx
  · exact h.reachable hx
  · exact h.calls hx
  · exact h.flow hx
  · exact h.holds hx

/-- The number of conclusions of `F` that are still to be drawn. -/
noncomputable def left (F : Set Conclusion) (st : State) : Nat := (F \ st.conclusions).ncard

theorem left_le (hfin : F.Finite) (hg : st.Grows st') : left F st' ≤ left F st :=
  Set.ncard_le_ncard (Set.sdiff_subset_sdiff_right hg.conclusions) (hfin.subset Set.sdiff_subset)

theorem left_lt (hfin : F.Finite) (hg : st.Grows st') (hw : Within F st') {x : Conclusion}
    (hx : x ∈ st'.conclusions) (hno : x ∉ st.conclusions) : left F st' < left F st := by
  refine Set.ncard_lt_ncard ?_ (hfin.subset Set.sdiff_subset)
  refine (Set.ssubset_iff_of_subset (Set.sdiff_subset_sdiff_right hg.conclusions)).2 ?_
  exact ⟨x, ⟨hw.conclusions_subset hx, hno⟩, fun hin => hin.2 hx⟩

/-! ## Agendas -/

/-- A task and what it puts on the agenda without a new conclusion. -/
def weight (p : Program) : Task → Nat
  | .receive _ (some v) _ => 1 + (p.calls v).length
  | _ => 1

def load (p : Program) (A : List Task) : Nat := (A.map (weight p)).sum

theorem weight_pos (k : Task) : 0 < weight p k := by
  unfold weight
  split <;> omega

theorem load_append (A B : List Task) : load p (A ++ B) = load p A + load p B := by
  simp [load]

theorem load_cons (k : Task) (A : List Task) : load p (k :: A) = weight p k + load p A := by
  simp [load]

theorem load_calls (x : Ctx) (o : CtxObject) (sites : List CallSite) :
    load p (sites.map fun s => .call ⟨x, s⟩ o) = sites.length := by
  induction sites with
  | nil => rfl
  | cons s sites ih =>
    rw [List.map_cons, load_cons, ih, List.length_cons]
    simp only [weight]
    omega

/-- A new conclusion was drawn, or there is less to do than the task itself. -/
def Progress (p : Program) (k : Task) (st st' : State) (new : List Task) : Prop :=
  (∃ x ∈ st'.conclusions, x ∉ st.conclusions) ∨ load p new < weight p k

theorem Progress.of_nil {k : Task} {new : List Task} (h : new = []) : Progress p k st st' new := by
  rw [h]
  exact .inr (weight_pos k)

theorem reach_progress {k : Task} {mid : State} (hc : mid.calls.reachable = st.calls.reachable)
    {m : CtxMethod} : Progress p k st (mid.reach p m).1 (mid.reach p m).2 := by
  by_cases h : m ∈ mid.calls.reachable
  · refine .of_nil (List.eq_nil_iff_forall_not_mem.2 fun k hk => ?_)
    exact (State.mem_reach_tasks.1 hk).1 h
  · refine .inl ⟨.reachable m, State.mem_reach.2 (.inr rfl), fun hin => h ?_⟩
    rw [hc]
    exact hin

theorem addCall_progress {k : Task} {mid : State} (hc : mid.calls = st.calls)
    (hg : st.calls.Grouped) {e : CtxEdge} :
    Progress p k st (mid.addCall p e).1 (mid.addCall p e).2 := by
  by_cases h : mid.calls.hasEdge e
  · refine .of_nil ?_
    rw [State.addCall_of_hasEdge h]
  · refine .inl ⟨.call e, State.mem_addCall_edges.2 (.inr rfl), fun hin => h ?_⟩
    rw [hc]
    exact (CallGraph.hasEdge_iff hg).2 hin

theorem visit_progress {m : CtxMethod} {stmt : Stmt} {new : List Task} (hg : st.calls.Grouped)
    (hx : visit p s m stmt st = .ok (st', new)) : Progress p (.visit m stmt) st st' new := by
  have of_same : ∀ {st₁ : State}, Except.ok (ε := AnalysisError) (st₁, []) = .ok (st', new) →
      Progress p (.visit m stmt) st st' new := fun h =>
    .of_nil (Prod.mk.inj (Except.ok.inj h)).2.symm
  unfold visit at hx
  dsimp only at hx
  split at hx
  · exact of_same hx
  · exact of_same hx
  · exact of_same hx
  · exact of_same hx
  · split at hx
    · obtain ⟨callee, mid, -, hmid, rfl, rfl⟩ := visitStaticCall_eq_ok hx
      refine addCall_progress ?_ hg
      rw [hmid]
    · exact of_same hx
  · cases hx
  · exact of_same hx

theorem exec_progress {k : Task} {new : List Task} (hg : st.calls.Grouped)
    (hx : exec p s k st = .ok (st', new)) : Progress p k st st' new := by
  cases k with
  | enter m =>
    obtain ⟨rfl, rfl⟩ := Prod.mk.inj (Except.ok.inj hx)
    exact reach_progress rfl
  | visit m stmt => exact visit_progress hg hx
  | receive c v o =>
    cases v with
    | none => cases hx
    | some v =>
      -- no conclusion, but the calls weigh less than the arrival
      right
      obtain ⟨-, rfl⟩ := Prod.mk.inj (Except.ok.inj hx)
      rw [load_calls]
      simp only [weight]
      omega
  | call site o =>
    obtain ⟨callee, mid, served, -, hmid, hserved, rfl, rfl⟩ := call_eq_ok hx
    refine addCall_progress ?_ hg
    rcases hserved with ⟨-, rfl⟩ | ⟨b, -, rfl⟩
    · rw [hmid]
    · rw [State.await_calls, hmid]
  | wire e =>
    simp only [exec] at hx
    cases hwire : wire p e st with
    | error err =>
      rw [hwire] at hx
      cases hx
    | ok st₁ =>
      rw [hwire] at hx
      exact .of_nil (Prod.mk.inj (Except.ok.inj hx)).2.symm

/-- No task fails for want of fuel. -/
theorem exec_ne_outOfFuel (k : Task) (st : State) : exec p s k st ≠ .error .outOfFuel :=
  fun hx => (exec_fails hx).fault

/-- A task uses up a conclusion to be drawn, or it makes the agenda lighter. -/
theorem exec_decreases {k : Task} {A new : List Task} (hfin : F.Finite) (hF : Closed p setup F)
    (h : Sound p F st (k :: A)) (hx : exec p setup.selector k st = .ok (st', new)) :
    Prod.Lex (· < ·) (· < ·) (left F st', load p (new ++ A)) (left F st, load p (k :: A)) := by
  have hg := (exec_did hx).grows
  have hw := (h.after hF hx).1
  rcases exec_progress h.1.grouped hx with ⟨x, hx, hno⟩ | hl
  · exact .left _ _ (left_lt hfin hg hw hx hno)
  · rw [load_append, load_cons]
    rcases Nat.lt_or_eq_of_le (left_le hfin hg) with hlt | heq
    · exact .left _ _ hlt
    · rw [heq]
      exact .right _ (by omega)

theorem settle_ends {A : List Task} {st : State} (hfin : F.Finite) (hF : Closed p setup F)
    (h : Sound p F st A) : Ends fun fuel => settle p setup.selector fuel A st := by
  match A, h with
  | [], _ =>
    refine ⟨0, (.ok (), st), by simp, fun fuel _ => ?_⟩
    cases fuel <;> rfl
  | k :: A, h =>
    cases hx : exec p setup.selector k st with
    | error e =>
      refine ⟨1, (.error e, st), ?_, fun fuel hf => ?_⟩
      · rintro he
        cases he
        exact exec_ne_outOfFuel k st hx
      · obtain ⟨fuel, rfl⟩ : ∃ f, fuel = f + 1 := ⟨fuel - 1, by omega⟩
        simp [settle, hx]
    | ok r =>
      obtain ⟨st', new⟩ := r
      have hlt := exec_decreases hfin hF h hx
      obtain ⟨n, r, hr, hn⟩ := settle_ends hfin hF (h.after hF hx)
      refine ⟨n + 1, r, hr, fun fuel hf => ?_⟩
      obtain ⟨fuel, rfl⟩ : ∃ f, fuel = f + 1 := ⟨fuel - 1, by omega⟩
      simp only [settle, hx]
      exact hn fuel (by omega)
termination_by (left F st, load p A)
decreasing_by exact hlt

/-! ## Rounds -/

theorem propagate_eq_of_nil {q : Pointer} {objs : PointsToSet CtxObject}
    (h : (st.propagate q objs).2 = []) : (st.propagate q objs).1 = st := by
  unfold State.propagate at h ⊢
  dsimp only at h ⊢
  split at h
  · rename_i hn
    rw [if_pos hn]
  · rename_i hn
    rw [OrderedSet.isEmpty, List.isEmpty_iff] at hn
    exact absurd h hn

theorem settle_grows (p : Program) (s : Selector) (fuel : Nat) (A : List Task) (st : State) :
    st.Grows (settle p s fuel A st).2 := by
  obtain ⟨_, h, -⟩ := settle_keeps (p := p) (s := s) (P := fun _ st' => st.Grows st')
    (fun h hx => h.trans (exec_did hx).grows) fuel (A := A) (.refl st)
  exact h

/-- What rounds use up: conclusions to be drawn, then waiting pointers. -/
noncomputable def measure (F : Set Conclusion) (st : State) : Nat × Nat :=
  (left F st, st.pending.size)

/-- A round hands over an object that is new to its pointer, or nothing comes of it. -/
theorem round_decreases {fuel : Nat} {q : Pointer} {objs : PointsToSet CtxObject}
    {rest : Pending Pointer CtxObject} {b : Bool} (hfin : F.Finite) (hF : Closed p setup F)
    (h : Within F st) (ht : st.pending.take? q = some (objs, rest))
    (hr : round fuel p setup q objs rest st = (.ok b, st')) :
    Prod.Lex (· < ·) (· < ·) (measure F st') (measure F st) := by
  obtain ⟨-, hs⟩ := round_eq_ok hr
  have hw := settle_within fuel hF (propagate_sound hF h ht)
  have hg' := settle_grows p setup.selector fuel
    (arrivals q ((st.taken rest).propagate q objs).2) ((st.taken rest).propagate q objs).1
  rw [hs] at hw hg'
  have hg := (propagate_grows ht).trans hg'
  obtain ⟨-, -, ho, hnew, -⟩ := propagate_spec (st.taken rest) q objs
  cases hn : ((st.taken rest).propagate q objs).2 with
  | cons o os =>
    -- an object that is new to the pointer is a new conclusion
    have hin := (hnew o).1 (hn ▸ List.mem_cons_self)
    have hx : .holds q o ∈ st'.conclusions := hg'.holds ((ho q o).2 (.inr ⟨rfl, hin.1⟩))
    exact .left _ _ (left_lt hfin hg hw hx hin.2)
  | nil =>
    -- nothing new: the agenda is empty and only the pointer no longer waits
    have hst : st' = st.taken rest := by
      have hA : arrivals q [] = [] := by cases q <;> rfl
      rw [hn, hA, propagate_eq_of_nil hn] at hs
      cases fuel <;> exact (Prod.mk.inj hs).2.symm
    have hsize : st'.pending.size < st.pending.size := by
      rw [hst]
      exact Pending.size_lt_of_take? ht
    rcases Nat.lt_or_eq_of_le (left_le hfin hg) with hlt | heq
    · exact .left _ _ hlt
    · rw [measure, measure, heq]
      exact .right _ hsize

theorem round_ends {q : Pointer} {objs : PointsToSet CtxObject}
    {rest : Pending Pointer CtxObject} (hfin : F.Finite) (hF : Closed p setup F)
    (h : Within F st) (ht : st.pending.take? q = some (objs, rest)) :
    Ends fun fuel => round fuel p setup q objs rest st := by
  unfold round
  dsimp only
  split
  · exact ⟨0, _, by simp, fun _ _ => rfl⟩
  · obtain ⟨n, r, hr, hn⟩ := settle_ends hfin hF (propagate_sound hF h ht)
    refine ⟨n, (r.1.map fun _ => true, r.2), fun he => hr ?_, fun fuel hf => ?_⟩
    · cases hr1 : r.1 with
      | ok u =>
        rw [hr1] at he
        cases he
      | error e =>
        rw [hr1] at he
        exact congrArg Except.error (Except.error.inj he)
    · have hrun := hn fuel hf
      simp only [State.taken] at hrun
      dsimp only
      rw [hrun]

/-- No schedule of rounds goes on for ever, whichever waiting pointers it takes. -/
theorem acc_nextRound {st : State} (hfin : F.Finite) (hF : Closed p setup F) (h : Within F st) :
    Acc (fun st₂ st₁ => NextRound p setup st₁ st₂) st := by
  refine Acc.intro _ fun st' hr => ?_
  have hw := hr.within hF h
  have hlt : Prod.Lex (· < ·) (· < ·) (measure F st') (measure F st) := by
    obtain ⟨fuel, q, objs, rest, ht, hr⟩ := hr
    exact round_decreases hfin hF h ht hr
  exact acc_nextRound hfin hF hw
termination_by measure F st
decreasing_by exact hlt

theorem rounds_end {st : State} (hfin : F.Finite) (hF : Closed p setup F) (h : Within F st) :
    ∃ n r, r.1 ≠ .error .outOfFuel ∧ ∀ fuel count, n ≤ fuel → n ≤ count →
      rounds fuel p setup count st = r := by
  cases hp : st.pending.poll? with
  | none =>
    refine ⟨1, (.ok (), st), by simp, fun fuel count _ hc => ?_⟩
    obtain ⟨count, rfl⟩ : ∃ c, count = c + 1 := ⟨count - 1, by omega⟩
    simp [rounds, step, hp]
  | some x =>
    obtain ⟨⟨q, objs⟩, rest⟩ := x
    have ht := Pending.take?_of_poll? hp
    obtain ⟨n, ⟨r, st'⟩, hr, hn⟩ := round_ends hfin hF h ht
    cases r with
    | error e =>
      refine ⟨n + 1, (.error e, st'), fun he => hr (by simpa using he), fun fuel count hf hc => ?_⟩
      obtain ⟨count, rfl⟩ : ∃ c, count = c + 1 := ⟨count - 1, by omega⟩
      simp [rounds, step, hp, hn fuel (by omega)]
    | ok b =>
      -- fuel for this round and for those that follow it
      have hround := hn n (Nat.le_refl n)
      have hlt := round_decreases hfin hF h ht hround
      obtain rfl := (round_eq_ok hround).1
      have hw : Within F st' := NextRound.within hF h ⟨n, q, objs, rest, ht, hround⟩
      obtain ⟨n', r', hr', hn'⟩ := rounds_end hfin hF hw
      refine ⟨n + n' + 1, r', hr', fun fuel count hf hc => ?_⟩
      obtain ⟨count, rfl⟩ : ∃ c, count = c + 1 := ⟨count - 1, by omega⟩
      simp only [rounds, step, hp, hn fuel (by omega)]
      exact hn' fuel count (by omega) (by omega)
termination_by measure F st
decreasing_by exact hlt

theorem start_ends (p : Program) (setup : Setup) :
    Ends fun fuel => start fuel p setup .empty :=
  settle_ends (finite_possible p setup) (closed_possible p setup)
    (initial_sound (closed_possible p setup))

theorem rounds_after_start_end {fuel : Nat} (h : start fuel p setup .empty = (.ok (), st)) :
    ∃ n r, r.1 ≠ .error .outOfFuel ∧ ∀ fuel count, n ≤ fuel → n ≤ count →
      rounds fuel p setup count st = r := by
  have hw := start_within fuel (closed_possible p setup)
  rw [h] at hw
  exact rounds_end (finite_possible p setup) (closed_possible p setup) hw

theorem analyze_ends (p : Program) (setup : Setup) :
    Ends fun fuel => analyze fuel p setup .empty := by
  obtain ⟨n, ⟨r, st⟩, hr, hn⟩ := start_ends p setup
  have hstarted : State.empty.started = false := rfl
  cases r with
  | error e =>
    refine ⟨n, (.error e, st), hr, fun fuel hf => ?_⟩
    simp only [analyze, hstarted, Bool.false_eq_true, if_false, hn fuel hf]
  | ok u =>
    obtain ⟨n', r', hr', hn'⟩ := rounds_after_start_end (hn n (Nat.le_refl n))
    refine ⟨n + n', r', hr', fun fuel hf => ?_⟩
    simp only [analyze, hstarted, Bool.false_eq_true, if_false, hn fuel (by omega)]
    exact hn' fuel fuel (by omega) (by omega)

/-- The analysis comes to an end on every program under every selector. The work that begins with
the entries ends; so does each round at any waiting pointer, no schedule of rounds is endless, and
with fuel enough the whole analysis either fails or stops where nothing waits. -/
theorem analysis_terminates (p : Program) (setup : Setup) :
    Ends (fun fuel => start fuel p setup .empty) ∧
    (∀ fuel st st', start fuel p setup .empty = (.ok (), st) → Reaches p setup st st' →
      Acc (fun st₂ st₁ => NextRound p setup st₁ st₂) st' ∧
      ∀ q objs rest, st'.pending.take? q = some (objs, rest) →
        Ends fun fuel => round fuel p setup q objs rest st') ∧
    Ends (fun fuel => analyze fuel p setup .empty) ∧
    ∀ fuel st, analyze fuel p setup .empty = (.ok (), st) →
      ∀ fuel, step fuel p setup st = (.ok false, st) := by
  have hF := closed_possible p setup
  have hfin := finite_possible p setup
  refine ⟨start_ends p setup, fun fuel st st' hs hr => ?_, analyze_ends p setup,
    fun fuel st h fuel' => ?_⟩
  · have hw := start_within fuel hF
    rw [hs] at hw
    have hw' := hr.within hF hw
    exact ⟨acc_nextRound hfin hF hw', fun q objs rest ht => round_ends hfin hF hw' ht⟩
  · obtain ⟨_, _, _, hp⟩ := analyze_eq_ok h
    unfold step
    rw [hp]

end

/-! ### A method that calls itself -/

namespace Recursion

def owner : ClassRef := ⟨0, "A"⟩

def main : Method := ⟨0, owner, ⟨"main", [], .void⟩, true, false, false⟩

def hierarchy : Hierarchy :=
  ((Hierarchy.empty.addClass "A" none [] false false).2.addMethod owner main.signature
    true false false).2

def x : Var := ⟨0, "x", .object owner, main⟩

def body : Body where
  method := main
  receiver := none
  params := []
  vars := [x]
  stmts := [⟨⟨0, 1, main⟩, .alloc x (.object owner)⟩,
    ⟨⟨1, 2, main⟩, .invoke none ⟨.static, main.ref, []⟩⟩, ⟨⟨2, 3, main⟩, .ret none⟩]

/-- The main method makes an object and starts over. -/
def program : Program := ⟨hierarchy, OrderedMap.ofList [(main, body)]⟩

def setup : Setup := ⟨[main], .limited .callSite 2 1, 0⟩

theorem analysis_terminates_recursive : ∃ st₀ st,
    start 20 program setup .empty = (.ok (), st₀) ∧
    Acc (fun st₂ st₁ => NextRound program setup st₁ st₂) st₀ ∧
    analyze 20 program setup .empty = (.ok (), st) ∧
    ∀ fuel, step fuel program setup st = (.ok false, st) := by
  obtain ⟨-, hrounds, -, hstep⟩ := analysis_terminates program setup
  obtain ⟨st₀, hstart⟩ : ∃ st₀, start 20 program setup .empty = (.ok (), st₀) := ⟨_, rfl⟩
  obtain ⟨st, hst⟩ : ∃ st, analyze 20 program setup .empty = (.ok (), st) := ⟨_, rfl⟩
  exact ⟨st₀, st, hstart, (hrounds 20 st₀ st₀ hstart .refl).1, hst, hstep 20 st hst⟩

end Recursion

end ObjectFlow.PointsTo
