import Mathlib.Algebra.GroupWithZero.Nat
import Mathlib.Algebra.Order.BigOperators.Group.List
import Mathlib.Algebra.Order.Group.Nat
import Mathlib.Logic.Relation
import ObjectFlow.Dataflow.Equations
import ObjectFlow.Proofs.Containers
/-!
# When a solver comes to an end

The solver recomputes facts instead of joining them to the old ones, so a fact
can fall as well as rise. If facts can rise only finitely often, the solver ends
exactly if they stop falling. They never fall if the equations are monotone and
the start lies below what it is recomputed to.
-/

namespace ObjectFlow.Dataflow

section
variable {ν φ ε : Type} [DecidableEq ν] {eqs : Equations ν φ ε} {st st' : State ν φ}

/-- The fact that leaves a node so far. -/
def State.after (eqs : Equations ν φ ε) (st : State ν φ) (n : ν) : φ :=
  st.leaving.getD n eqs.initial

/-- One node is taken from the queue and its facts are recomputed. -/
def Pops (eqs : Equations ν φ ε) (st st' : State ν φ) : Prop :=
  ∃ n queue, st.queue.pop? = some (n, queue) ∧ visit eqs { st with queue := queue } n = .ok st'

/-- A node that waits is taken, be it the next one or not, and its facts are recomputed. -/
def Takes (eqs : Equations ν φ ε) (n : ν) (st st' : State ν φ) : Prop :=
  ∃ queue : WorkQueue ν, st.queue.toList.Perm (n :: queue.toList) ∧
    visit eqs { st with queue := queue } n = .ok st'

theorem Pops.takes (hp : Pops eqs st st') : ∃ n, Takes eqs n st st' := by
  obtain ⟨n, queue, hq, hv⟩ := hp
  exact ⟨n, queue, .of_eq (WorkQueue.toList_eq_of_pop? hq), hv⟩

theorem Takes.waits {n : ν} (ht : Takes eqs n st st') : n ∈ st.queue.toList := by
  obtain ⟨queue, hq, -⟩ := ht
  exact hq.mem_iff.2 List.mem_cons_self

/-- The states after some nodes were taken. -/
abbrev Reaches (eqs : Equations ν φ ε) : State ν φ → State ν φ → Prop :=
  Relation.ReflTransGen (Pops eqs)

/-- How a run ends: with an empty queue, or with a node whose facts cannot be computed. -/
def Outcome (eqs : Equations ν φ ε) (st : State ν φ) (r : Except ε (State ν φ)) : Prop :=
  ∃ last, Reaches eqs st last ∧
    (last.queue.pop? = none ∧ r = .ok last ∨
      ∃ n queue e, last.queue.pop? = some (n, queue) ∧
        visit eqs { last with queue := queue } n = .error e ∧ r = .error e)

/-- The run from a state ends. -/
def Finishes (eqs : Equations ν φ ε) (st : State ν φ) : Prop := ∃ r, Outcome eqs st r

theorem visit_eq_ok {n : ν} (h : visit eqs st n = .ok st') :
    ∃ before, eqs.entering (st.after eqs) n = .ok before ∧
      (eqs.same (st.after eqs n) (eqs.leaving n before) ∧ st'.leaving = st.leaving ∧
          st'.queue = st.queue ∨
        ¬ eqs.same (st.after eqs n) (eqs.leaving n before) ∧
          st'.leaving = st.leaving.insert n (eqs.leaving n before) ∧
          st'.queue = st.queue.pushAll (eqs.dependents n)) := by
  unfold visit at h
  cases hb : eqs.entering (fun m => st.leaving.getD m eqs.initial) n with
  | error e =>
    rw [hb] at h
    cases h
  | ok before =>
    rw [hb] at h
    dsimp only [bind, Except.bind] at h
    refine ⟨before, hb, ?_⟩
    split at h
    · rename_i hs
      obtain rfl := Except.ok.inj h
      exact .inl ⟨hs, rfl, rfl⟩
    · rename_i hs
      obtain rfl := Except.ok.inj h
      exact .inr ⟨hs, rfl, rfl⟩

theorem visit_eq_error {n : ν} {e : ε} (h : visit eqs st n = .error e) :
    eqs.entering (st.after eqs) n = .error e := by
  unfold visit at h
  cases hb : eqs.entering (fun m => st.leaving.getD m eqs.initial) n with
  | error e' =>
    rw [hb] at h
    obtain rfl := Except.error.inj h
    exact hb
  | ok before =>
    rw [hb] at h
    dsimp only [bind, Except.bind] at h
    split at h <;> cases h

/-! ## Runs as sequences of steps -/

theorem Pops.outcome {r : Except ε (State ν φ)} (hp : Pops eqs st st') (h : Outcome eqs st' r) :
    Outcome eqs st r := by
  obtain ⟨last, hr, hl⟩ := h
  exact ⟨last, hr.head hp, hl⟩

/-- A queue that is not empty gives a step or a failure. -/
theorem pops_or_error {n : ν} {queue : WorkQueue ν} (eqs : Equations ν φ ε)
    (h : st.queue.pop? = some (n, queue)) :
    (∃ st', Pops eqs st st') ∨ ∃ e, visit eqs { st with queue := queue } n = .error e := by
  cases hv : visit eqs { st with queue := queue } n with
  | error e => exact .inr ⟨e, rfl⟩
  | ok st' => exact .inl ⟨st', n, queue, h, hv⟩

/-- With fuel enough, the solver gives the outcome. -/
theorem Outcome.run_eq {r : Except ε (State ν φ)} (outOfFuel : ε) (h : Outcome eqs st r) :
    ∃ bound, ∀ fuel, bound ≤ fuel → run eqs outOfFuel fuel st = r := by
  obtain ⟨last, hr, hl⟩ := h
  induction hr using Relation.ReflTransGen.head_induction_on with
  | refl =>
    rcases hl with ⟨hq, rfl⟩ | ⟨n, queue, e, hq, he, rfl⟩
    · refine ⟨0, fun fuel _ => ?_⟩
      unfold run
      rw [hq]
    · refine ⟨1, fun fuel hf => ?_⟩
      obtain ⟨fuel, rfl⟩ : ∃ k, fuel = k + 1 := ⟨fuel - 1, by omega⟩
      unfold run
      rw [hq]
      dsimp only
      rw [he]
      rfl
  | head hp _ ih =>
    obtain ⟨bound, hrun⟩ := ih
    refine ⟨bound + 1, fun fuel hf => ?_⟩
    obtain ⟨n, queue, hq, hv⟩ := hp
    obtain ⟨fuel, rfl⟩ : ∃ k, fuel = k + 1 := ⟨fuel - 1, by omega⟩
    unfold run
    rw [hq]
    dsimp only
    rw [hv]
    exact hrun fuel (by omega)

/-- What the solver gives is the outcome, unless its fuel did not suffice. -/
theorem outcome_of_run {outOfFuel : ε} {fuel : Nat} {r : Except ε (State ν φ)}
    (h : run eqs outOfFuel fuel st = r) (hne : r ≠ .error outOfFuel) : Outcome eqs st r := by
  induction fuel generalizing st with
  | zero =>
    unfold run at h
    split at h
    · rename_i hq
      exact ⟨st, .refl, .inl ⟨hq, h.symm⟩⟩
    · exact absurd h.symm hne
  | succ fuel ih =>
    unfold run at h
    split at h
    · rename_i hq
      exact ⟨st, .refl, .inl ⟨hq, h.symm⟩⟩
    · rename_i n queue hq
      cases hv : visit eqs { st with queue := queue } n with
      | error e =>
        simp only [hv] at h
        exact ⟨st, .refl, .inr ⟨n, queue, e, hq, hv, h.symm⟩⟩
      | ok st' =>
        simp only [hv] at h
        exact Pops.outcome ⟨n, queue, hq, hv⟩ (ih h)

/-- A solver fails because it is short of fuel or because a fact cannot be computed. -/
theorem entering_of_solve {outOfFuel e : ε} {fuel : Nat}
    (h : solve eqs outOfFuel fuel st = .error e) (hne : e ≠ outOfFuel) :
    ∃ l n, eqs.entering l n = .error e := by
  unfold solve at h
  cases hr : run eqs outOfFuel fuel st with
  | ok last =>
    rw [hr] at h
    cases h
  | error e' =>
    rw [hr] at h
    obtain rfl := Except.error.inj h
    have hout := outcome_of_run hr fun heq => hne (Except.error.inj heq)
    obtain ⟨last, -, ⟨-, hok⟩ | ⟨n, queue, e, -, he, heq⟩⟩ := hout
    · cases hok
    · obtain rfl := Except.error.inj heq
      exact ⟨_, n, visit_eq_error he⟩

/-- A run ends exactly if the solver, with fuel enough, has one answer other than being short of
fuel. -/
theorem finishes_iff_solve {outOfFuel : ε} (hne : ∀ l n, eqs.entering l n ≠ .error outOfFuel) :
    Finishes eqs st ↔ ∃ bound r, r ≠ .error outOfFuel ∧
      ∀ fuel, bound ≤ fuel → solve eqs outOfFuel fuel st = r := by
  constructor
  · rintro ⟨r, hr⟩
    obtain ⟨bound, hrun⟩ := hr.run_eq outOfFuel
    refine ⟨bound, r.map fun st => ⟨eqs.initial, st.entering, st.leaving, st.rounds⟩, ?_,
      fun fuel hf => by rw [solve, hrun fuel hf]⟩
    obtain ⟨last, -, ⟨-, rfl⟩ | ⟨n, queue, e, -, he, rfl⟩⟩ := hr
    · exact fun heq => by cases heq
    · intro heq
      obtain rfl := Except.error.inj heq
      exact hne _ n (visit_eq_error he)
  · rintro ⟨bound, r, hr, hsolve⟩
    have h := hsolve bound (Nat.le_refl bound)
    refine ⟨_, outcome_of_run (r := run eqs outOfFuel bound st) rfl fun heq => hr ?_⟩
    rw [← h, solve, heq]
    rfl

/-- More fuel does not change a solution. -/
theorem solve_stays {outOfFuel : ε} {fuel : Nat} {sol : Solution ν φ}
    (h : solve eqs outOfFuel fuel st = .ok sol) :
    ∃ bound, ∀ fuel, bound ≤ fuel → solve eqs outOfFuel fuel st = .ok sol := by
  unfold solve at h
  cases hr : run eqs outOfFuel fuel st with
  | error e =>
    rw [hr] at h
    cases h
  | ok last =>
    obtain ⟨bound, hrun⟩ := (outcome_of_run hr fun heq => by cases heq).run_eq outOfFuel
    refine ⟨bound, fun fuel hfuel => ?_⟩
    rw [solve, hrun fuel hfuel, ← h, hr]

theorem solve_unique {outOfFuel : ε} {fuel : Nat} {sol sol' : Solution ν φ}
    (h : solve eqs outOfFuel fuel st = .ok sol)
    (h' : ∃ bound, ∀ fuel, bound ≤ fuel → solve eqs outOfFuel fuel st = .ok sol') : sol = sol' := by
  obtain ⟨bound, hsolve⟩ := solve_stays h
  obtain ⟨bound', hsolve'⟩ := h'
  have hlast := hsolve (max bound bound') (Nat.le_max_left _ _)
  rw [hsolve' _ (Nat.le_max_right _ _)] at hlast
  exact (Except.ok.inj hlast).symm

/-! ## Runs that come back -/

/-- A step does not depend on the facts that entered or on the number of nodes taken. -/
theorem Pops.congr {s : State ν φ} (hp : Pops eqs st st') (hl : s.leaving = st.leaving)
    (hq : s.queue = st.queue) :
    ∃ s', Pops eqs s s' ∧ s'.leaving = st'.leaving ∧ s'.queue = st'.queue := by
  obtain ⟨n, queue, hpop, hv⟩ := hp
  have hpop' : s.queue.pop? = some (n, queue) := by rw [hq, hpop]
  have hafter : State.after eqs { s with queue := queue } =
      State.after eqs { st with queue := queue } := by
    funext m
    simp only [State.after, hl]
  obtain ⟨before, he, hcase⟩ := visit_eq_ok hv
  rw [← hafter] at he hcase
  cases hv' : visit eqs { s with queue := queue } n with
  | error e =>
    rw [visit_eq_error hv'] at he
    cases he
  | ok s' =>
    refine ⟨s', ⟨n, queue, hpop', hv'⟩, ?_⟩
    obtain ⟨before', he', hcase'⟩ := visit_eq_ok hv'
    obtain rfl := Except.ok.inj (he.symm.trans he')
    rcases hcase with ⟨hs, hl₁, hq₁⟩ | ⟨hs, hl₁, hq₁⟩ <;>
      rcases hcase' with ⟨hs', hl₂, hq₂⟩ | ⟨hs', hl₂, hq₂⟩
    · exact ⟨hl₂.trans (hl.trans hl₁.symm), hq₂.trans hq₁.symm⟩
    · exact absurd hs hs'
    · exact absurd hs' hs
    · exact ⟨by rw [hl₂, hl₁, hl], hq₂.trans hq₁.symm⟩

theorem Reaches.congr {s : State ν φ} (hr : Reaches eqs st st') (hl : s.leaving = st.leaving)
    (hq : s.queue = st.queue) :
    ∃ s', Reaches eqs s s' ∧ s'.leaving = st'.leaving ∧ s'.queue = st'.queue := by
  induction hr with
  | refl => exact ⟨s, .refl, hl, hq⟩
  | tail _ hp ih =>
    obtain ⟨s₁, hr₁, hl₁, hq₁⟩ := ih
    obtain ⟨s₂, hp₂, hl₂, hq₂⟩ := hp.congr hl₁ hq₁
    exact ⟨s₂, hr₁.tail hp₂, hl₂, hq₂⟩

/-- A run that comes back to the same leaving facts and the same queue uses up any fuel. -/
theorem run_eq_outOfFuel {s t t' : State ν φ} (outOfFuel : ε) (hr : Reaches eqs s st)
    (hp : Pops eqs st t) (hr' : Reaches eqs t t') (hl : t'.leaving = st.leaving)
    (hq : t'.queue = st.queue) (fuel : Nat) :
    run eqs outOfFuel fuel s = .error outOfFuel := by
  -- every state that leads back to the turning point has a next one that does
  have next : ∀ s u, Reaches eqs s u → u.leaving = st.leaving → u.queue = st.queue →
      ∃ s₁ u₁, Pops eqs s s₁ ∧ Reaches eqs s₁ u₁ ∧ u₁.leaving = st.leaving ∧
        u₁.queue = st.queue := by
    intro s u hsu hlu hqu
    rcases Relation.ReflTransGen.cases_head hsu with rfl | ⟨s₁, hp₁, hr₁⟩
    · obtain ⟨t₁, hp₁, hl₁, hq₁⟩ := hp.congr hlu hqu
      obtain ⟨u₁, hr₁, hl₂, hq₂⟩ := hr'.congr hl₁ hq₁
      exact ⟨t₁, u₁, hp₁, hr₁, hl₂.trans hl, hq₂.trans hq⟩
    · exact ⟨s₁, u, hp₁, hr₁, hlu, hqu⟩
  have endless : ∀ s u, Reaches eqs s u → u.leaving = st.leaving → u.queue = st.queue →
      run eqs outOfFuel fuel s = .error outOfFuel := by
    induction fuel with
    | zero =>
      intro s u hsu hlu hqu
      obtain ⟨_, _, ⟨n, queue, hpop, -⟩, -⟩ := next s u hsu hlu hqu
      unfold run
      rw [hpop]
    | succ fuel ih =>
      intro s u hsu hlu hqu
      obtain ⟨s₁, u₁, ⟨n, queue, hpop, hv⟩, hr₁, hl₁, hq₁⟩ := next s u hsu hlu hqu
      unfold run
      rw [hpop]
      dsimp only
      rw [hv]
      exact ih s₁ u₁ hr₁ hl₁ hq₁
  exact endless s st hr rfl rfl

/-- The state after a number of nodes were taken, if that many can be. -/
def advance (eqs : Equations ν φ ε) : Nat → State ν φ → Option (State ν φ)
  | 0, st => some st
  | k + 1, st =>
    match st.queue.pop? with
    | none => none
    | some (n, queue) =>
      match visit eqs { st with queue := queue } n with
      | .error _ => none
      | .ok st => advance eqs k st

theorem advance_succ {k : Nat} (h : advance eqs (k + 1) st = some st') :
    ∃ t, Pops eqs st t ∧ advance eqs k t = some st' := by
  unfold advance at h
  split at h
  · cases h
  · rename_i n queue hq
    split at h
    · cases h
    · rename_i t hv
      exact ⟨t, ⟨n, queue, hq, hv⟩, h⟩

theorem advance_reaches {k : Nat} (h : advance eqs k st = some st') : Reaches eqs st st' := by
  induction k generalizing st with
  | zero =>
    obtain rfl := Option.some.inj h
    exact .refl
  | succ k ih =>
    obtain ⟨t, hp, ht⟩ := advance_succ h
    exact (ih ht).head hp

/-- A solver that is found in the same situation twice finds no solution. -/
theorem solve_eq_outOfFuel {s : State ν φ} {i k : Nat} (outOfFuel : ε)
    (h : advance eqs i s = some st) (h' : advance eqs (k + 1) st = some st')
    (hl : st'.leaving = st.leaving) (hq : st'.queue = st.queue) (fuel : Nat) :
    solve eqs outOfFuel fuel s = .error outOfFuel := by
  obtain ⟨t, hp, ht⟩ := advance_succ h'
  unfold solve
  rw [run_eq_outOfFuel outOfFuel (advance_reaches h) hp (advance_reaches ht) hl hq fuel]
  rfl

/-! ## Rising facts -/

variable [Preorder φ]

/-- The next step lets no fact fall. -/
def Ascends (eqs : Equations ν φ ε) (st : State ν φ) : Prop :=
  ∀ st', Pops eqs st st' → ∀ n, st.after eqs n ≤ st'.after eqs n

/-- From some point on no fact falls any more. -/
def Settles (eqs : Equations ν φ ε) (st : State ν φ) : Prop :=
  ∃ st', Reaches eqs st st' ∧ ∀ st'', Reaches eqs st' st'' → Ascends eqs st''

/-- Facts of finitely many nodes that can rise only finitely often. -/
structure Bounded (eqs : Equations ν φ ε) (nodes : List ν) (good : φ → Prop) (room : φ → Nat) :
    Prop where
  dependents : ∀ n ∈ nodes, ∀ m ∈ eqs.dependents n, m ∈ nodes
  leaving : ∀ n ∈ nodes, ∀ l b, (∀ m, good (l m)) → eqs.entering l n = .ok b →
    good (eqs.leaving n b)
  room_le : ∀ {f g}, f ≤ g → room g ≤ room f
  room_lt : ∀ {f g}, good f → good g → f ≤ g → ¬ eqs.same f g → room g < room f

/-- A state with good facts in which only the nodes wait. -/
structure Inside (eqs : Equations ν φ ε) (nodes : List ν) (good : φ → Prop) (st : State ν φ) :
    Prop where
  queue : ∀ n ∈ st.queue.toList, n ∈ nodes
  good : ∀ n, good (st.after eqs n)

variable {nodes : List ν} {good : φ → Prop} {room : φ → Nat}

theorem Inside.takes {n : ν} (hb : Bounded eqs nodes good room) (h : Inside eqs nodes good st)
    (ht : Takes eqs n st st') : Inside eqs nodes good st' := by
  have hn : n ∈ nodes := h.queue n ht.waits
  obtain ⟨queue, hq, hv⟩ := ht
  have hrest : ∀ m ∈ queue.toList, m ∈ nodes := fun m hm =>
    h.queue m (hq.mem_iff.2 (List.mem_cons_of_mem _ hm))
  obtain ⟨before, he, ⟨-, hl, hq'⟩ | ⟨-, hl, hq'⟩⟩ := visit_eq_ok hv
  · exact ⟨by rwa [hq'], fun m => by rw [State.after, hl]; exact h.good m⟩
  · refine ⟨fun m hm => ?_, fun m => ?_⟩
    · rw [hq'] at hm
      rcases OrderedSet.mem_insertAll.1 hm with hm | hm
      · exact hrest m hm
      · exact hb.dependents n hn m hm
    · rw [State.after, hl, OrderedMap.getD_insert]
      split
      · exact hb.leaving n hn _ _ h.good he
      · exact h.good m

theorem Inside.pops (hb : Bounded eqs nodes good room) (h : Inside eqs nodes good st)
    (hp : Pops eqs st st') : Inside eqs nodes good st' := by
  obtain ⟨n, ht⟩ := hp.takes
  exact h.takes hb ht

/-- What a run without falling facts uses up: room in the facts, then waiting nodes. -/
def measure (eqs : Equations ν φ ε) (nodes : List ν) (room : φ → Nat) (st : State ν φ) :
    Nat × Nat :=
  ((nodes.map fun n => room (st.after eqs n)).sum, st.queue.size)

theorem Takes.measure_lt {n : ν} (hb : Bounded eqs nodes good room)
    (h : Inside eqs nodes good st) (hle : ∀ m, st.after eqs m ≤ st'.after eqs m)
    (ht : Takes eqs n st st') :
    Prod.Lex (· < ·) (· < ·) (measure eqs nodes room st') (measure eqs nodes room st) := by
  have hin := h.takes hb ht
  have hn : n ∈ nodes := h.queue n ht.waits
  obtain ⟨queue, hq, hv⟩ := ht
  obtain ⟨before, -, ⟨-, hl, hq'⟩ | ⟨hs, hl, -⟩⟩ := visit_eq_ok hv
  · -- nothing new: one node less waits
    have hsame : ∀ m, st'.after eqs m = st.after eqs m := fun m => by rw [State.after, hl]; rfl
    have hsize : st'.queue.size < st.queue.size := by
      rw [hq']
      show queue.toList.length < st.queue.toList.length
      rw [hq.length_eq, List.length_cons]
      omega
    have hroom : (nodes.map fun m => room (st'.after eqs m)) =
        nodes.map fun m => room (st.after eqs m) := by simp only [hsame]
    rw [measure, measure, hroom]
    exact .right _ hsize
  · -- the fact of the node rises, and no other falls
    have hafter : st'.after eqs n = eqs.leaving n before := by
      rw [State.after, hl, OrderedMap.getD_insert, if_pos rfl]
    refine .left _ _ (List.sum_lt_sum _ _ (fun m _ => hb.room_le (hle m)) ⟨n, hn, ?_⟩)
    refine hb.room_lt (h.good n) (hin.good n) (hle n) ?_
    rw [hafter]
    exact hs

theorem finishes_of_ascends {st : State ν φ} (hb : Bounded eqs nodes good room)
    (h : Inside eqs nodes good st) (ha : ∀ st', Reaches eqs st st' → Ascends eqs st') :
    Finishes eqs st := by
  cases hq : st.queue.pop? with
  | none => exact ⟨.ok st, st, .refl, .inl ⟨hq, rfl⟩⟩
  | some x =>
    obtain ⟨n, queue⟩ := x
    rcases pops_or_error eqs hq with ⟨st', hp⟩ | ⟨e, he⟩
    · obtain ⟨k, ht⟩ := hp.takes
      have hlt := ht.measure_lt hb h (ha st .refl st' hp)
      obtain ⟨r, hr⟩ := finishes_of_ascends hb (h.pops hb hp) fun st'' hr => ha st'' (hr.head hp)
      exact ⟨r, hp.outcome hr⟩
    · exact ⟨.error e, st, .refl, .inr ⟨n, queue, e, hq, he, rfl⟩⟩
termination_by measure eqs nodes room st
decreasing_by exact hlt

/-- The solver comes to an end exactly if its facts stop falling. -/
theorem finishes_iff_settles (hb : Bounded eqs nodes good room)
    (h : Inside eqs nodes good st) : Finishes eqs st ↔ Settles eqs st := by
  constructor
  · rintro ⟨r, last, hr, hl⟩
    -- where the run has ended there is no next step that could let a fact fall
    have stuck : ∀ st', ¬ Pops eqs last st' := by
      rintro st' ⟨n, queue, hq, hv⟩
      rcases hl with ⟨hnone, -⟩ | ⟨n', queue', e, hq', he, -⟩
      · rw [hq] at hnone
        cases hnone
      · obtain ⟨rfl, rfl⟩ := Prod.mk.inj (Option.some.inj (hq.symm.trans hq'))
        rw [hv] at he
        cases he
    refine ⟨last, hr, fun st'' hr'' => ?_⟩
    rcases Relation.ReflTransGen.cases_head hr'' with rfl | ⟨st', hp, -⟩
    · exact fun st' hp => absurd hp (stuck st')
    · exact absurd hp (stuck st')
  · rintro ⟨st', hr, ha⟩
    induction hr using Relation.ReflTransGen.head_induction_on with
    | refl => exact finishes_of_ascends hb h ha
    | head hp _ ih =>
      obtain ⟨r, hr⟩ := ih (h.pops hb hp)
      exact ⟨r, hp.outcome hr⟩

/-! ## Monotone equations -/

/-- A higher fact never lowers what is computed from it, and never decides whether it can be
computed. -/
structure Monotone (eqs : Equations ν φ ε) (nodes : List ν) : Prop where
  entering : ∀ n ∈ nodes, ∀ l l' b', (∀ m, l m ≤ l' m) → eqs.entering l' n = .ok b' →
    ∃ b, eqs.entering l n = .ok b ∧ b ≤ b'
  leaving : ∀ n ∈ nodes, ∀ f g, f ≤ g → eqs.leaving n f ≤ eqs.leaving n g

/-- Every fact lies below what it would be recomputed to. -/
def Rising (eqs : Equations ν φ ε) (nodes : List ν) (st : State ν φ) : Prop :=
  ∀ n ∈ nodes, ∀ b, eqs.entering (st.after eqs) n = .ok b → st.after eqs n ≤ eqs.leaving n b

theorem Rising.takes {n : ν} (hm : Monotone eqs nodes) (hn : n ∈ nodes)
    (h : Rising eqs nodes st) (ht : Takes eqs n st st') :
    Rising eqs nodes st' ∧ ∀ m, st.after eqs m ≤ st'.after eqs m := by
  obtain ⟨queue, -, hv⟩ := ht
  obtain ⟨before, he, ⟨-, hl, -⟩ | ⟨-, hl, -⟩⟩ := visit_eq_ok hv
  · have hsame : st'.after eqs = st.after eqs := funext fun m => by rw [State.after, hl]; rfl
    refine ⟨?_, fun m => by rw [hsame]⟩
    unfold Rising
    rw [hsame]
    exact h
  · have hafter : ∀ m, st'.after eqs m = if m = n then eqs.leaving n before else st.after eqs m :=
      fun m => by
        rw [State.after, hl, OrderedMap.getD_insert]
        rfl
    have hle : ∀ m, st.after eqs m ≤ st'.after eqs m := by
      intro m
      rw [hafter]
      split
      · rename_i hmn
        rw [hmn]
        exact h n hn before he
      · exact le_refl _
    -- the facts before have risen, so what they are recomputed to has risen too
    refine ⟨fun m hmem b' hb' => ?_, hle⟩
    obtain ⟨b, hb, hbb'⟩ := hm.entering m hmem _ _ b' hle hb'
    refine le_trans ?_ (hm.leaving m hmem b b' hbb')
    rw [hafter]
    split
    · rename_i hmn
      subst hmn
      have he' : eqs.entering (st.after eqs) m = .ok before := he
      rw [Except.ok.inj (hb.symm.trans he')]
    · exact h m hmem b hb

/-- Monotone equations let no fact fall. -/
theorem Rising.settles (hb : Bounded eqs nodes good room) (hm : Monotone eqs nodes)
    (h : Rising eqs nodes st) (hin : Inside eqs nodes good st) : Settles eqs st := by
  have step : ∀ {s s'}, Rising eqs nodes s ∧ Inside eqs nodes good s → Pops eqs s s' →
      (Rising eqs nodes s' ∧ Inside eqs nodes good s') ∧ ∀ n, s.after eqs n ≤ s'.after eqs n := by
    intro s s' hs hp
    obtain ⟨n, ht⟩ := hp.takes
    obtain ⟨hrises, hle⟩ := hs.1.takes hm (hs.2.queue n ht.waits) ht
    exact ⟨⟨hrises, hs.2.takes hb ht⟩, hle⟩
  have rising : ∀ st', Reaches eqs st st' → Rising eqs nodes st' ∧ Inside eqs nodes good st' := by
    intro st' hr
    induction hr with
    | refl => exact ⟨h, hin⟩
    | tail _ hp ih => exact (step ih hp).1
  exact ⟨st, .refl, fun st' hr st'' hp => (step (rising st' hr) hp).2⟩

end

end ObjectFlow.Dataflow
