import ObjectFlow.Proofs.Coarsening
import ObjectFlow.Proofs.Requests
/-!
# A bound on the rounds

A bound is looked at when a round begins, and nowhere else. So a bounded run
goes through the states of the run without a bound, one by one, up to the last
round that is allowed. If nothing waits by then it has come to the same end. If
something waits it is called off there, as is whatever is asked of it later.
-/

namespace ObjectFlow.PointsTo

section
variable {p : Program} {s : Selector} {setup : Setup} {st st' : State} {new : List Task}
  {fuel fuel' : Nat}

/-! ## Tasks are not counted -/

namespace State

variable {q t : Pointer} {objs : PointsToSet CtxObject} {kind : FlowKind} {m : CtxMethod}
  {e : CtxEdge}

@[simp] theorem internPointer_rounds : (st.internPointer q).rounds = st.rounds := rfl

@[simp] theorem await_rounds : (st.await q objs).rounds = st.rounds := rfl

@[simp] theorem connect_rounds : (st.connect q t kind).rounds = st.rounds := by
  unfold connect
  dsimp only
  split
  · rfl
  · split <;> rfl

@[simp] theorem reach_rounds : (st.reach p m).1.rounds = st.rounds := by
  unfold reach
  split <;> rfl

@[simp] theorem addCall_rounds : (st.addCall p e).1.rounds = st.rounds := by
  by_cases h : st.calls.hasEdge e
  · rw [addCall_of_hasEdge h]
  · rw [addCall_of_not_hasEdge h, reach_rounds]

end State

theorem foldl_rounds {α : Type} {f : State → α → State} (hf : ∀ st a, (f st a).rounds = st.rounds)
    (l : List α) (st : State) : (l.foldl f st).rounds = st.rounds :=
  foldl_keeps (P := fun st' => st'.rounds = st.rounds) (fun st' a _ h => (hf st' a).trans h) rfl

theorem visit_rounds {m : CtxMethod} {stmt : Stmt} (hx : visit p s m stmt st = .ok (st', new)) :
    st'.rounds = st.rounds := by
  unfold visit at hx
  dsimp only at hx
  split at hx
  · obtain ⟨rfl, -⟩ := Prod.mk.inj (Except.ok.inj hx)
    rfl
  · obtain ⟨rfl, -⟩ := Prod.mk.inj (Except.ok.inj hx)
    exact State.connect_rounds
  · obtain ⟨rfl, -⟩ := Prod.mk.inj (Except.ok.inj hx)
    exact State.connect_rounds
  · obtain ⟨rfl, -⟩ := Prod.mk.inj (Except.ok.inj hx)
    exact State.connect_rounds
  · split at hx
    · obtain ⟨callee, mid, -, rfl, rfl, -⟩ := visitStaticCall_eq_ok hx
      exact State.addCall_rounds
    · obtain ⟨rfl, -⟩ := Prod.mk.inj (Except.ok.inj hx)
      rfl
  · cases hx
  · obtain ⟨rfl, -⟩ := Prod.mk.inj (Except.ok.inj hx)
    rfl

theorem connectAccess_rounds (c : Ctx) (o : CtxObject) (st : State) (stmt : Stmt) :
    (connectAccess c o st stmt).rounds = st.rounds := by
  unfold connectAccess
  cases stmt.command <;> first | rfl | exact State.connect_rounds

theorem call_rounds {site : CtxCallSite} {o : CtxObject}
    (hx : call p s site o st = .ok (st', new)) : st'.rounds = st.rounds := by
  obtain ⟨callee, mid, served, -, rfl, hserved, rfl, -⟩ := call_eq_ok hx
  rcases hserved with ⟨-, rfl⟩ | ⟨b, -, rfl⟩
  · exact State.addCall_rounds
  · exact State.addCall_rounds

theorem wire_rounds {e : CtxEdge} (hx : wire p e st = .ok st') : st'.rounds = st.rounds := by
  unfold wire at hx
  split at hx
  · obtain rfl := Except.ok.inj hx
    rfl
  · dsimp only at hx
    split at hx
    · cases hx
    · obtain rfl := Except.ok.inj hx
      have hargs : ∀ c d pairs, (wireArguments c d st pairs).rounds = st.rounds :=
        fun c d pairs => foldl_rounds (fun _ _ => State.connect_rounds) pairs st
      have hres : ∀ c d returned st w, (wireResult c d returned st w).rounds = st.rounds :=
        fun c d returned st w => foldl_rounds (fun _ _ => State.connect_rounds) returned _
      exact (foldl_rounds (hres _ _ _) _ _).trans (hargs _ _ _)

theorem exec_rounds {k : Task} (hx : exec p s k st = .ok (st', new)) :
    st'.rounds = st.rounds := by
  cases k with
  | enter m =>
    obtain ⟨rfl, -⟩ := Prod.mk.inj (Except.ok.inj hx)
    exact State.reach_rounds
  | visit m stmt => exact visit_rounds hx
  | receive c v o =>
    cases v with
    | none => cases hx
    | some v =>
      obtain ⟨rfl, -⟩ := Prod.mk.inj (Except.ok.inj hx)
      exact foldl_rounds (connectAccess_rounds c o) _ st
  | call site o => exact call_rounds hx
  | wire e =>
    simp only [exec] at hx
    cases hw : wire p e st with
    | error err =>
      rw [hw] at hx
      cases hx
    | ok st₁ =>
      rw [hw] at hx
      obtain ⟨rfl, -⟩ := Prod.mk.inj (Except.ok.inj hx)
      exact wire_rounds hw

theorem settle_rounds (p : Program) (s : Selector) (fuel : Nat) (A : List Task) (st : State) :
    (settle p s fuel A st).2.rounds = st.rounds := by
  obtain ⟨-, h, -⟩ := settle_keeps (p := p) (s := s) (P := fun _ st' => st'.rounds = st.rounds)
    (fun h hx => (exec_rounds hx).trans h) fuel (A := A) rfl
  exact h

theorem propagate_rounds (st : State) (q : Pointer) (objs : PointsToSet CtxObject) :
    (st.propagate q objs).1.rounds = st.rounds := by
  unfold State.propagate
  dsimp only
  split
  · rfl
  · exact foldl_rounds (fun _ _ => State.await_rounds) _ _

/-- A round counts as one. -/
theorem step_rounds (h : step fuel p setup st = (.ok true, st')) :
    st'.rounds = st.rounds + 1 := by
  unfold step at h
  split at h
  · cases h
  · rename_i q objs rest _
    obtain ⟨-, hs⟩ := round_eq_ok h
    have hr := settle_rounds p setup.selector fuel
      (arrivals q ((st.taken rest).propagate q objs).2) ((st.taken rest).propagate q objs).1
    rw [hs, propagate_rounds] at hr
    exact hr

theorem start_rounds (h : start fuel p setup .empty = (.ok (), st)) : st.rounds = 0 := by
  have hr := settle_rounds p setup.selector fuel (setup.entries.map fun m => .enter ⟨[], m⟩)
    { State.empty with started := true }
  rw [start_eq_ok h] at hr
  exact hr

theorem start_started (h : start fuel p setup .empty = (.ok (), st)) : st.started = true :=
  (start_outcome h (by simp)).running.started

/-! ## More fuel -/

theorem settle_of_le {A : List Task} (hle : fuel ≤ fuel')
    (h : settle p s fuel A st = (.ok (), st')) : settle p s fuel' A st = (.ok (), st') := by
  induction fuel generalizing fuel' A st with
  | zero =>
    cases A with
    | nil =>
      cases fuel' <;> exact h
    | cons k A => cases h
  | succ fuel ih =>
    cases A with
    | nil =>
      cases fuel' <;> exact h
    | cons k A =>
      obtain ⟨fuel', rfl⟩ : ∃ f, fuel' = f + 1 := ⟨fuel' - 1, by omega⟩
      simp only [settle] at h ⊢
      cases hx : exec p s k st with
      | error e =>
        rw [hx] at h
        cases h
      | ok r =>
        rw [hx] at h
        exact ih (by omega) h

theorem start_of_le (hle : fuel ≤ fuel') (h : start fuel p setup .empty = (.ok (), st)) :
    start fuel' p setup .empty = (.ok (), st) := settle_of_le hle (start_eq_ok h)

theorem step_of_le {b : Bool} (hle : fuel ≤ fuel') (h : step fuel p setup st = (.ok b, st')) :
    step fuel' p setup st = (.ok b, st') := by
  unfold step at h ⊢
  split at h
  · exact h
  · rename_i q objs rest _
    obtain ⟨rfl, hs⟩ := round_eq_ok h
    unfold round at h ⊢
    dsimp only at h ⊢
    split at h
    · cases h
    · rename_i hlim
      have hs' := settle_of_le hle hs
      simp only [State.taken] at hs'
      rw [if_neg hlim, hs']
      rfl

/-! ## The run, state by state -/

/-- The state after a number of rounds from `st₀`, each at the pointer that has waited longest. -/
inductive After (p : Program) (setup : Setup) (st₀ : State) : Nat → State → Prop
  | start : After p setup st₀ 0 st₀
  | round {n fuel : Nat} {st st' : State} (before : After p setup st₀ n st)
    (h : step fuel p setup st = (.ok true, st')) : After p setup st₀ (n + 1) st'

namespace After

variable {st₀ : State} {k n : Nat}

/-- The rounds of a run are one after the other in only one way. -/
theorem unique (h : After p setup st₀ n st) (h' : After p setup st₀ n st') : st = st' := by
  induction h generalizing st' with
  | start =>
    cases h' with
    | start => rfl
  | @round n fuel a b _ hab ih =>
    cases h' with
    | @round _ fuel' a' _ ha' hab' =>
      obtain rfl := ih ha'
      have h₁ := step_of_le (Nat.le_max_left fuel fuel') hab
      have h₂ := step_of_le (Nat.le_max_right fuel fuel') hab'
      exact (Prod.mk.inj (h₁.symm.trans h₂)).2

theorem rounds_eq (h : After p setup st₀ n st) : st.rounds = st₀.rounds + n := by
  induction h with
  | start => rfl
  | round _ hr ih =>
    rw [step_rounds hr, ih]
    rfl

theorem started_eq (h : After p setup st₀ n st) : st.started = st₀.started := by
  induction h with
  | start => rfl
  | @round n fuel a b _ hr ih =>
    have hs := (step_operations fuel p setup a).started
    rw [hr] at hs
    exact hs.trans ih

/-- A run that went on beyond `k` rounds had something waiting after them. -/
theorem earlier (h : After p setup st₀ n st) (hk : k < n) :
    ∃ cut, After p setup st₀ k cut ∧ cut.pending.poll? ≠ none := by
  induction h with
  | start => omega
  | @round n fuel a b ha hr ih =>
    rcases Nat.lt_or_eq_of_le (Nat.le_of_lt_succ hk) with hlt | rfl
    · exact ih hlt
    · refine ⟨a, ha, fun hp => ?_⟩
      simp only [step, hp] at hr
      cases hr

end After

/-- An analysis that returns starts and then does its rounds. -/
theorem rounds_of_analyze (h : analyze fuel p setup .empty = (.ok (), st)) :
    ∃ st₀, start fuel p setup .empty = (.ok (), st₀) ∧
      rounds fuel p setup fuel st₀ = (.ok (), st) := by
  have hstarted : State.empty.started = false := rfl
  simp only [analyze, hstarted, Bool.false_eq_true, if_false] at h
  split at h
  · cases h
  · rename_i st₀ hs
    exact ⟨st₀, hs, h⟩

/-- Rounds that return end after some number of them, with nothing waiting. -/
theorem after_of_rounds {st₀ : State} {n k : Nat} (ha : After p setup st₀ k st)
    (h : rounds fuel p setup n st = (.ok (), st')) :
    ∃ m, After p setup st₀ m st' ∧ st'.pending.poll? = none := by
  induction n generalizing k st with
  | zero => cases h
  | succ n ih =>
    simp only [rounds] at h
    split at h
    · cases h
    · rename_i st₁ hs
      obtain rfl := (Prod.mk.inj h).2
      rcases step_eq_ok hs with ⟨-, rfl, hp⟩ | ⟨hb, -⟩
      · exact ⟨k, ha, hp⟩
      · cases hb
    · rename_i st₁ hs
      exact ih (ha.round hs) h

end

/-! ## The bound -/

section
variable {p : Program} {E : List Method} {s : Selector} {st st' st₀ : State} {fuel k n : Nat}

/-- A step that the bound allows is the step without a bound. -/
theorem step_of_lt (hn : st.rounds < n) :
    step fuel p ⟨E, s, n⟩ st = step fuel p ⟨E, s, 0⟩ st := by
  unfold step round
  simp [Nat.not_lt.2 (Nat.succ_le_of_lt hn)]

/-- A step beyond the bound is counted and then refused. -/
theorem step_of_le_rounds (h0 : n ≠ 0) (hn : n ≤ st.rounds) (hp : st.pending.poll? ≠ none) :
    step fuel p ⟨E, s, n⟩ st =
      (.error (.aborted (.roundLimit n)), { st with rounds := st.rounds + 1 }) := by
  obtain ⟨⟨⟨q, objs⟩, rest⟩, hr⟩ := Option.ne_none_iff_exists'.1 hp
  simp [step, hr, round, h0, Nat.lt_succ_of_le hn]

/-- As long as the bound allows, the bounded rounds are the first ones of the run without it. -/
theorem After.bounded_rounds (h : After p ⟨E, s, 0⟩ st₀ k st) (hn : st₀.rounds + k ≤ n) :
    ∃ bound, ∀ fuel, bound ≤ fuel → ∀ count,
      rounds fuel p ⟨E, s, n⟩ (k + count) st₀ = rounds fuel p ⟨E, s, n⟩ count st := by
  induction h with
  | start => exact ⟨0, fun fuel _ count => by rw [Nat.zero_add]⟩
  | @round k fuel a b ha hr ih =>
    obtain ⟨bound, hb⟩ := ih (by omega)
    refine ⟨max bound fuel, fun fuel' hle count => ?_⟩
    have hstep : step fuel' p ⟨E, s, n⟩ a = (.ok true, b) := by
      rw [step_of_lt (by rw [ha.rounds_eq]; omega)]
      exact step_of_le (le_trans (Nat.le_max_right _ _) hle) hr
    have hfirst := hb fuel' (le_trans (Nat.le_max_left _ _) hle) (count + 1)
    rw [show k + 1 + count = k + (count + 1) by omega, hfirst]
    simp only [rounds, hstep]

/-- With fuel enough the bounded analysis comes to each state that the bound allows. -/
theorem analyze_eq_of_after (hs : start fuel p ⟨E, s, 0⟩ .empty = (.ok (), st₀))
    (h : After p ⟨E, s, 0⟩ st₀ k st) (hn : k ≤ n) :
    ∃ bound, ∀ fuel, bound ≤ fuel → ∃ count,
      analyze fuel p ⟨E, s, n⟩ .empty = rounds fuel p ⟨E, s, n⟩ (count + 1) st := by
  obtain ⟨bound, hb⟩ := h.bounded_rounds (n := n) (by rw [start_rounds hs]; omega)
  refine ⟨max (max fuel bound) (k + 1), fun fuel' hle => ?_⟩
  have hs' : start fuel' p ⟨E, s, n⟩ .empty = (.ok (), st₀) := start_of_le (by omega) hs
  have hstarted : State.empty.started = false := rfl
  obtain ⟨count, hcount⟩ : ∃ c, fuel' = k + (c + 1) := ⟨fuel' - (k + 1), by omega⟩
  refine ⟨count, ?_⟩
  simp only [analyze, hstarted, Bool.false_eq_true, if_false, hs']
  rw [← hb fuel' (by omega), ← hcount]

/-- A run that the bound allows to its end. -/
theorem yields_of_after (hs : start fuel p ⟨E, s, 0⟩ .empty = (.ok (), st₀))
    (h : After p ⟨E, s, 0⟩ st₀ k st) (hp : st.pending.poll? = none) (hn : k ≤ n) :
    Yields p ⟨E, s, n⟩ st := by
  obtain ⟨bound, hb⟩ := analyze_eq_of_after hs h hn
  refine ⟨bound, fun fuel hle => ?_⟩
  obtain ⟨count, hcount⟩ := hb fuel hle
  rw [hcount]
  simp only [rounds, step, hp]

/-- A run that the bound cuts short. -/
theorem analyze_cut_short (hs : start fuel p ⟨E, s, 0⟩ .empty = (.ok (), st₀))
    (h : After p ⟨E, s, 0⟩ st₀ n st) (hp : st.pending.poll? ≠ none) (h0 : n ≠ 0) :
    ∃ bound, ∀ fuel, bound ≤ fuel → analyze fuel p ⟨E, s, n⟩ .empty =
      (.error (.aborted (.roundLimit n)), { st with rounds := n + 1 }) := by
  have hrounds : st.rounds = n := by rw [h.rounds_eq, start_rounds hs, Nat.zero_add]
  obtain ⟨bound, hb⟩ := analyze_eq_of_after hs h (Nat.le_refl n)
  refine ⟨bound, fun fuel hle => ?_⟩
  obtain ⟨count, hcount⟩ := hb fuel hle
  rw [hcount]
  simp only [rounds, step_of_le_rounds h0 hrounds.ge hp]
  rw [hrounds]

/-! ## Asking again -/

/-- The answers to some requests in turn, and the state after them. -/
def respondAll (fuel : Nat) (p : Program) (setup : Setup) :
    List Request → State → List (Except AnalysisError Unit) × State
  | [], st => ([], st)
  | r :: requests, st =>
    let (answer, st) := respond fuel p setup st r
    let (answers, st) := respondAll fuel p setup requests st
    (answer :: answers, st)

/-- What is answered once a run was called off. -/
def refusal (n : Nat) : Request → Except AnalysisError Unit
  | .start => .error .startedTwice
  | .step | .analyze => .error (.aborted (.roundLimit n))

theorem respond_refusal (p : Program) (E : List Method) (s : Selector) (h0 : n ≠ 0)
    (hfuel : fuel ≠ 0) (hst : st.started = true) (hn : n ≤ st.rounds)
    (hp : st.pending.poll? ≠ none) (r : Request) :
    ∃ k, n ≤ k ∧ respond fuel p ⟨E, s, n⟩ st r = (refusal n r, { st with rounds := k }) := by
  have hstep : step fuel p ⟨E, s, n⟩ st = _ := step_of_le_rounds h0 hn hp
  cases r with
  | start => exact ⟨st.rounds, hn, by rw [respond, start, if_pos hst, refusal]⟩
  | step =>
    refine ⟨st.rounds + 1, Nat.le_succ_of_le hn, ?_⟩
    simp only [respond, hstep, refusal, Except.map]
  | analyze =>
    obtain ⟨fuel, rfl⟩ := Nat.exists_eq_succ_of_ne_zero hfuel
    refine ⟨st.rounds + 1, Nat.le_succ_of_le hn, ?_⟩
    simp only [respond, analyze, hst, if_true, rounds, hstep, refusal]

/-- A run that was called off stays so, and only counts on. -/
theorem respondAll_refusal (p : Program) (E : List Method) (s : Selector) (h0 : n ≠ 0)
    (hfuel : fuel ≠ 0) (st : State) (hst : st.started = true) (hn : n ≤ st.rounds)
    (hp : st.pending.poll? ≠ none) (later : List Request) :
    ∃ k, respondAll fuel p ⟨E, s, n⟩ later st =
      (later.map (refusal n), { st with rounds := k }) := by
  induction later generalizing st with
  | nil => exact ⟨st.rounds, rfl⟩
  | cons r later ih =>
    obtain ⟨k, hk, hr⟩ := respond_refusal p E s h0 hfuel hst hn hp r
    obtain ⟨k', hall⟩ := ih { st with rounds := k } hst hk hp
    exact ⟨k', by simp only [respondAll, hr, hall, List.map_cons]⟩

/-- A bound only cuts a run short. Let the run without a bound return in `st` after `st.rounds`
rounds from the state `st₀` it started with. A bounded run returns exactly if the bound is no
smaller, and then with the very same state. Otherwise it is called off with all as it was after
the last allowed round, except that the refused one was counted; and whatever is asked later is
refused as well and changes nothing but that count. -/
theorem bound_cuts_short (p : Program) (E : List Method) (s : Selector) {n : Nat} (h0 : n ≠ 0)
    {fuel : Nat} {st : State} (h : analyze fuel p ⟨E, s, 0⟩ .empty = (.ok (), st)) :
    ∃ st₀, start fuel p ⟨E, s, 0⟩ .empty = (.ok (), st₀) ∧
      After p ⟨E, s, 0⟩ st₀ st.rounds st ∧
      ((∃ st', Yields p ⟨E, s, n⟩ st') ↔ st.rounds ≤ n) ∧
      (st.rounds ≤ n → Yields p ⟨E, s, n⟩ st) ∧
      (n < st.rounds → ∃ cut, (∀ st', After p ⟨E, s, 0⟩ st₀ n st' ↔ st' = cut) ∧
        ∃ bound, ∀ fuel, bound ≤ fuel → ∀ later, ∃ k,
          respondAll fuel p ⟨E, s, n⟩ (.analyze :: later) .empty =
            (.error (.aborted (.roundLimit n)) :: later.map (refusal n),
              { cut with rounds := k })) := by
  obtain ⟨st₀, hs, hr⟩ := rounds_of_analyze h
  obtain ⟨N, ha, hp⟩ := after_of_rounds .start hr
  obtain rfl : st.rounds = N := by rw [ha.rounds_eq, start_rounds hs, Nat.zero_add]
  have hlong : n < st.rounds → ∃ cut, (∀ st', After p ⟨E, s, 0⟩ st₀ n st' ↔ st' = cut) ∧
      ∃ bound, ∀ fuel, bound ≤ fuel → ∀ later, ∃ k,
        respondAll fuel p ⟨E, s, n⟩ (.analyze :: later) .empty =
          (.error (.aborted (.roundLimit n)) :: later.map (refusal n),
            { cut with rounds := k }) := by
    intro hlt
    obtain ⟨cut, hcut, hwaits⟩ := ha.earlier hlt
    obtain ⟨bound, hb⟩ := analyze_cut_short hs hcut hwaits h0
    have hstarted : cut.started = true := by rw [hcut.started_eq, start_started hs]
    refine ⟨cut, fun st' => ⟨fun h' => h'.unique hcut, fun h' => h' ▸ hcut⟩, bound + 1,
      fun fuel hle later => ?_⟩
    have hfuel : fuel ≠ 0 := by omega
    obtain ⟨k, hall⟩ := respondAll_refusal p E s h0 hfuel { cut with rounds := n + 1 } hstarted
      (Nat.le_succ n) hwaits later
    exact ⟨k, by simp only [respondAll, respond, hb fuel (by omega), hall]⟩
  refine ⟨st₀, hs, ha, ⟨?_, fun hle => ⟨st, yields_of_after hs ha hp hle⟩⟩,
    yields_of_after hs ha hp, hlong⟩
  rintro ⟨st', m, hm⟩
  -- a run that returns is not called off
  by_contra hlt
  obtain ⟨cut, -, bound, hb⟩ := hlong (by omega)
  obtain ⟨k, hall⟩ := hb (max m bound) (Nat.le_max_right _ _) []
  simp only [respondAll, respond, hm _ (Nat.le_max_left _ _)] at hall
  cases hall

end

namespace Boxes

/-- The two boxes take six rounds. A bound of six changes nothing, and with a bound of five the
analysis and all that follows it is refused. -/
theorem bound_cuts_short_boxes :
    analyze 40 program ⟨[main], .insensitive, 0⟩ .empty = (.ok (), final .insensitive) ∧
    (final .insensitive).rounds = 6 ∧
    Yields program ⟨[main], .insensitive, 6⟩ (final .insensitive) ∧
    (¬ ∃ st', Yields program ⟨[main], .insensitive, 5⟩ st') ∧
    ∃ bound, ∀ fuel, bound ≤ fuel →
      (respondAll fuel program ⟨[main], .insensitive, 5⟩ [.analyze, .step, .analyze] .empty).1 =
        List.replicate 3 (.error (.aborted (.roundLimit 5))) := by
  have hrounds : (final .insensitive).rounds = 6 := by decide
  obtain ⟨-, -, -, -, hallowed, -⟩ :=
    bound_cuts_short program [main] .insensitive (n := 6) (by decide) analyze_insensitive
  obtain ⟨st₀, -, -, hreturns, -, hcut⟩ :=
    bound_cuts_short program [main] .insensitive (n := 5) (by decide) analyze_insensitive
  obtain ⟨cut, -, bound, hb⟩ := hcut (by omega)
  refine ⟨analyze_insensitive, hrounds, hallowed hrounds.le, fun hy => ?_, bound, fun fuel hle => ?_⟩
  · have hle := hreturns.1 hy
    omega
  · obtain ⟨k, hall⟩ := hb fuel hle [.step, .analyze]
    rw [hall]
    rfl

end Boxes

end ObjectFlow.PointsTo
