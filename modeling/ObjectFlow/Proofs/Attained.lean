import ObjectFlow.Proofs.Records
import ObjectFlow.Proofs.Requests
/-!
# Whatever is asked

An analysis may be started, moved on and run to its end in any order, and each
request may succeed, fail or be cut off for want of fuel. What every task, every
round and the start keep is true of all states that come about in this way.
-/

namespace ObjectFlow.PointsTo

/-- The states that requests lead to, with any fuel and whatever becomes of them. -/
inductive Attained (p : Program) (setup : Setup) : State → Prop
  | fresh : Attained p setup .empty
  | ask {st : State} (before : Attained p setup st) (fuel : Nat) (r : Request) :
    Attained p setup (respond fuel p setup st r).2

/-- A property of a state with an agenda that the start brings about and tasks and rounds keep. An
agenda may be dropped before a round, so a round may find anything on it. -/
structure Kept (p : Program) (setup : Setup) (P : List Task → State → Prop) : Prop where
  start : P (setup.entries.map fun m => .enter ⟨[], m⟩) { State.empty with started := true }
  exec : ∀ {k A st st' new}, P (k :: A) st → exec p setup.selector k st = .ok (st', new) →
    P (new ++ A) st'
  count : ∀ {A st} n, P A st → P A { st with rounds := n }
  take : ∀ {A st q objs rest}, P A st → st.pending.take? q = some (objs, rest) →
    P (arrivals q ((st.taken rest).propagate q objs).2) ((st.taken rest).propagate q objs).1

section
variable {p : Program} {setup : Setup} {P Q : List Task → State → Prop} {st st' : State}

theorem Kept.and (hP : Kept p setup P) (hQ : Kept p setup Q) :
    Kept p setup fun A st => P A st ∧ Q A st where
  start := ⟨hP.start, hQ.start⟩
  exec h hx := ⟨hP.exec h.1 hx, hQ.exec h.2 hx⟩
  count n h := ⟨hP.count n h.1, hQ.count n h.2⟩
  take h ht := ⟨hP.take h.1 ht, hQ.take h.2 ht⟩

/-- A state that was started stays so. -/
theorem kept_started : Kept p setup fun _ st => st.started = true where
  start := rfl
  exec h hx := (exec_operations hx).started.trans h
  count _ h := h
  take h _ := (propagate_operations _ _ _).started.trans h

theorem Kept.settle (hk : Kept p setup P) (fuel : Nat) {A : List Task} (h : P A st) :
    ∃ B, P B (settle p setup.selector fuel A st).2 := by
  obtain ⟨B, hB, -⟩ := settle_keeps (P := P) (fun h hx => hk.exec h hx) fuel h
  exact ⟨B, hB⟩

theorem Kept.step (hk : Kept p setup P) (fuel : Nat) {A : List Task} (h : P A st) :
    ∃ B, P B (step fuel p setup st).2 := by
  unfold PointsTo.step
  split
  · exact ⟨A, h⟩
  · rename_i q objs rest hp
    unfold round
    dsimp only
    split
    · exact ⟨A, hk.count _ h⟩
    · exact hk.settle fuel (hk.take h (Pending.take?_of_poll? hp))

theorem Kept.rounds (hk : Kept p setup P) (fuel n : Nat) {A : List Task} (h : P A st) :
    ∃ B, P B (rounds fuel p setup n st).2 := by
  induction n generalizing A st with
  | zero => exact ⟨A, h⟩
  | succ n ih =>
    obtain ⟨B, hB⟩ := hk.step fuel h
    simp only [PointsTo.rounds]
    split
    · rename_i hs
      exact ⟨B, by rwa [hs] at hB⟩
    · rename_i hs
      exact ⟨B, by rwa [hs] at hB⟩
    · rename_i hs
      rw [hs] at hB
      exact ih hB

theorem Kept.first (hk : Kept p setup P) (fuel : Nat) :
    ∃ B, P B (PointsTo.start fuel p setup .empty).2 := hk.settle fuel hk.start

/-- The first analysis starts, and goes on if the start succeeds. -/
theorem Kept.whole (hk : Kept p setup P) (fuel : Nat) :
    ∃ B, P B (analyze fuel p setup .empty).2 := by
  obtain ⟨B, hB⟩ := hk.first fuel
  have hnot : State.empty.started = false := rfl
  simp only [analyze, hnot, Bool.false_eq_true, if_false]
  split
  · rename_i hs
    exact ⟨B, by rwa [hs] at hB⟩
  · rename_i hs
    rw [hs] at hB
    exact hk.rounds fuel fuel hB

/-- What is kept holds of every state that was attained, once there was a start. -/
theorem Attained.keeps (h : Attained p setup st) (hk : Kept p setup P) :
    st = .empty ∨ ∃ A, P A st := by
  have hboth := hk.and kept_started
  suffices hs : st = .empty ∨ ∃ A, P A st ∧ st.started = true from
    hs.imp id fun ⟨A, hA, _⟩ => ⟨A, hA⟩
  induction h with
  | fresh => exact .inl rfl
  | @ask st _ fuel r ih =>
    rcases ih with rfl | ⟨A, hA⟩
    · cases r with
      | start => exact .inr (hboth.first fuel)
      | step => exact .inl rfl
      | analyze => exact .inr (hboth.whole fuel)
    · right
      cases r with
      | start =>
        -- a second start is refused
        refine ⟨A, ?_⟩
        simpa only [respond, PointsTo.start, hA.2, if_true] using hA
      | step => exact hboth.step fuel hA
      | analyze =>
        simp only [respond, analyze, hA.2, if_true]
        exact hboth.rounds fuel fuel hA

/-- A state that an analysis leaves is one that was attained. -/
theorem Attained.analyze {fuel : Nat} {answer : Except AnalysisError Unit}
    (h : Attained p setup st) (hr : analyze fuel p setup st = (answer, st')) :
    Attained p setup st' := by
  have ha := h.ask fuel .analyze
  rwa [respond, hr] at ha

end

/-! ## What is known to be kept -/

section
variable {p : Program} {setup : Setup} {F : Set Conclusion} {st : State}

theorem kept_sound (hF : Closed p setup F) : Kept p setup fun A st => Sound p F st A where
  start := initial_sound hF
  exec h hx := h.after hF hx
  count _ h := ⟨h.1.congr rfl rfl rfl rfl, h.2⟩
  take h ht := propagate_sound hF h.1 ht

/-- No state leads out of a set that is closed under the rules. -/
theorem Attained.within (h : Attained p setup st) (hF : Closed p setup F) : Within F st := by
  rcases h.keeps (kept_sound hF) with rfl | ⟨A, hA⟩
  · exact (initial_sound hF).1.congr rfl rfl rfl rfl
  · exact hA.1

theorem kept_onRecord : Kept p setup OnRecord where
  start := .initial
  exec h hx := h.after hx
  count _ h := ⟨h.1.congr (fun _ hq => hq) (fun _ hx => hx) rfl rfl rfl, h.2⟩
  take h ht := propagate_onRecord ht h.1

theorem Attained.recorded (h : Attained p setup st) : Recorded st := by
  rcases h.keeps kept_onRecord with rfl | ⟨A, hA⟩
  · have hstart : OnRecord (setup.entries.map fun m => .enter ⟨[], m⟩) _ := .initial
    exact hstart.1.congr (fun _ hq => hq) (fun _ hx => hx) rfl rfl rfl
  · exact hA.1

end

end ObjectFlow.PointsTo
