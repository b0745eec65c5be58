import ObjectFlow.Proofs.Faults
/-!
# One analysis asked more than once

An analysis can be started, moved on by one round and run to its end, in any
order and more than once. A request that meets a fault drops what was still on
its agenda, and no later request takes it up again; so what a later request
returns is complete exactly if no request before it met a fault.
-/

namespace ObjectFlow

namespace PointsTo

inductive Request where
  | start
  | step
  | analyze

/-- The answer to a request, and the state after it. -/
def respond (fuel : Nat) (p : Program) (setup : Setup) (st : State) :
    Request → Except AnalysisError Unit × State
  | .start => start fuel p setup st
  | .step => ((step fuel p setup st).1.map fun _ => (), (step fuel p setup st).2)
  | .analyze => analyze fuel p setup st

/-- The answers to some requests, each with fuel enough, and the state after them. -/
inductive Session (p : Program) (setup : Setup) : List (Except AnalysisError Unit) → State → Prop
  | fresh : Session p setup [] .empty
  | ask {answers : List (Except AnalysisError Unit)} {st st' : State}
    {answer : Except AnalysisError Unit} (before : Session p setup answers st) (fuel : Nat)
    (r : Request) (h : respond fuel p setup st r = (answer, st'))
    (hfuel : answer ≠ .error .outOfFuel) : Session p setup (answers ++ [answer]) st'

section
variable {p : Program} {setup : Setup} {st st' : State} {answer : Except AnalysisError Unit}
  {answers : List (Except AnalysisError Unit)}

/-- A state from which the analysis can go on. -/
def Ready (p : Program) (setup : Setup) (st : State) : Prop := st = .empty ∨ Running p setup st

/-- No answer is a fault. -/
def Unharmed (answers : List (Except AnalysisError Unit)) : Prop :=
  ∀ e, .error e ∈ answers → ¬ e.Fault

theorem Running.analyze_eq (h : Running p setup st) (fuel : Nat) :
    analyze fuel p setup st = PointsTo.rounds fuel p setup fuel st := by
  rw [analyze, if_pos h.started]

/-- The analysis can go on after an answer that is no fault. Otherwise the program has the fault in
every run. -/
def Answered (p : Program) (setup : Setup) (answer : Except AnalysisError Unit) (st' : State) :
    Prop :=
  (Ready p setup st' ∧ ∀ e, answer = .error e → ¬ e.Fault) ∨
    ∃ e, answer = .error e ∧ Faulty p setup e

theorem Outcome.answered (h : Outcome p setup st' answer) : Answered p setup answer st' := by
  rcases h with ⟨hrun, hno⟩ | hf
  · refine .inl ⟨.inr hrun, fun e he => ?_⟩
    obtain ⟨-, rfl⟩ := hno e he
    exact id
  · exact .inr hf

theorem Running.respond {fuel : Nat} {r : Request} (hst : Running p setup st)
    (h : respond fuel p setup st r = (answer, st')) (hfuel : answer ≠ .error .outOfFuel) :
    Answered p setup answer st' := by
  cases r with
  | start =>
    simp only [PointsTo.respond, start, hst.started, if_true] at h
    obtain ⟨rfl, rfl⟩ := Prod.mk.inj h
    refine .inl ⟨.inr hst, fun e he => ?_⟩
    obtain rfl := Except.error.inj he
    exact id
  | step =>
    obtain ⟨hr, rfl⟩ := Prod.mk.inj h
    have hmap : ∀ e, (PointsTo.step fuel p setup st).1 = .error e ↔ answer = .error e := by
      intro e
      rw [← hr]
      cases (PointsTo.step fuel p setup st).1 <;> simp [Except.map]
    apply Outcome.answered
    rcases hst.step rfl fun he => hfuel ((hmap _).1 he) with ⟨hrun, hno⟩ | ⟨e, he, hf⟩
    · exact .inl ⟨hrun, fun e he => hno e ((hmap e).2 he)⟩
    · exact .inr ⟨e, (hmap e).1 he, hf⟩
  | analyze =>
    simp only [PointsTo.respond, hst.analyze_eq] at h
    exact (hst.rounds h hfuel).answered

theorem Ready.respond {fuel : Nat} {r : Request} (hst : Ready p setup st)
    (h : respond fuel p setup st r = (answer, st')) (hfuel : answer ≠ .error .outOfFuel) :
    Answered p setup answer st' := by
  rcases hst with rfl | hst
  · cases r with
    | start => exact (start_outcome h hfuel).answered
    | step =>
      -- nothing waits before the start
      obtain ⟨rfl, rfl⟩ := Prod.mk.inj h
      exact .inl ⟨.inl rfl, fun e he => by cases he⟩
    | analyze => exact (analyze_outcome h hfuel).answered
  · exact hst.respond h hfuel

/-- A session can go on, or it has met a fault that the program has in every run. -/
theorem Session.cases_fault (h : Session p setup answers st) :
    (Ready p setup st ∧ Unharmed answers) ∨ ∃ e, .error e ∈ answers ∧ Faulty p setup e := by
  induction h with
  | fresh => exact .inl ⟨.inl rfl, fun e he => absurd he List.not_mem_nil⟩
  | ask _ fuel r h hfuel ih =>
    rcases ih with ⟨hst, hno⟩ | ⟨e, he, hf⟩
    · rcases hst.respond h hfuel with ⟨hst', hno'⟩ | ⟨e, rfl, hf⟩
      · refine .inl ⟨hst', fun e he => ?_⟩
        rcases List.mem_append.1 he with he | he
        · exact hno e he
        · exact hno' e (List.mem_singleton.1 he).symm
      · exact .inr ⟨e, List.mem_append_right _ (List.mem_singleton.2 rfl), hf⟩
    · exact .inr ⟨e, List.mem_append_left _ he, hf⟩

/-- An analysis that can go on and returns has done all that the rules ask for. -/
theorem Ready.complete {fuel : Nat} (hst : Ready p setup st)
    (h : analyze fuel p setup st = (.ok (), st')) :
    Closed p setup st'.conclusions ∧ Faultless p st'.conclusions := by
  have done : Owed p setup [] st' ∧ st'.pending.poll? = none := by
    rcases hst with rfl | hst
    · obtain ⟨st₀, hs, hr, hp⟩ := analyze_eq_ok h
      exact ⟨(Owed.start hs).reaches hr, hp⟩
    · rw [hst.analyze_eq] at h
      obtain ⟨hr, hp⟩ := rounds_reaches h
      exact ⟨hst.owed.reaches hr, hp⟩
  exact ⟨done.1.closed done.2, done.1.faultless⟩

/-- What an analysis returns after other requests is closed under the rules, with each call at its
callee and each argument at its parameter, exactly if none of the requests met a fault. -/
theorem complete_iff_unharmed {fuel : Nat} (h : Session p setup answers st)
    (hr : analyze fuel p setup st = (.ok (), st')) :
    (Closed p setup st'.conclusions ∧ Faultless p st'.conclusions) ↔ Unharmed answers := by
  constructor
  · -- a fault is the program's, so a closed set that is faultless rules it out
    rintro ⟨hF, hx⟩
    rcases h.cases_fault with ⟨-, hno⟩ | ⟨e, -, hf⟩
    · exact hno
    · exact absurd hx (hf.not_faultless hF)
  · intro hno
    rcases h.cases_fault with ⟨hst, -⟩ | ⟨e, he, hf⟩
    · exact hst.complete hr
    · exact absurd hf.fault (hno e he)

end

/-! ### A call that nothing answers, in front of an allocation -/

namespace AskedAgain

def owner : ClassRef := ⟨0, "A"⟩

def main : Method := ⟨0, owner, ⟨"main", [], .void⟩, true, false, false⟩

def hierarchy : Hierarchy :=
  ((Hierarchy.empty.addClass "A" none [] false false).2.addMethod owner main.signature
    true false false).2

def x : Var := ⟨0, "x", .object owner, main⟩

def missing : MethodRef := ⟨owner, ⟨"missing", [], .void⟩⟩

def alloc : Stmt := ⟨⟨1, 2, main⟩, .alloc x (.object owner)⟩

def bodyWith (first : Command Nat) : Body where
  method := main
  receiver := none
  params := []
  vars := [x]
  stmts := [⟨⟨0, 1, main⟩, first⟩, alloc, ⟨⟨2, 3, main⟩, .ret none⟩]

def programWith (first : Command Nat) : Program :=
  ⟨hierarchy, OrderedMap.ofList [(main, bodyWith first)]⟩

def setup : Setup := ⟨[main], .insensitive, 0⟩

/-- The main method makes an object after a statement that does nothing. -/
def calm : Program := programWith .nop

def started : State := (start 5 calm setup .empty).2

def final : State := (analyze 5 calm setup started).2

/-- A second start is refused and does no harm. -/
theorem complete_iff_unharmed_restart :
    Session calm setup [.ok (), .error .startedTwice] started ∧
    analyze 5 calm setup started = (.ok (), final) ∧
    Unharmed [.ok (), .error .startedTwice] ∧
    Closed calm setup final.conclusions ∧ Faultless calm final.conclusions := by
  have hfirst : Session calm setup ([] ++ [.ok ()]) started := .ask .fresh 5 .start rfl (by simp)
  have hsession : Session calm setup ([.ok ()] ++ [.error .startedTwice]) started :=
    .ask hfirst 5 .start rfl (by simp)
  have hanalyze : analyze 5 calm setup started = (.ok (), final) := rfl
  have hno : Unharmed [.ok (), .error .startedTwice] := by
    intro e he
    rcases List.mem_cons.1 he with he | he
    · cases he
    · obtain rfl := Except.error.inj (List.mem_singleton.1 he)
      exact id
  exact ⟨hsession, hanalyze, hno, (complete_iff_unharmed hsession hanalyze).2 hno⟩

/-- The main method makes an object after a call that nothing answers. -/
def harmed : Program := programWith (.invoke none ⟨.static, missing, []⟩)

def failed : State := (start 5 harmed setup .empty).2

def resumed : State := (analyze 5 harmed setup failed).2

/-- The start fails at the call. An analysis asked afterwards returns without the object. -/
theorem not_complete_after_fault :
    Session harmed setup [.error (.unresolved missing none)] failed ∧
    analyze 5 harmed setup failed = (.ok (), resumed) ∧
    ¬ Closed harmed setup resumed.conclusions := by
  have hsession : Session harmed setup ([] ++ [.error (.unresolved missing none)]) failed :=
    .ask .fresh 5 .start rfl (by simp)
  refine ⟨hsession, rfl, fun hF => ?_⟩
  have hexec : Executes harmed resumed.conclusions ⟨[], main⟩ alloc :=
    ⟨show (⟨[], main⟩ : CtxMethod) ∈ resumed.calls.reachable by decide, _, rfl, by decide⟩
  have hin : (⟨[], ⟨alloc.place, .object owner⟩⟩ : CtxObject) ∈ resumed.objectsOf (varIn [] x) :=
    hF.alloc hexec rfl
  revert hin
  decide

end AskedAgain

end PointsTo

end ObjectFlow
