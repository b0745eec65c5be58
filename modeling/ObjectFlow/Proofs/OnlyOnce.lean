import ObjectFlow.Proofs.CallStrings
import ObjectFlow.Proofs.ControlFlow
/-!
# Nothing is treated twice

A run treats the body of a method when the method becomes reachable, visits each
statement of a body that it treats, and wires each call edge that it adds. Each of
these stands behind a mark in the call graph: the method is reachable, or the edge is
there. The mark is set before the work is put on the agenda. So what was done and what
is still to be done is never more than the marks account for, whatever is asked, in
whatever order, and however a request ends.
-/

namespace ObjectFlow.PointsTo

/-! ## What is done, event by event -/

inductive Event where
  /-- A body is treated, which puts its statements on the agenda. -/
  | treat (m : CtxMethod)
  | visit (m : CtxMethod) (s : Stmt)
  /-- Arguments and results are joined for a call edge. -/
  | wire (e : CtxEdge)
deriving DecidableEq

/-- Reaching a method treats its body, unless it is reachable. -/
def State.treats (st : State) (m : CtxMethod) : List Event :=
  if st.calls.isReachable m then [] else [.treat m]

/-- Adding a call edge reaches the callee, unless the edge is there. -/
def State.treatsCallee (st : State) (e : CtxEdge) : List Event :=
  if st.calls.hasEdge e then [] else st.treats e.callee

/-- The call edge that a task adds, if it finds a callee. -/
def Task.edge? (p : Program) (s : Selector) : Task → Option CtxEdge
  | .visit m stmt => do
    let site ← stmt.callSite?
    guard site.call.isStatic
    let callee ← (staticCallee p.hierarchy site.call.ref).toOption
    some ⟨.static, ⟨m.context, site⟩, calleeAt s ⟨m.context, site⟩ none callee⟩
  | .call site o => do
    let callee ← (instanceCallee p.hierarchy site.site.call o).toOption
    some ⟨site.site.call.kind, site, calleeAt s site (some o) callee⟩
  | _ => none

/-- The bodies that a task treats. -/
def Task.treats (p : Program) (s : Selector) (st : State) : Task → List Event
  | .enter m => st.treats m
  | k => (k.edge? p s).elim [] st.treatsCallee

/-- The event that a task is itself. -/
def Task.event? : Task → Option Event
  | .visit m stmt => some (.visit m stmt)
  | .wire e => some (.wire e)
  | _ => none

/-- All that a task does in a state, also if it fails. -/
def Task.log (p : Program) (s : Selector) (st : State) (k : Task) : List Event :=
  k.event?.toList ++ k.treats p s st

/-- The events of `settle`. -/
def settleLog (p : Program) (s : Selector) : Nat → List Task → State → List Event
  | _, [], _ => []
  | 0, _ :: _, _ => []
  | fuel + 1, k :: agenda, st => k.log p s st ++
    match exec p s k st with
    | .error _ => []
    | .ok (st, new) => settleLog p s fuel (new ++ agenda) st

/-- The events of `start`. -/
def startLog (fuel : Nat) (p : Program) (setup : Setup) (st : State) : List Event :=
  if st.started then []
  else settleLog p setup.selector fuel (setup.entries.map fun m => .enter ⟨[], m⟩)
    { st with started := true }

/-- The events of `round`. -/
def roundLog (fuel : Nat) (p : Program) (setup : Setup) (q : Pointer) (objs : PointsToSet CtxObject)
    (rest : Pending Pointer CtxObject) (st : State) : List Event :=
  if setup.roundLimit ≠ 0 ∧ setup.roundLimit < st.rounds + 1 then []
  else
    let (st, new) := (st.taken rest).propagate q objs
    settleLog p setup.selector fuel (arrivals q new) st

/-- The events of `step`. -/
def stepLog (fuel : Nat) (p : Program) (setup : Setup) (st : State) : List Event :=
  match st.pending.poll? with
  | none => []
  | some ((q, objs), rest) => roundLog fuel p setup q objs rest st

/-- The events of `rounds`. -/
def roundsLog (fuel : Nat) (p : Program) (setup : Setup) : Nat → State → List Event
  | 0, _ => []
  | n + 1, st => stepLog fuel p setup st ++
    match step fuel p setup st with
    | (.ok true, st) => roundsLog fuel p setup n st
    | _ => []

/-- The events of `analyze`. -/
def analyzeLog (fuel : Nat) (p : Program) (setup : Setup) (st : State) : List Event :=
  if st.started then roundsLog fuel p setup fuel st
  else startLog fuel p setup st ++
    match start fuel p setup st with
    | (.error _, _) => []
    | (.ok _, st) => roundsLog fuel p setup fuel st

/-- The events of a request. -/
def respondLog (fuel : Nat) (p : Program) (setup : Setup) (st : State) : Request → List Event
  | .start => startLog fuel p setup st
  | .step => stepLog fuel p setup st
  | .analyze => analyzeLog fuel p setup st

/-- The events of some requests, each with any fuel and whatever becomes of it, and the state after
them. -/
inductive Logged (p : Program) (setup : Setup) : List Event → State → Prop
  | fresh : Logged p setup [] .empty
  | ask {L : List Event} {st : State} (before : Logged p setup L st) (fuel : Nat) (r : Request) :
    Logged p setup (L ++ respondLog fuel p setup st r) (respond fuel p setup st r).2

/-! ## What the marks account for -/

/-- How often an event may come about by the marks of a call graph: once for each method that is
reachable, each of its statements, and each call edge. -/
def allowed (p : Program) (g : CtxCallGraph) : Event → Nat
  | .treat m => if m ∈ g.reachable then 1 else 0
  | .visit m stmt => if m ∈ g.reachable then (p.stmtsOf m.method).count stmt else 0
  | .wire e => if g.hasEdge e then 1 else 0

/-- The events that an agenda is still to bring. -/
def owed (agenda : List Task) : List Event := agenda.filterMap Task.event?

/-- The marks that came from one state to another account for just these events. -/
def Pays (p : Program) (st st' : State) (E : List Event) : Prop :=
  ∀ x, E.count x + allowed p st.calls x = allowed p st'.calls x

section
variable {p : Program} {s : Selector} {setup : Setup} {st st' : State} {k : Task} {m : CtxMethod}
  {e : CtxEdge} {A new : List Task} {L lost : List Event}

@[simp] theorem owed_append (A B : List Task) : owed (A ++ B) = owed A ++ owed B :=
  List.filterMap_append

theorem owed_cons (k : Task) (A : List Task) : owed (k :: A) = k.event?.toList ++ owed A := by
  cases h : k.event? <;> simp [owed, h]

@[simp] theorem owed_visits (m : CtxMethod) (l : List Stmt) :
    owed (l.map (.visit m)) = l.map (.visit m) := by
  rw [owed, List.filterMap_map]
  exact congrFun List.filterMap_eq_map l

theorem owed_entries (l : List Method) : owed (l.map fun m => .enter ⟨[], m⟩) = [] := by
  simp [owed, Task.event?]

theorem owed_calls (f : CallSite → CtxCallSite) (o : CtxObject) (l : List CallSite) :
    owed (l.map fun site => .call (f site) o) = [] := by
  simp [owed, Task.event?]

theorem owed_arrivals (q : Pointer) (objs : List CtxObject) : owed (arrivals q objs) = [] := by
  cases q <;> simp [owed, arrivals, Task.event?]

theorem hasEdge_addEdge {g : CtxCallGraph} {e e' : CtxEdge} :
    (g.addEdge e).hasEdge e' ↔ g.hasEdge e' ∨ e' = e := by
  have hmem : ∀ g : CtxCallGraph, g.hasEdge e' ↔ e' ∈ g.edgesFrom e'.site :=
    fun g => decide_eq_true_iff
  unfold CallGraph.addEdge
  split
  · rename_i h
    exact ⟨.inl, fun hor => hor.elim id fun heq => heq ▸ h⟩
  · rw [hmem, hmem]
    simp only [CallGraph.edgesFrom, OrderedMap.getD_insert]
    by_cases hs : e'.site = e.site
    · simp [hs]
    · have hne : e' ≠ e := fun h => hs (congrArg CallEdge.site h)
      simp [hs, hne]

theorem count_visits_of_ne {x : Event} (hx : ∀ stmt, x ≠ .visit m stmt) (l : List Stmt) :
    (l.map (.visit m)).count x = 0 := by
  refine List.count_eq_zero.2 fun hin => ?_
  obtain ⟨stmt, -, rfl⟩ := List.mem_map.1 hin
  exact hx stmt rfl

theorem count_visits (l : List Stmt) (stmt : Stmt) :
    (l.map (Event.visit m)).count (.visit m stmt) = l.count stmt :=
  List.count_map_of_injective l _ (fun _ _ h => (Event.visit.inj h).2) stmt

/-! ## One task -/

/-- The marks of one more method account for its body and the visits of its statements. -/
theorem allowed_addReachable {g : CtxCallGraph} (hm : m ∉ g.reachable) (x : Event) :
    (.treat m :: (p.stmtsOf m.method).map (.visit m)).count x + allowed p g x =
      allowed p (g.addReachable m) x := by
  have hedge : ∀ e, (g.addReachable m).hasEdge e = g.hasEdge e := fun _ => rfl
  rw [List.count_cons]
  cases x with
  | treat m' =>
    rw [count_visits_of_ne (by simp)]
    by_cases heq : m' = m
    · simp [allowed, hm, heq]
    · have hne : Event.treat m ≠ .treat m' := fun h => heq (Event.treat.inj h).symm
      simp [allowed, heq, hne]
  | visit m' stmt =>
    by_cases heq : m' = m
    · subst heq
      simp [count_visits, allowed, hm]
    · rw [count_visits_of_ne fun stmt h => heq (Event.visit.inj h).1]
      simp [allowed, heq]
  | wire e =>
    rw [count_visits_of_ne (by simp)]
    simp [allowed, hedge]

/-- Wherever a body is treated, and only there, its statements are put on the agenda. -/
theorem reach_visits (p : Program) (st : State) (m : CtxMethod) :
    (st.reach p m).2 = (st.treats m).flatMap fun _ => (p.stmtsOf m.method).map (.visit m) := by
  unfold State.reach State.treats
  split
  · rfl
  · rw [List.flatMap_singleton]
    rfl

/-- Reaching a method brings what its mark accounts for: its body and the visits of its
statements. -/
theorem reach_pays (p : Program) (st : State) (m : CtxMethod) :
    Pays p st (st.reach p m).1 (st.treats m ++ owed (st.reach p m).2) := by
  intro x
  rw [reach_visits]
  unfold State.treats State.reach
  by_cases hr : m ∈ st.calls.reachable
  · simp [CallGraph.isReachable, hr, owed]
  · simp only [CallGraph.isReachable, hr, decide_false, Bool.false_eq_true, if_false,
      List.flatMap_singleton, owed_visits]
    exact allowed_addReachable hr x

/-- The mark of one more call edge accounts for its wiring. -/
theorem allowed_addEdge {g : CtxCallGraph} (he : ¬ g.hasEdge e) (x : Event) :
    [Event.wire e].count x + allowed p g x = allowed p (g.addEdge e) x := by
  cases x with
  | wire e' =>
    by_cases heq : e' = e
    · simp [allowed, he, hasEdge_addEdge, heq]
    · have hne : Event.wire e ≠ .wire e' := fun h => heq (Event.wire.inj h).symm
      simp [allowed, hasEdge_addEdge, heq, hne]
  | treat m => simp [allowed]
  | visit m stmt => simp [allowed]

/-- Adding a call edge brings what the new edge and its callee account for. -/
theorem addCall_pays (p : Program) (st : State) (e : CtxEdge) :
    Pays p st (st.addCall p e).1 (st.treatsCallee e ++ owed (st.addCall p e).2) := by
  intro x
  unfold State.treatsCallee
  by_cases he : st.calls.hasEdge e
  · simp [he, State.addCall_of_hasEdge he, owed]
  · have hreach := reach_pays p { st with calls := st.calls.addEdge e } e.callee x
    -- the callee is no more reachable for the edge alone
    have hsame : State.treats { st with calls := st.calls.addEdge e } e.callee =
        st.treats e.callee := by
      simp [State.treats, CallGraph.isReachable]
    have hwire := allowed_addEdge (p := p) he x
    rw [State.addCall_of_not_hasEdge he, if_neg he, ← hreach, hsame, owed_append, ← hwire]
    simp only [List.count_append, owed, List.filterMap_cons, Task.event?, List.filterMap_nil]
    omega

theorem edge?_visit {stmt : Stmt} {r : Option Var} {c : Call}
    (hc : stmt.command = .invoke r c) (hst : c.isStatic) :
    (Task.visit m stmt).edge? p s =
      (staticCallee p.hierarchy c.ref).toOption.map fun callee =>
        ⟨.static, ⟨m.context, ⟨stmt.place, r, c⟩⟩,
          calleeAt s ⟨m.context, ⟨stmt.place, r, c⟩⟩ none callee⟩ := by
  simp [Task.edge?, Stmt.callSite?, hc, hst, guard, Option.map_eq_bind]

theorem edge?_visit_eq_none (p : Program) (s : Selector) (m : CtxMethod) {stmt : Stmt}
    (h : ∀ r c, stmt.command = .invoke r c → ¬ c.isStatic) :
    (Task.visit m stmt).edge? p s = none := by
  simp only [Task.edge?, Stmt.callSite?]
  split
  · rename_i r c hc
    simp [h r c hc, guard]
  · rfl

theorem treats_congr {e : CtxEdge} (hc : st'.calls = st.calls) :
    st'.treatsCallee e = st.treatsCallee e := by
  simp only [State.treatsCallee, State.treats, hc]

/-- A task that adds no call edge and brings nothing to visit or wire leaves the marks alone. -/
theorem pays_of_calls (ht : k.treats p s st = []) (hn : owed new = [])
    (hc : st'.calls = st.calls) : Pays p st st' (k.treats p s st ++ owed new) := by
  intro x
  simp [ht, hn, hc]

/-- A task that adds a call edge. -/
theorem pays_of_edge {mid : State} (hk : ∀ m, k ≠ .enter m) (he : k.edge? p s = some e)
    (hc : mid.calls = st.calls) (hst : (mid.addCall p e).1 = st')
    (hnew : (mid.addCall p e).2 = new) : Pays p st st' (k.treats p s st ++ owed new) := by
  have hadd := addCall_pays p mid e
  rw [Pays, hst, hnew, hc, treats_congr hc] at hadd
  have ht : k.treats p s st = st.treatsCallee e := by
    cases k with
    | enter m => exact absurd rfl (hk m)
    | _ => simp [Task.treats, he]
  rwa [ht]

theorem visit_pays {stmt : Stmt} (h : visit p s m stmt st = .ok (st', new)) :
    Pays p st st' ((Task.visit m stmt).treats p s st ++ owed new) := by
  by_cases hcall : ∃ r c, stmt.command = .invoke r c ∧ c.isStatic
  · obtain ⟨r, c, hc, hst⟩ := hcall
    simp only [visit, hc, hst, if_true] at h
    obtain ⟨callee, mid, hcallee, rfl, hst', hnew⟩ := visitStaticCall_eq_ok h
    have hedge := edge?_visit (p := p) (s := s) (m := m) hc hst
    rw [hcallee] at hedge
    refine pays_of_edge (by simp) hedge ?_ hst' hnew
    rfl
  · have hnone : (Task.visit m stmt).treats p s st = [] := by
      have hedge := edge?_visit_eq_none p s m fun r c hc hst => hcall ⟨r, c, hc, hst⟩
      simp [Task.treats, hedge]
    -- apart from static calls, no statement touches the call graph
    suffices hsame : owed new = [] ∧ st'.calls = st.calls from
      pays_of_calls hnone hsame.1 hsame.2
    unfold visit at h
    dsimp only at h
    split at h
    · obtain ⟨rfl, rfl⟩ := Prod.mk.inj (Except.ok.inj h)
      exact ⟨rfl, rfl⟩
    · obtain ⟨rfl, rfl⟩ := Prod.mk.inj (Except.ok.inj h)
      exact ⟨rfl, State.connect_calls⟩
    · obtain ⟨rfl, rfl⟩ := Prod.mk.inj (Except.ok.inj h)
      exact ⟨rfl, State.connect_calls⟩
    · obtain ⟨rfl, rfl⟩ := Prod.mk.inj (Except.ok.inj h)
      exact ⟨rfl, State.connect_calls⟩
    · rename_i r c hc
      rw [if_neg fun hst => hcall ⟨r, c, hc, hst⟩] at h
      obtain ⟨rfl, rfl⟩ := Prod.mk.inj (Except.ok.inj h)
      exact ⟨rfl, rfl⟩
    · cases h
    · obtain ⟨rfl, rfl⟩ := Prod.mk.inj (Except.ok.inj h)
      exact ⟨rfl, rfl⟩

/-- What a task does and puts on the agenda is what its new marks account for. -/
theorem exec_pays (h : exec p s k st = .ok (st', new)) :
    Pays p st st' (k.treats p s st ++ owed new) := by
  cases k with
  | enter m =>
    obtain ⟨rfl, rfl⟩ := Prod.mk.inj (Except.ok.inj h)
    have hreach := reach_pays p { st with
      elements := st.elements.internMethod m
      calls := st.calls.noteEntry m } m
    -- to be noted as an entry is no mark
    have hsame : ∀ x, allowed p (st.calls.noteEntry m) x = allowed p st.calls x := by
      intro x
      cases x <;> rfl
    intro x
    rw [← hsame]
    exact hreach x
  | visit m stmt => exact visit_pays h
  | receive c v o =>
    cases v with
    | none => cases h
    | some v =>
      obtain ⟨rfl, rfl⟩ := Prod.mk.inj (Except.ok.inj h)
      exact pays_of_calls rfl (owed_calls _ _ _) receive_extends.calls
  | call site o =>
    obtain ⟨callee, mid, served, hcallee, rfl, hserved, hst', hnew⟩ := call_eq_ok h
    have hcalls : served.calls = st.calls := by
      rcases hserved with ⟨-, rfl⟩ | ⟨b, -, rfl⟩ <;> rfl
    refine pays_of_edge (by simp) ?_ hcalls hst' hnew
    simp [Task.edge?, hcallee, Except.toOption]
  | wire e =>
    simp only [exec] at h
    cases hw : wire p e st with
    | error err =>
      rw [hw] at h
      cases h
    | ok st₁ =>
      rw [hw] at h
      obtain ⟨rfl, rfl⟩ := Prod.mk.inj (Except.ok.inj h)
      exact pays_of_calls rfl rfl (wire_calls hw)

/-- A task that fails treats no body. -/
theorem treats_of_error {err : AnalysisError} (h : exec p s k st = .error err) :
    k.treats p s st = [] := by
  cases k with
  | enter m => cases h
  | visit m stmt =>
    by_cases hcall : ∃ r c, stmt.command = .invoke r c ∧ c.isStatic
    · obtain ⟨r, c, hc, hst⟩ := hcall
      simp only [exec, visit, hc, hst, if_true, visitStaticCall] at h
      cases hcallee : staticCallee p.hierarchy c.ref with
      | error err' => simp [Task.treats, edge?_visit hc hst, hcallee, Except.toOption]
      | ok callee =>
        rw [hcallee] at h
        cases h
    · have hedge := edge?_visit_eq_none p s m fun r c hc hst => hcall ⟨r, c, hc, hst⟩
      simp [Task.treats, hedge]
  | receive c v o => rfl
  | call site o =>
    simp only [exec, call] at h
    cases hcallee : instanceCallee p.hierarchy site.site.call o with
    | error err' => simp [Task.treats, Task.edge?, hcallee, Except.toOption]
    | ok callee =>
      rw [hcallee] at h
      cases h
  | wire e => rfl

/-! ## Whole runs -/

/-- What was done, what is still on the agenda and what was lost with an agenda is what the marks
account for. A body is treated as soon as its method is marked, so no such event is ever lost. -/
structure Ledger (p : Program) (L : List Event) (A : List Task) (lost : List Event) (st : State) :
    Prop where
  accounts : ∀ x, (L ++ owed A ++ lost).count x = allowed p st.calls x
  kept : ∀ m, lost.count (.treat m) = 0

/-- The accounts after something was asked for, with nothing more lost if it returned. -/
def Balanced {α : Type} (p : Program) (L lost : List Event)
    (r : Except AnalysisError α × State) : Prop :=
  ∃ lost', Ledger p L [] lost' r.2 ∧ ∀ a, r.1 = .ok a → lost' = lost

theorem Ledger.fresh : Ledger p [] [] [] .empty := by
  refine ⟨fun x => ?_, fun m => rfl⟩
  have hno : ∀ m, m ∉ State.empty.calls.reachable := OrderedSet.not_mem_empty
  have hedge : ∀ e, State.empty.calls.hasEdge e = false := fun _ => rfl
  cases x <;> simp [allowed, owed, hno, hedge]

/-- Nothing is on the agenda yet that is to be visited or wired. -/
theorem Ledger.load (h : Ledger p L [] lost st) (hA : owed A = []) (hc : st'.calls = st.calls) :
    Ledger p L A lost st' := by
  refine ⟨fun x => ?_, h.kept⟩
  rw [hA, hc]
  exact h.accounts x

theorem Ledger.balanced {α : Type} {answer : Except AnalysisError α}
    (h : Ledger p L [] lost st) : Balanced p L lost (answer, st) := ⟨lost, h, fun _ _ => rfl⟩

theorem count_owed_treat (A : List Task) (m : CtxMethod) : (owed A).count (.treat m) = 0 := by
  refine List.count_eq_zero.2 fun hin => ?_
  obtain ⟨k, -, hk⟩ := List.mem_filterMap.1 hin
  cases k <;> simp [Task.event?] at hk

/-- A task that succeeds moves from the agenda to what was done. -/
theorem Ledger.exec (h : Ledger p L (k :: A) lost st) (hx : exec p s k st = .ok (st', new)) :
    Ledger p (L ++ k.log p s st) (new ++ A) lost st' := by
  refine ⟨fun x => ?_, h.kept⟩
  have hbefore := h.accounts x
  have hpays := exec_pays hx x
  simp only [owed_cons, owed_append, Task.log, List.count_append] at hbefore hpays ⊢
  omega

/-- A task that fails was tried, and changes nothing. -/
theorem Ledger.fail {err : AnalysisError} (h : Ledger p L (k :: A) lost st)
    (hx : PointsTo.exec p s k st = .error err) : Ledger p (L ++ k.log p s st) A lost st := by
  refine ⟨fun x => ?_, h.kept⟩
  have hbefore := h.accounts x
  rw [Task.log, treats_of_error hx, List.append_nil]
  simp only [owed_cons, List.count_append] at hbefore ⊢
  omega

/-- What is left of an agenda is lost with it. -/
theorem Ledger.drop (h : Ledger p L A lost st) : Ledger p L [] (owed A ++ lost) st := by
  refine ⟨fun x => ?_, fun m => ?_⟩
  · have hbefore := h.accounts x
    simpa [owed] using hbefore
  · rw [List.count_append, count_owed_treat, h.kept]

theorem Ledger.settle (fuel : Nat) (h : Ledger p L A lost st) :
    Balanced p (L ++ settleLog p s fuel A st) lost (settle p s fuel A st) := by
  -- each task spends one unit of fuel, and the ledger is carried from task to task
  induction fuel generalizing L A st with
  | zero =>
    cases A with
    | nil => simpa [settleLog, PointsTo.settle] using h.balanced
    | cons k A =>
      simp only [settleLog, PointsTo.settle, List.append_nil]
      exact ⟨_, h.drop, fun a ha => by cases ha⟩
  | succ fuel ih =>
    cases A with
    | nil => simpa [settleLog, PointsTo.settle] using h.balanced
    | cons k A =>
      simp only [settleLog, PointsTo.settle]
      cases hx : PointsTo.exec p s k st with
      | error err =>
        simp only [List.append_nil]
        exact ⟨_, (h.fail hx).drop, fun a ha => by cases ha⟩
      | ok r =>
        rw [← List.append_assoc]
        exact ih (h.exec hx)

theorem Ledger.start (setup : Setup) (fuel : Nat) (h : Ledger p L [] lost st) :
    Balanced p (L ++ startLog fuel p setup st) lost (start fuel p setup st) := by
  unfold startLog PointsTo.start
  split
  · simpa using h.balanced
  · have hentries : Ledger p L (setup.entries.map fun m => .enter ⟨[], m⟩) lost
        { st with started := true } := h.load (owed_entries setup.entries) rfl
    exact hentries.settle fuel

theorem Ledger.round (setup : Setup) (fuel : Nat) (q : Pointer) (objs : PointsToSet CtxObject)
    (rest : Pending Pointer CtxObject) (h : Ledger p L [] lost st) :
    Balanced p (L ++ roundLog fuel p setup q objs rest st) lost
      (round fuel p setup q objs rest st) := by
  unfold roundLog PointsTo.round
  dsimp only
  split
  · -- one round too many is refused, but counted
    have hcounted : Ledger p L [] lost { st with rounds := st.rounds + 1 } := h.load rfl rfl
    simpa using hcounted.balanced
  · have hcalls := (propagate_spec (st.taken rest) q objs).1
    have harrived := h.load (owed_arrivals q ((st.taken rest).propagate q objs).2) hcalls
    obtain ⟨lost', hafter, hlost⟩ := harrived.settle (s := setup.selector) fuel
    refine ⟨lost', hafter, fun a ha => ?_⟩
    obtain ⟨u, hu, -⟩ := exists_of_map_ok ha
    exact hlost u hu

theorem Ledger.step (setup : Setup) (fuel : Nat) (h : Ledger p L [] lost st) :
    Balanced p (L ++ stepLog fuel p setup st) lost (step fuel p setup st) := by
  unfold stepLog PointsTo.step
  cases st.pending.poll? with
  | none => simpa using h.balanced
  | some r => exact h.round setup fuel r.1.1 r.1.2 r.2

theorem Ledger.rounds (setup : Setup) (fuel n : Nat) (h : Ledger p L [] lost st) :
    Balanced p (L ++ roundsLog fuel p setup n st) lost (rounds fuel p setup n st) := by
  induction n generalizing L st with
  | zero => simpa [roundsLog, PointsTo.rounds] using h.balanced
  | succ n ih =>
    simp only [roundsLog, PointsTo.rounds]
    rcases hs : PointsTo.step fuel p setup st with ⟨answer, st₁⟩
    obtain ⟨lost', hafter, hlost⟩ := h.step setup fuel
    rw [hs] at hafter hlost
    rcases answer with err | more
    · exact ⟨lost', by simpa using hafter, fun a ha => by cases ha⟩
    · -- the rounds go on only after one that returned, which lost nothing
      obtain rfl := hlost more rfl
      cases more with
      | false => simpa using hafter.balanced
      | true =>
        rw [← List.append_assoc]
        exact ih hafter

theorem Ledger.analyze (setup : Setup) (fuel : Nat) (h : Ledger p L [] lost st) :
    Balanced p (L ++ analyzeLog fuel p setup st) lost (analyze fuel p setup st) := by
  unfold analyzeLog PointsTo.analyze
  split
  · exact h.rounds setup fuel fuel
  · rcases hs : PointsTo.start fuel p setup st with ⟨answer, st₁⟩
    obtain ⟨lost', hafter, hlost⟩ := h.start setup fuel
    rw [hs] at hafter hlost
    cases answer with
    | error err => exact ⟨lost', by simpa using hafter, fun a ha => by cases ha⟩
    | ok u =>
      obtain rfl := hlost u rfl
      rw [← List.append_assoc]
      exact hafter.rounds setup fuel fuel

theorem Logged.ledger (h : Logged p setup L st) : ∃ lost, Ledger p L [] lost st := by
  induction h with
  | fresh => exact ⟨[], .fresh⟩
  | @ask L st _ fuel r ih =>
    obtain ⟨lost, hbefore⟩ := ih
    cases r with
    | start =>
      obtain ⟨lost', hafter, -⟩ := hbefore.start setup fuel
      exact ⟨lost', hafter⟩
    | step =>
      obtain ⟨lost', hafter, -⟩ := hbefore.step setup fuel
      exact ⟨lost', hafter⟩
    | analyze =>
      obtain ⟨lost', hafter, -⟩ := hbefore.analyze setup fuel
      exact ⟨lost', hafter⟩

/-- The statements of a body that was built are told apart. -/
theorem nodup_stmtsOf (hp : p.Built) (m : Method) : (p.stmtsOf m).Nodup := by
  unfold Program.stmtsOf
  cases hb : p.body? m with
  | none => exact List.nodup_nil
  | some b => exact (hp.body hb).shaped.nodup

/-- Whatever is asked, the body of each method in a context is treated exactly once if the method is
reachable, and not otherwise. So a statement is visited at most as often as it stands in the body,
which is once if the program was built, and a call edge is wired at most once. -/
theorem nothing_twice (h : Logged p setup L st) :
    (∀ m, L.count (.treat m) = if m ∈ st.calls.reachable then 1 else 0) ∧
    (∀ m stmt, L.count (.visit m stmt) ≤
      if m ∈ st.calls.reachable then (p.stmtsOf m.method).count stmt else 0) ∧
    (p.Built → ∀ m stmt, L.count (.visit m stmt) ≤ 1) ∧
    ∀ e, L.count (.wire e) ≤ if e ∈ st.calls.edges then 1 else 0 := by
  obtain ⟨lost, hledger⟩ := h.ledger
  have haccounts : ∀ x, L.count x + lost.count x = allowed p st.calls x := fun x => by
    simpa [owed] using hledger.accounts x
  have hwithin : ∀ x, L.count x ≤ allowed p st.calls x :=
    fun x => (Nat.le_add_right _ _).trans (haccounts x).le
  have htreated : ∀ m, L.count (.treat m) = allowed p st.calls (.treat m) := fun m => by
    have hm := haccounts (.treat m)
    rwa [hledger.kept] at hm
  have hvisit : ∀ m stmt, L.count (.visit m stmt) ≤
      if m ∈ st.calls.reachable then (p.stmtsOf m.method).count stmt else 0 :=
    fun m stmt => hwithin (.visit m stmt)
  refine ⟨htreated, hvisit, fun hp m stmt => (hvisit m stmt).trans ?_, fun e => ?_⟩
  · split
    · exact List.nodup_iff_count_le_one.1 (nodup_stmtsOf hp m.method) stmt
    · exact Nat.zero_le 1
  · have hle := hwithin (.wire e)
    by_cases he : st.calls.hasEdge e
    · rw [if_pos (CallGraph.mem_edges_of_hasEdge he)]
      simpa [allowed, he] using hle
    · simp only [allowed, he, Bool.false_eq_true, if_false] at hle
      exact hle.trans (Nat.zero_le _)

end

/-! ### A method that calls itself and is named twice as an entry -/

namespace Descent

def repeated : Setup := ⟨[main, main], .insensitive, 0⟩

def repeatedLog : List Event := analyzeLog 20 program repeated .empty

def repeatedFinal : State := (analyze 20 program repeated .empty).2

theorem nothing_twice_descent : program.Built ∧
    analyze 20 program repeated .empty = (.ok (), repeatedFinal) ∧
    repeatedLog.count (.treat ⟨[], main⟩) = 1 ∧
    repeatedLog.count (.visit ⟨[], main⟩ site.stmt) = 1 ∧
    repeatedLog.count (.wire (edge [] [])) = 1 := by
  have hlogged : Logged program repeated repeatedLog repeatedFinal := .ask .fresh 20 .analyze
  obtain ⟨htreat, -, hvisit, hwire⟩ := nothing_twice hlogged
  refine ⟨program_built, rfl, ?_, ?_, ?_⟩
  · rw [htreat, if_pos (by decide)]
  · have hdone : 0 < repeatedLog.count (.visit ⟨[], main⟩ site.stmt) :=
      List.count_pos_iff.2 (by decide)
    have hle := hvisit program_built ⟨[], main⟩ site.stmt
    omega
  · have hdone : 0 < repeatedLog.count (.wire (edge [] [])) := List.count_pos_iff.2 (by decide)
    have hle := hwire (edge [] [])
    rw [if_pos (by decide)] at hle
    omega

end Descent

end ObjectFlow.PointsTo
