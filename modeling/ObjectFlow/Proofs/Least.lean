import ObjectFlow.Proofs.Termination
/-!
# The least solution

An analysis that stops without a fault has found the least set of conclusions
that is closed under the rules. The set is the program's, not the schedule's:
rounds at any waiting pointers lead to it, none of them can fail, and no
schedule goes on for ever.
-/

namespace ObjectFlow.PointsTo

section
variable {p : Program} {setup : Setup} {F : Set Conclusion} {st st' st₀ : State}

/-! ## Where no task can fail -/

/-- Where no task can fail, an agenda is done or wants fuel. -/
theorem settle_of_faultless {A : List Task} (fuel : Nat) (hF : Closed p setup F)
    (hx : Faultless p F) (h : Sound p F st A) :
    (settle p setup.selector fuel A st).1 = .ok () ∨
      (settle p setup.selector fuel A st).1 = .error .outOfFuel := by
  cases hr : settle p setup.selector fuel A st with
  | mk r st' =>
    cases r with
    | ok u => exact .inl rfl
    | error e =>
      have hfails := settle_fails (P := fun A st => Sound p F st A) (fun h hx => h.after hF hx) h hr
      rcases hfails with rfl | ⟨k, B, hB, hk⟩
      · exact .inr rfl
      · exact absurd hx (hk.not_faultless (hB.2 k List.mem_cons_self))

theorem round_of_faultless {q : Pointer} {objs : PointsToSet CtxObject}
    {rest : Pending Pointer CtxObject} (hlim : setup.roundLimit = 0) (hF : Closed p setup F)
    (hx : Faultless p F) (h : Within F st) (hfin : Within (possible p setup) st)
    (ht : st.pending.take? q = some (objs, rest)) :
    ∃ fuel st', round fuel p setup q objs rest st = (.ok true, st') := by
  -- the agenda ends, and what it ends with is neither a fault nor a want of fuel
  obtain ⟨n, ⟨r, st'⟩, hr, hn⟩ := settle_ends (finite_possible p setup) (closed_possible p setup)
    (propagate_sound (closed_possible p setup) hfin ht)
  have hrun := hn n (Nat.le_refl n)
  have hok := settle_of_faultless n hF hx (propagate_sound hF h ht)
  dsimp only at hrun
  rw [hrun] at hok
  obtain rfl : r = .ok () := hok.resolve_right hr
  refine ⟨n, st', ?_⟩
  simp only [State.taken] at hrun
  simp [round, hlim, hrun, Except.map]

/-! ## The solution of a program -/

/-- A state of a run stays below every solution, and once nothing waits it is one. -/
theorem least_of_reaches {fuel : Nat} (hs : start fuel p setup .empty = (.ok (), st₀))
    (hr : Reaches p setup st₀ st) (hp : st.pending.poll? = none) :
    IsLeast {F | Closed p setup F} st.conclusions := by
  refine ⟨((Owed.start hs).reaches hr).closed hp, fun F hF => ?_⟩
  have hw := start_within fuel hF
  rw [hs] at hw
  exact (hr.within hF hw).conclusions_subset

/-- An analysis without a bound on its rounds that returns has found the least set that is closed
under the rules. From its start on, whichever waiting pointers are taken, every round succeeds with
fuel enough, the rounds come to an end, and where nothing waits the same conclusions are found. -/
theorem analyze_least {fuel : Nat} (hlim : setup.roundLimit = 0)
    (h : analyze fuel p setup .empty = (.ok (), st)) :
    IsLeast {F | Closed p setup F} st.conclusions ∧
    ∃ st₀, start fuel p setup .empty = (.ok (), st₀) ∧ ∀ st', Reaches p setup st₀ st' →
      (∀ q objs rest, st'.pending.take? q = some (objs, rest) →
        ∃ fuel st'', round fuel p setup q objs rest st' = (.ok true, st'')) ∧
      Acc (fun st₂ st₁ => NextRound p setup st₁ st₂) st' ∧
      (st'.pending.poll? = none → st'.conclusions = st.conclusions) := by
  obtain ⟨st₀, hs, hr, hp⟩ := analyze_eq_ok h
  have hleast := least_of_reaches hs hr hp
  refine ⟨hleast, st₀, hs, fun st' hr' => ?_⟩
  have within : ∀ {F}, Closed p setup F → Within F st' := fun hF => by
    have hw := start_within fuel hF
    rw [hs] at hw
    exact hr'.within hF hw
  have hfin := within (closed_possible p setup)
  refine ⟨fun q objs rest ht => ?_,
    acc_nextRound (finite_possible p setup) (closed_possible p setup) hfin,
    fun hp' => (least_of_reaches hs hr' hp').unique hleast⟩
  exact round_of_faultless hlim hleast.1 ((Owed.start hs).reaches hr).faultless
    (within hleast.1) hfin ht

end

/-! ## A callee without a body -/

section
variable {p : Program} {setup : Setup} {F : Set Conclusion} {st : State} {m : CtxMethod}

theorem mem_without {c : Conclusion} (h : c ∈ F) (hc : ∀ m, c ≠ .reachable m) :
    c ∈ F \ {.reachable m} :=
  ⟨h, hc m⟩

/-- Only the rule for callees that have no body asks for a reachable method that has none and is
no entry: no other rule reads it or concludes it. -/
theorem Closed.without (h : Closed p setup F) (hb : p.body? m.method = none)
    (hm : ∀ n ∈ setup.entries, m ≠ ⟨[], n⟩) : BodyClosed p setup (F \ {.reachable m}) where
  entry n hn := ⟨h.entry n hn, fun he => hm n hn (Conclusion.reachable.inj he).symm⟩
  alloc hs hc := mem_without (h.alloc (hs.mono Set.sdiff_subset) hc) nofun
  copy hs hc := mem_without (h.copy (hs.mono Set.sdiff_subset) hc) nofun
  staticLoad hs hc := mem_without (h.staticLoad (hs.mono Set.sdiff_subset) hc) nofun
  staticStore hs hc := mem_without (h.staticStore (hs.mono Set.sdiff_subset) hc) nofun
  staticCall hs hc hst hr := mem_without (h.staticCall (hs.mono Set.sdiff_subset) hc hst hr) nofun
  fieldStore ho hs hc := mem_without (h.fieldStore ho.1 hs hc) nofun
  fieldLoad ho hs hc := mem_without (h.fieldLoad ho.1 hs hc) nofun
  elementStore ho hs hc := mem_without (h.elementStore ho.1 hs hc) nofun
  elementLoad ho hs hc := mem_without (h.elementLoad ho.1 hs hc) nofun
  instanceCall ho hs hc hv hr := mem_without (h.instanceCall ho.1 hs hc hv hr) nofun
  receiver ho hs hc hv hr hbody := mem_without (h.receiver ho.1 hs hc hv hr hbody) nofun
  callee {e b} he hbody := by
    refine ⟨h.callee he.1 hbody, fun hem => ?_⟩
    rw [Conclusion.reachable.inj hem, hb] at hbody
    cases hbody
  argument he hbody hl hz := mem_without (h.argument he.1 hbody hl hz) nofun
  result he hbody hl hw hv := mem_without (h.result he.1 hbody hl hw hv) nofun
  flow he ho := mem_without (h.flow he.1 ho.1) nofun

/-- What a finished analysis finds is more than the least set that is closed under the other rules,
if it reaches a method without a body that is no entry. -/
theorem not_least_of_bodiless {fuel : Nat} (h : analyze fuel p setup .empty = (.ok (), st))
    (hr : m ∈ st.calls.reachable) (hb : p.body? m.method = none)
    (hm : ∀ n ∈ setup.entries, m ≠ ⟨[], n⟩) :
    ¬ IsLeast {F | BodyClosed p setup F} st.conclusions := by
  intro hleast
  obtain ⟨st₀, hs, hreach, hp⟩ := analyze_eq_ok h
  have hless := (least_of_reaches hs hreach hp).1.without hb hm
  exact (hleast.2 hless (show .reachable m ∈ st.conclusions from hr)).2 rfl

end

namespace NativeCall

def owner : ClassRef := ⟨0, "A"⟩

def main : Method := ⟨0, owner, ⟨"main", [], .void⟩, true, false, false⟩

def native : Method := ⟨1, owner, ⟨"now", [], .int⟩, true, false, true⟩

def hierarchy : Hierarchy :=
  let h := (Hierarchy.empty.addClass "A" none [] false false).2
  let h := (h.addMethod owner main.signature true false false).2
  (h.addMethod owner native.signature true false true).2

def x : Var := ⟨0, "x", .object owner, main⟩

def y : Var := ⟨1, "y", .object owner, main⟩

def make : Stmt := ⟨⟨0, 1, main⟩, .alloc x (.object owner)⟩

def move : Stmt := ⟨⟨1, 2, main⟩, .copy y x⟩

def site : CallSite := ⟨⟨2, 3, main⟩, none, ⟨.static, native.ref, []⟩⟩

def body : Body := ⟨main, none, [], [x, y], [make, move, site.stmt, ⟨⟨3, 4, main⟩, .ret none⟩]⟩

/-- The main method makes an object, copies it and calls a static method that has no body. -/
def program : Program := ⟨hierarchy, OrderedMap.ofList [(main, body)]⟩

def setup : Setup := ⟨[main], .insensitive, 0⟩

def final : State := (analyze 10 program setup .empty).2

theorem analyze_eq : analyze 10 program setup .empty = (.ok (), final) := rfl

theorem analyze_least_native : setup.roundLimit = 0 ∧
    analyze 10 program setup .empty = (.ok (), final) ∧
    ⟨[], ⟨make.place, .object owner⟩⟩ ∈ final.objectsOf (varIn [] y) ∧
    IsLeast {F | Closed program setup F} final.conclusions :=
  ⟨rfl, analyze_eq, by decide, (analyze_least rfl analyze_eq).1⟩

theorem not_least_bodyClosed : setup.roundLimit = 0 ∧
    analyze 10 program setup .empty = (.ok (), final) ∧
    ¬ IsLeast {F | BodyClosed program setup F} final.conclusions :=
  ⟨rfl, analyze_eq, not_least_of_bodiless (m := ⟨[], native⟩) analyze_eq (by decide) rfl (by decide)⟩

end NativeCall

end ObjectFlow.PointsTo
