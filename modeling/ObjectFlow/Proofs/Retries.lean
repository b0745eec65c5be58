import ObjectFlow.Proofs.Writing
/-!
# Finishing again

Finishing a draft may be refused because the label of a jump is not marked. The
draft stays open, to be written on and finished again, but it has been closed and
some of its jumps have been led by then. So the refused attempt shows in what is
finished later, unless there was nothing to close.
-/

namespace ObjectFlow

namespace Draft

variable {d : Draft} {l : String}

/-! ## Closing -/

/-- Control leaves with the last command, and no label is marked behind it. -/
structure Sealed (d : Draft) : Prop where
  leaves : ∃ c, d.commands.getLast? = some c ∧ c.fallsThrough = false
  marks : ∀ l, d.marks.get? l ≠ some d.commands.length

theorem marked_behind_iff : d.marks.values.any (fun i => decide (i = d.commands.length)) = true ↔
    ∃ l, d.marks.get? l = some d.commands.length := by
  simp only [List.any_eq_true, decide_eq_true_eq, exists_eq_right]
  exact OrderedMap.mem_values_iff

theorem closing_of_marked_behind (h : d.marks.get? l = some d.commands.length) :
    d.closing = [.nop, .ret none] := by
  rw [closing, if_pos (marked_behind_iff.2 ⟨l, h⟩)]

theorem runsOff_eq_false_iff :
    d.runsOff = false ↔ ∃ c, d.commands.getLast? = some c ∧ c.fallsThrough = false := by
  unfold runsOff
  cases d.commands.getLast? with
  | none => simp
  | some c => simp

/-- There is nothing to close exactly if the draft is sealed. -/
theorem closing_eq_nil_iff : d.closing = [] ↔ d.Sealed := by
  by_cases hbehind : ∃ l, d.marks.get? l = some d.commands.length
  · obtain ⟨l, hl⟩ := hbehind
    rw [closing_of_marked_behind hl]
    exact ⟨nofun, fun h => absurd hl (h.marks l)⟩
  · have hmarks : ∀ l, d.marks.get? l ≠ some d.commands.length := fun l hl => hbehind ⟨l, hl⟩
    rw [closing, if_neg (mt marked_behind_iff.1 hbehind)]
    constructor
    · intro hnil
      refine ⟨runsOff_eq_false_iff.1 ?_, hmarks⟩
      by_contra hoff
      rw [if_pos (by simpa using hoff)] at hnil
      cases hnil
    · intro h
      rw [runsOff_eq_false_iff.2 h.leaves]
      rfl

/-- Closing appends commands, as steps of writing do. -/
theorem run_appends (hopen : d.finished = false) (cs : List (Command String)) :
    d.run (cs.map .append) = { d with commands := d.commands ++ cs } := by
  induction cs generalizing d with
  | nil => simp [run]
  | cons c cs ih =>
    have hrest := ih (d := { d with commands := d.commands ++ [c] }) hopen
    rw [List.append_assoc] at hrest
    rw [List.map_cons, run, List.foldl_cons, take_append hopen]
    exact hrest

/-! ## Refused attempts -/

section Refused
variable {m : Method}

theorem isOpen_of_refused (h : d.finish.1 = .error (.unmarked l m)) : d.finished = false := by
  cases hopen : d.finished with
  | false => rfl
  | true => simp [finish, hopen] at h

/-- A refused attempt closes the draft. -/
theorem finish_of_refused (h : d.finish.1 = .error (.unmarked l m)) : d.finish.2 = d.closed := by
  have hopen := isOpen_of_refused h
  rw [finish_open hopen] at h ⊢
  cases hcs : (d.commands ++ d.closing).mapM fun c => c.retarget d.position with
  | error e => rfl
  | ok cs =>
    rw [hcs] at h
    cases h

theorem exists_unmarked_of_refused (h : d.finish.1 = .error (.unmarked l m)) :
    ∃ c ∈ d.commands, ∃ l', c.target? = some l' ∧ d.marks.get? l' = none := by
  by_contra hno
  have hmarked : ∀ c ∈ d.commands, ∀ l', c.target? = some l' → ∃ i, d.marks.get? l' = some i :=
    fun c hc l' hl' => Option.ne_none_iff_exists'.1 fun hfree => hno ⟨c, hc, l', hl', hfree⟩
  obtain ⟨b, hb⟩ := (exists_finish_iff (isOpen_of_refused h)).2 hmarked
  rw [h] at hb
  cases hb

end Refused

/-! ## Marking what is missing -/

/-- The labels that the jumps name. -/
def labels (d : Draft) : List String := d.commands.filterMap Command.target?

theorem mem_labels : l ∈ d.labels ↔ ∃ c ∈ d.commands, c.target? = some l := List.mem_filterMap

/-- Marking labels in turn leaves all of them marked, the new ones behind the last command. -/
theorem run_marks (ls : List String) (d : Draft) : ∃ marks : OrderedMap String Nat,
    d.run (ls.map .mark) = { d with marks := marks } ∧
    (∀ l ∈ ls, ∃ i, marks.get? l = some i) ∧
    (∀ l i, d.marks.get? l = some i → marks.get? l = some i) ∧
    ∀ l ∈ ls, d.marks.get? l = none → marks.get? l = some d.commands.length := by
  induction ls generalizing d with
  | nil => exact ⟨d.marks, rfl, nofun, fun _ _ h => h, nofun⟩
  | cons k ls ih =>
    cases hk : d.marks.get? k with
    | some i =>
      obtain ⟨marks, hrun, hall, hkeep, hnew⟩ := ih d
      refine ⟨marks, ?_, fun l hl => ?_, hkeep, fun l hl hfree => ?_⟩
      · rw [List.map_cons, run, List.foldl_cons, take_mark_of_marked hk]
        exact hrun
      · rcases List.mem_cons.1 hl with rfl | hl
        · exact ⟨i, hkeep _ _ hk⟩
        · exact hall l hl
      · rcases List.mem_cons.1 hl with rfl | hl
        · rw [hk] at hfree
          cases hfree
        · exact hnew l hl hfree
    | none =>
      obtain ⟨marks, hrun, hall, hkeep, hnew⟩ :=
        ih { d with marks := d.marks.insert k d.commands.length }
      have hmark : marks.get? k = some d.commands.length :=
        hkeep _ _ (by rw [OrderedMap.get?_insert, if_pos rfl])
      refine ⟨marks, ?_, fun l hl => ?_, fun l i hl => hkeep l i ?_, fun l hl hfree => ?_⟩
      · rw [List.map_cons, run, List.foldl_cons, take_mark_of_free hk]
        exact hrun
      · rcases List.mem_cons.1 hl with rfl | hl
        · exact ⟨_, hmark⟩
        · exact hall l hl
      · have hne : l ≠ k := by
          rintro rfl
          rw [hk] at hl
          cases hl
        rw [OrderedMap.get?_insert, if_neg hne]
        exact hl
      · by_cases hlk : l = k
        · rw [hlk]
          exact hmark
        · refine hnew l ((List.mem_cons.1 hl).resolve_left hlk) ?_
          rw [OrderedMap.get?_insert, if_neg hlk]
          exact hfree

/-- A draft whose missing labels are marked at last is finished with a nop and a return. -/
theorem finish_marked {ls : List String} (hopen : d.finished = false)
    (hlabels : ∀ k ∈ d.labels, k ∈ ls) (hl : l ∈ ls) (hfree : d.marks.get? l = none) :
    ∃ b, (d.run (ls.map .mark)).finish.1 = .ok b ∧ b.stmts.length = d.commands.length + 2 := by
  obtain ⟨marks, hrun, hall, -, hnew⟩ := run_marks ls d
  rw [hrun]
  have hends : ∃ b, (finish { d with marks := marks }).1 = .ok b := by
    refine (exists_finish_iff (d := { d with marks := marks }) hopen).2 ?_
    exact fun c hc k hk => hall k (hlabels k (mem_labels.2 ⟨c, hc, hk⟩))
  obtain ⟨b, hb⟩ := hends
  obtain ⟨-, cs, hcs, rfl⟩ := finish_ok hb
  have hclosing : closing { d with marks := marks } = [.nop, .ret none] :=
    closing_of_marked_behind (hnew l hl hfree)
  refine ⟨_, hb, ?_⟩
  rw [hclosing] at hcs
  simpa [place] using length_of_mapM hcs

/-! ## Leading jumps in place -/

/-- Leads the jumps among commands, from a position on, up to the first whose label is not
marked. -/
def lead (marks : OrderedMap String Nat) (i : Nat) :
    List (Command String) → (Nat → Option Nat) → Nat → Option Nat
  | [], target => target
  | c :: cs, target => match c.target? with
    | none => lead marks (i + 1) cs target
    | some l => match marks.get? l with
      | none => target
      | some j => lead marks (i + 1) cs (Function.update target i (some j))

/-- The commands before the first jump whose label is not marked. -/
def ready (marks : OrderedMap String Nat) (cs : List (Command String)) : List (Command String) :=
  cs.takeWhile fun c => c.target?.all marks.contains

/-- Where the ready command at a position leads. -/
def aim? (marks : OrderedMap String Nat) (cs : List (Command String)) (i : Nat) : Option Nat :=
  (ready marks cs)[i]?.bind fun c => c.target?.bind marks.get?

section Leading
variable {marks : OrderedMap String Nat} {c : Command String} {cs : List (Command String)}
  {target : Nat → Option Nat} {k n i j : Nat}

theorem lead_cons_plain (hc : c.target? = none) :
    lead marks k (c :: cs) target = lead marks (k + 1) cs target := by
  rw [lead, hc]

theorem lead_cons_unmarked (hc : c.target? = some l) (hl : marks.get? l = none) :
    lead marks k (c :: cs) target = target := by
  rw [lead, hc]
  dsimp only
  rw [hl]

theorem lead_cons_marked (hc : c.target? = some l) (hl : marks.get? l = some j) :
    lead marks k (c :: cs) target =
      lead marks (k + 1) cs (Function.update target k (some j)) := by
  rw [lead, hc]
  dsimp only
  rw [hl]

theorem ready_cons (h : ∀ l, c.target? = some l → ∃ j, marks.get? l = some j) :
    ready marks (c :: cs) = c :: ready marks cs := by
  refine List.takeWhile_cons_of_pos ?_
  rw [Option.all_eq_true]
  intro l hl
  obtain ⟨j, hj⟩ := h l hl
  rw [OrderedMap.contains, hj]
  rfl

theorem ready_cons_unmarked (hc : c.target? = some l) (hl : marks.get? l = none) :
    ready marks (c :: cs) = [] := by
  refine List.takeWhile_cons_of_neg ?_
  simp [hc, OrderedMap.contains, hl]

theorem lead_of_lt (h : n < k) : lead marks k cs target n = target n := by
  induction cs generalizing k target with
  | nil => rfl
  | cons c cs ih =>
    cases hc : c.target? with
    | none =>
      rw [lead_cons_plain hc]
      exact ih (Nat.lt_succ_of_lt h)
    | some l =>
      cases hl : marks.get? l with
      | none => rw [lead_cons_unmarked hc hl]
      | some j =>
        rw [lead_cons_marked hc hl, ih (Nat.lt_succ_of_lt h),
          Function.update_of_ne (Nat.ne_of_lt h)]

/-- The ready jumps are led to their labels, and the others are left as they are. -/
theorem lead_apply (target : Nat → Option Nat) (k i : Nat) :
    lead marks k cs target (k + i) = (aim? marks cs i).or (target (k + i)) := by
  induction cs generalizing k i target with
  | nil => rfl
  | cons c cs ih =>
    have hshift : ∀ i, k + 1 + i = k + (i + 1) := fun i => by omega
    cases hc : c.target? with
    | none =>
      rw [lead_cons_plain hc, aim?, ready_cons (by simp [hc])]
      cases i with
      | zero => simp [lead_of_lt (Nat.lt_succ_self k), hc]
      | succ i =>
        have hrest := ih target (k + 1) i
        rw [hshift] at hrest
        exact hrest
    | some l =>
      cases hl : marks.get? l with
      | none =>
        rw [lead_cons_unmarked hc hl, aim?, ready_cons_unmarked hc hl]
        rfl
      | some j =>
        rw [lead_cons_marked hc hl, aim?, ready_cons (by simp [hc, hl])]
        cases i with
        | zero => simp [lead_of_lt (Nat.lt_succ_self k), hc, hl]
        | succ i =>
          have hrest := ih (Function.update target k (some j)) (k + 1) i
          rw [hshift, Function.update_of_ne (by omega)] at hrest
          exact hrest

end Leading

/-- A draft with the targets to which its jumps have been led so far. -/
@[ext]
structure Aimed where
  draft : Draft
  target : Nat → Option Nat

namespace Aimed

variable {a : Aimed} {m : Method}

/-- Finishing leads the jumps in place, those before a label that is not marked even if it is
refused. -/
def finish (a : Aimed) : Except DraftError Body × Aimed :=
  (a.draft.finish.1, ⟨a.draft.finish.2,
    if a.draft.finished then a.target else lead a.draft.marks 0 a.draft.commands a.target⟩)

theorem target_finish (hopen : a.draft.finished = false) (i : Nat) :
    a.finish.2.target i = (aim? a.draft.marks a.draft.commands i).or (a.target i) := by
  have hlead : lead a.draft.marks 0 a.draft.commands a.target (0 + i) = _ :=
    lead_apply a.target 0 i
  rw [Nat.zero_add] at hlead
  rw [finish, if_neg (by simp [hopen])]
  exact hlead

end Aimed

/-! ## What a refused attempt leaves -/

theorem closed_eq_iff : d.closed = d ↔ d.Sealed := by
  rw [← closing_eq_nil_iff]
  constructor
  · intro heq
    exact List.append_right_eq_self.1 (congrArg Draft.commands heq)
  · intro hnil
    rw [closed, hnil, List.append_nil]

theorem labels_closed (d : Draft) : d.closed.labels = d.labels := by
  have hno : d.closing.filterMap Command.target? = [] :=
    List.filterMap_eq_nil_iff.2 fun c hc => target?_closing hc
  rw [labels, closed, List.filterMap_append, labels, hno, List.append_nil]

/-- What is finished once the missing labels are marked tells how much was closed before. -/
theorem sealed_of_finishes_alike {m : Method} (h : d.finish.1 = .error (.unmarked l m))
    (hall : ∀ steps, (d.closed.run steps).finish.1 = (d.run steps).finish.1) : d.Sealed := by
  have hopen := isOpen_of_refused h
  obtain ⟨c, hc, k, hk, hfree⟩ := exists_unmarked_of_refused h
  have hlabel : k ∈ d.labels := mem_labels.2 ⟨c, hc, hk⟩
  have hlabels : ∀ k ∈ d.closed.labels, k ∈ d.labels := fun k hk => labels_closed d ▸ hk
  obtain ⟨b, hb, hlength⟩ := finish_marked hopen (fun _ => id) hlabel hfree
  obtain ⟨b', hb', hlength'⟩ := finish_marked (d := d.closed) hopen hlabels hlabel hfree
  have heq := hall (d.labels.map .mark)
  rw [hb, hb'] at heq
  obtain rfl := Except.ok.inj heq
  have hcount : d.closed.commands.length = d.commands.length + d.closing.length :=
    List.length_append
  have hnone : d.closing.length = 0 := by omega
  exact closing_eq_nil_iff.1 (List.length_eq_zero_iff.1 hnone)

/-- A refused attempt to finish leaves the commands that close the draft, as if they had been
appended, and leads the jumps before the first whose label is not marked. So it leaves everything
as it was exactly if there is nothing to close and those jumps have been led there before; and it
does not show in anything finished later exactly if there is nothing to close. -/
theorem finish_refused {a : Aimed} {m : Method} (h : a.finish.1 = .error (.unmarked l m)) :
    a.finish.2.draft = a.draft.run (a.draft.closing.map .append) ∧
    (∀ i, a.finish.2.target i = (aim? a.draft.marks a.draft.commands i).or (a.target i)) ∧
    (a.finish.2 = a ↔ a.draft.Sealed ∧
      ∀ i j, aim? a.draft.marks a.draft.commands i = some j → a.target i = some j) ∧
    ((∀ steps, (a.finish.2.draft.run steps).finish.1 = (a.draft.run steps).finish.1) ↔
      a.draft.Sealed) := by
  have hrefused : a.draft.finish.1 = .error (.unmarked l m) := h
  have hclosed : a.finish.2.draft = a.draft.closed := finish_of_refused hrefused
  have hopen := isOpen_of_refused hrefused
  have htarget := Aimed.target_finish hopen
  refine ⟨by rw [hclosed, run_appends hopen, closed], htarget, ?_, ?_⟩
  · rw [← closed_eq_iff, ← hclosed]
    constructor
    · intro heq
      refine ⟨congrArg Aimed.draft heq, fun i j hij => ?_⟩
      have hi := htarget i
      rw [heq, hij] at hi
      exact hi
    · rintro ⟨hdraft, haims⟩
      refine Aimed.ext hdraft (funext fun i => ?_)
      rw [htarget]
      cases hij : aim? a.draft.marks a.draft.commands i with
      | none => rfl
      | some j => exact (haims i j hij).symm
  · rw [hclosed]
    refine ⟨sealed_of_finishes_alike hrefused, fun hsealed steps => ?_⟩
    rw [closed_eq_iff.2 hsealed]

/-! ### A label that is marked too late -/

namespace Late

def main : Method := ⟨0, ⟨0, "A"⟩, ⟨"main", [.int], .void⟩, true, false, false⟩

def n : Var := ⟨0, "n", .int, main⟩

def x : Var := ⟨1, "x", .int, main⟩

def begun : Draft := ⟨main, none, [n], [n], [], ∅, false⟩

def branch : Command String := .branch .gt (.var n) (.literal 0) "end"

/-- The branch may go on behind it, where nothing stands yet. -/
def draft : Draft := begun.run [.addVar "x" .int, .append branch]

def aimed : Aimed := ⟨draft, fun _ => none⟩

def rest : List Step := [.append (.literal x 1), .mark "end"]

theorem finish_refused_late :
    aimed.finish.1 = .error (.unmarked "end" main) ∧
      aimed.finish.2.draft = draft.run [.append (.ret none)] ∧
      (∀ i, aimed.finish.2.target i = none) ∧ aimed.finish.2 ≠ aimed ∧
      ¬ ∀ steps, (aimed.finish.2.draft.run steps).finish.1 = (draft.run steps).finish.1 := by
  have hrefused : aimed.finish.1 = .error (.unmarked "end" main) := rfl
  have hnot : ¬ draft.Sealed := by
    rintro ⟨⟨c, hc, hleaves⟩, -⟩
    obtain rfl : branch = c := Option.some.inj hc
    cases hleaves
  obtain ⟨hcloses, hleads, hkeeps, hshows⟩ := finish_refused hrefused
  exact ⟨hrefused, hcloses, hleads, fun heq => hnot (hkeeps.1 heq).1,
    fun hall => hnot (hshows.1 hall)⟩

/-- The refused attempt leaves a return, so that what is appended later is not reached. -/
theorem refused_finish_shows :
    Draft.start main (some ["n"]) = .ok begun ∧
      draft.finish.1 = .error (.unmarked "end" main) ∧
      draft.finish.2.commands = [branch, .ret none] ∧ draft.commands = [branch] ∧
      (∃ b, (draft.finish.2.run rest).finish.1 = .ok b ∧ b.stmts.map Stmt.command =
        [.branch .gt (.var n) (.literal 0) 3, .ret none, .literal x 1, .nop, .ret none]) ∧
      ∃ b, (draft.run rest).finish.1 = .ok b ∧ b.stmts.map Stmt.command =
        [.branch .gt (.var n) (.literal 0) 2, .literal x 1, .nop, .ret none] :=
  ⟨rfl, rfl, rfl, rfl, ⟨_, rfl, rfl⟩, _, rfl, rfl⟩

end Late

end Draft

end ObjectFlow
