import ObjectFlow.Proofs.BodyShape
/-!
# Writing a body

A body is written in steps: variables are declared, commands appended and labels
marked, in any order. Finishing then succeeds exactly if the label of every jump
was marked, and the body can be read off the steps: it has the appended commands
in order, each jump leads to the position where its label was marked, and what is
put behind them keeps control from running off the end.
-/

namespace ObjectFlow

/-! ## Leading jumps -/

namespace Command

variable {σ τ ε : Type} {f g : τ → Except ε σ} {c : Command τ}

theorem retarget_congr (h : ∀ l, c.target? = some l → f l = g l) : c.retarget f = c.retarget g := by
  cases c with
  | branch op l r t | goto t => simp only [retarget, h t rfl]
  | _ => rfl

/-- A command can be led elsewhere if the target of its jump can. -/
theorem exists_retarget (h : ∀ l, c.target? = some l → ∃ i, f l = .ok i) :
    ∃ c', c.retarget f = .ok c' := by
  cases c with
  | branch op l r t | goto t =>
    obtain ⟨i, hi⟩ := h t rfl
    exact ⟨_, by rw [retarget, hi]; rfl⟩
  | _ => exact ⟨_, rfl⟩

theorem target?_of_retarget {c' : Command σ} {l : τ} (h : c.retarget f = .ok c')
    (hl : c.target? = some l) : ∃ i, f l = .ok i ∧ c'.target? = some i := by
  cases c with
  | branch op l r t | goto t =>
    obtain rfl := Option.some.inj hl
    obtain ⟨i, hi, rfl⟩ := exists_of_map_ok h
    exact ⟨i, hi, rfl⟩
  | _ => cases hl

/-! ### Kinds of uses -/

section Uses
variable {v : Var}

theorem use?_eq_fieldLoad :
    c.use? = some (.fieldLoad, v) ↔ ∃ w f, c = .loadField w (.onObject v f) := by
  unfold use?
  split <;> simp_all

theorem use?_eq_fieldStore :
    c.use? = some (.fieldStore, v) ↔ ∃ f w, c = .storeField (.onObject v f) w := by
  unfold use?
  split <;> simp_all

theorem use?_eq_elementLoad :
    c.use? = some (.elementLoad, v) ↔ ∃ w i, c = .loadElement w v i := by
  unfold use?
  split <;> simp_all

theorem use?_eq_elementStore :
    c.use? = some (.elementStore, v) ↔ ∃ i w, c = .storeElement v i w := by
  unfold use?
  split <;> simp_all

theorem use?_eq_call : c.use? = some (.call, v) ↔ ∃ r i, c = .invoke r i ∧ i.base? = some v := by
  unfold use?
  split <;> simp_all

end Uses

end Command

namespace Draft

/-! ## Finishing -/

section Finishing
variable {d : Draft} {c : Command String} {l : String} {i : Nat}

theorem finish_open (hopen : d.finished = false) :
    d.finish = match (d.commands ++ d.closing).mapM fun c => c.retarget d.position with
      | .error e => (.error e, d.closed)
      | .ok cs => (.ok ⟨d.method, d.receiver, d.params, d.vars, place d.method cs⟩,
          { d.closed with finished := true }) := by
  have hresolve : d.closed.resolve =
      (d.commands ++ d.closing).mapM fun c => c.retarget d.position := rfl
  rewrite [finish, if_neg (by simp [hopen]), closeEnd_closeMarks, ← hresolve]
  rfl

theorem position_eq_ok : d.position l = .ok i ↔ d.marks.get? l = some i := by
  unfold position
  cases d.marks.get? l <;> simp

theorem target?_closing (hc : c ∈ d.closing) : c.target? = none := by
  unfold closing at hc
  split at hc
  · rcases List.mem_pair.1 hc with rfl | rfl <;> rfl
  · split at hc
    · obtain rfl := List.mem_singleton.1 hc
      rfl
    · cases hc

theorem closing_sublist (d : Draft) : d.closing.Sublist [.nop, .ret none] := by
  unfold closing
  split
  · exact List.Sublist.refl _
  · split
    · exact .cons _ (List.Sublist.refl _)
    · exact List.nil_sublist _

/-- A draft that is open can be finished exactly if the label of every jump is marked. -/
theorem exists_finish_iff (hopen : d.finished = false) : (∃ b, d.finish.1 = .ok b) ↔
    ∀ c ∈ d.commands, ∀ l, c.target? = some l → ∃ i, d.marks.get? l = some i := by
  rw [finish_open hopen]
  constructor
  · rintro ⟨b, hb⟩ c hc l hl
    cases hcs : (d.commands ++ d.closing).mapM fun c => c.retarget d.position with
    | error e =>
      rw [hcs] at hb
      cases hb
    | ok cs =>
      obtain ⟨c', -, hc'⟩ := exists_mem_of_mapM hcs (List.mem_append_left _ hc)
      obtain ⟨i, hi, -⟩ := Command.target?_of_retarget hc' hl
      exact ⟨i, position_eq_ok.1 hi⟩
  · intro h
    cases hcs : (d.commands ++ d.closing).mapM fun c => c.retarget d.position with
    | ok cs => exact ⟨_, rfl⟩
    | error e =>
      -- the command that cannot be led is one of the draft's own, and its label is marked
      obtain ⟨c, hc, he⟩ := exists_of_mapM_error hcs
      obtain ⟨c', hc'⟩ : ∃ c', c.retarget d.position = .ok c' := by
        refine Command.exists_retarget fun l hl => ?_
        rcases List.mem_append.1 hc with hc | hc
        · obtain ⟨i, hi⟩ := h c hc l hl
          exact ⟨i, position_eq_ok.2 hi⟩
        · rw [target?_closing hc] at hl
          cases hl
      rw [hc'] at he
      cases he

/-- The finished body and its commands, with jumps led to the positions of their labels. -/
theorem finish_ok {b : Body} (h : d.finish.1 = .ok b) : d.finished = false ∧ ∃ cs,
    (d.commands ++ d.closing).mapM (fun c => c.retarget d.position) = .ok cs ∧
      b = ⟨d.method, d.receiver, d.params, d.vars, place d.method cs⟩ := by
  cases hopen : d.finished with
  | true => simp [finish, hopen] at h
  | false =>
    rw [finish_open hopen] at h
    cases hcs : (d.commands ++ d.closing).mapM fun c => c.retarget d.position with
    | error e =>
      rw [hcs] at h
      cases h
    | ok cs =>
      rw [hcs] at h
      exact ⟨rfl, cs, rfl, (Except.ok.inj h).symm⟩

end Finishing

/-! ## Steps -/

/-- A step of writing a body. -/
inductive Step where
  | addVar (name : String) (type : Ty)
  | append (c : Command String)
  | mark (label : String)
  | finish
deriving DecidableEq

/-- What a step leads to, or the draft as it is if the step is refused. -/
def orKeep (d : Draft) : Except DraftError Draft → Draft
  | .ok d' => d'
  | .error _ => d

/-- The draft after a step. Finishing may leave something even if it is refused. -/
def take (d : Draft) : Step → Draft
  | .addVar name type => (d.addVar name type).2
  | .append c => d.orKeep (d.append c)
  | .mark l => d.orKeep (d.mark l)
  | .finish => d.finish.2

def run (d : Draft) (steps : List Step) : Draft := steps.foldl take d

def Step.command? : Step → Option (Command String)
  | append c => some c
  | _ => none

/-- The commands that steps append. -/
def appended (steps : List Step) : List (Command String) := steps.filterMap Step.command?

/-- The label is marked, for the first time, when so many commands have been appended. -/
def MarkedAt (steps : List Step) (l : String) (i : Nat) : Prop :=
  ∃ before after, steps = before ++ .mark l :: after ∧ .mark l ∉ before ∧
    i = (appended before).length

section Steps
variable {d d' : Draft} {steps : List Step} {s : Step} {l : String} {i : Nat}

theorem run_concat (d : Draft) (steps : List Step) (s : Step) :
    d.run (steps ++ [s]) = (d.run steps).take s := by
  rw [run, List.foldl_append]
  rfl

theorem appended_concat (steps : List Step) (s : Step) :
    appended (steps ++ [s]) = appended steps ++ s.command?.toList := by
  rw [appended, List.filterMap_append]
  cases h : s.command? <;> simp [appended, h]

theorem MarkedAt.concat (h : MarkedAt steps l i) (s : Step) : MarkedAt (steps ++ [s]) l i := by
  obtain ⟨before, after, rfl, hfirst, rfl⟩ := h
  exact ⟨before, after ++ [s], by simp, hfirst, rfl⟩

/-! ### The effect of a step -/

theorem take_append (hopen : d.finished = false) (c : Command String) :
    d.take (.append c) = { d with commands := d.commands ++ [c] } := by
  rw [take, append, if_neg (by simp [hopen])]
  rfl

theorem take_mark_of_marked (h : d.marks.get? l = some i) : d.take (.mark l) = d := by
  rw [take, mark, if_pos (by simp [OrderedMap.contains, h])]
  rfl

theorem take_mark_of_free (h : d.marks.get? l = none) :
    d.take (.mark l) = { d with marks := d.marks.insert l d.commands.length } := by
  rw [take, mark, if_neg (by simp [OrderedMap.contains, h])]
  rfl

theorem MarksWithin.take (hd : d.MarksWithin) (s : Step) : (d.take s).MarksWithin := by
  cases s with
  | addVar name type => exact hd
  | append c =>
    rw [Draft.take]
    cases h : d.append c with
    | ok d' => exact hd.append h
    | error e => exact hd
  | mark l =>
    rw [Draft.take]
    cases h : d.mark l with
    | ok d' => exact hd.mark h
    | error e => exact hd
  | finish => exact hd.finish

theorem MarksWithin.run (hd : d.MarksWithin) (steps : List Step) : (d.run steps).MarksWithin := by
  induction steps generalizing d with
  | nil => exact hd
  | cons s steps ih => exact ih (hd.take s)

/-- What a draft holds after steps none of which finished it. -/
structure Follows (steps : List Step) (d : Draft) : Prop where
  isOpen : d.finished = false
  commands : d.commands = appended steps
  marks : ∀ l i, d.marks.get? l = some i → MarkedAt steps l i
  marked : ∀ l, .mark l ∈ steps → ∃ i, d.marks.get? l = some i
  vars : ∀ (i : Nat) (v : Var), d.vars[i]? = some v → v.index = i

theorem Follows.start {m : Method} {names : Option (List String)}
    (h : Draft.start m names = .ok d) : Follows [] d := by
  unfold Draft.start at h
  dsimp only at h
  split at h
  · cases h
  · obtain rfl := Except.ok.inj h
    refine ⟨rfl, rfl, fun l i hi => (nomatch hi), fun l hl => (nomatch hl), fun i v hv => ?_⟩
    rw [List.getElem?_append] at hv
    split at hv
    · -- the receiver is the first variable
      rename_i hlt
      have hreceiver : receiverOf m = some v := by
        cases hr : receiverOf m with
        | none => simp [hr] at hlt
        | some w =>
          have hi : i = 0 := by simpa [hr] using hlt
          simpa [hr, hi] using hv
      have hi : i = 0 := by simpa [hreceiver] using hlt
      unfold receiverOf at hreceiver
      split at hreceiver
      · cases hreceiver
      · obtain rfl := Option.some.inj hreceiver
        exact hi.symm
    · rw [List.getElem?_mapIdx] at hv
      obtain ⟨p, -, rfl⟩ := Option.map_eq_some_iff.1 hv
      dsimp only
      omega

theorem Follows.take (h : Follows steps d) (hs : s ≠ .finish) :
    Follows (steps ++ [s]) (d.take s) := by
  have hmarks : ∀ l i, d.marks.get? l = some i → MarkedAt (steps ++ [s]) l i :=
    fun l i hi => (h.marks l i hi).concat s
  have hcommands : d.commands ++ s.command?.toList = appended (steps ++ [s]) := by
    rw [appended_concat, h.commands]
  cases s with
  | addVar name type =>
    simp only [Step.command?, Option.toList_none, List.append_nil] at hcommands
    refine ⟨h.isOpen, hcommands, hmarks, fun l hl => h.marked l (by simpa using hl),
      fun i v hv => ?_⟩
    change (d.vars ++ [⟨d.vars.length, name, type, d.method⟩])[i]? = some v at hv
    rcases Nat.lt_trichotomy i d.vars.length with hlt | rfl | hgt
    · rw [List.getElem?_append_left hlt] at hv
      exact h.vars i v hv
    · obtain rfl : _ = v := by simpa using hv
      rfl
    · have hno : i - d.vars.length ≠ 0 := by omega
      simp [List.getElem?_append_right (Nat.le_of_lt hgt), hno] at hv
  | append c =>
    rw [take_append h.isOpen]
    exact ⟨h.isOpen, hcommands, hmarks, fun l hl => h.marked l (by simpa using hl), h.vars⟩
  | mark label =>
    have hsame : d.commands = appended (steps ++ [.mark label]) := by
      simpa [Step.command?] using hcommands
    have hin : ∀ l, .mark l ∈ steps ++ [.mark label] → .mark l ∈ steps ∨ l = label := by
      simp
    cases hlabel : d.marks.get? label with
    | some j =>
      rw [take_mark_of_marked hlabel]
      refine ⟨h.isOpen, hsame, hmarks, fun l hl => ?_, h.vars⟩
      rcases hin l hl with hl | rfl
      · exact h.marked l hl
      · exact ⟨j, hlabel⟩
    | none =>
      rw [take_mark_of_free hlabel]
      refine ⟨h.isOpen, hsame, fun l i hi => ?_, fun l hl => ?_, h.vars⟩
      · rw [OrderedMap.get?_insert] at hi
        split at hi
        · -- it is marked here for the first time
          rename_i heq
          obtain rfl := Option.some.inj hi
          subst heq
          refine ⟨steps, [], rfl, fun hbefore => ?_, by rw [h.commands]⟩
          obtain ⟨i, hi⟩ := h.marked l hbefore
          rw [hlabel] at hi
          cases hi
        · exact hmarks l i hi
      · rw [OrderedMap.get?_insert]
        split
        · exact ⟨_, rfl⟩
        · rename_i hne
          exact h.marked l ((hin l hl).resolve_right hne)
  | finish => exact absurd rfl hs

theorem Follows.run {m : Method} {names : Option (List String)}
    (hstart : Draft.start m names = .ok d) (hopen : .finish ∉ steps) :
    Follows steps (d.run steps) := by
  induction steps using List.reverseRecOn with
  | nil => exact .start hstart
  | append_singleton steps s ih =>
    rw [run_concat]
    rw [List.mem_append, not_or] at hopen
    exact (ih hopen.1).take fun heq => hopen.2 (List.mem_singleton.2 heq.symm)

end Steps

end Draft

/-! ## What is written -/

/-- The list has the statements of a body with a property, in the order of the body, each once. -/
structure Lists (l stmts : List Stmt) (P : Stmt → Prop) : Prop where
  sublist : l.Sublist stmts
  nodup : l.Nodup
  mem : ∀ s, s ∈ l ↔ s ∈ stmts ∧ P s

namespace Body

variable {b : Body} {v : Var}

theorem lists_uses (hn : b.stmts.Nodup) {u : Use × Var} {P : Stmt → Prop}
    (hP : ∀ s, s.command.use? = some u ↔ P s) : Lists (b.uses.getD u []) b.stmts P := by
  rw [getD_uses]
  refine ⟨List.filter_sublist, hn.filter _, fun s => ?_⟩
  rw [List.mem_filter, decide_eq_true_eq, hP]

/-- A jump leads to the statement at its position. -/
theorem target?_eq (hindex : ∀ (i : Nat) (s : Stmt), b.stmts[i]? = some s → s.place.index = i)
    (i : Nat) : b.target? i = b.stmts[i]? := by
  cases hs : b.stmts[i]? with
  | some s =>
    obtain ⟨t, ht⟩ := exists_target (List.mem_of_getElem? hs) (hindex i s hs)
    obtain ⟨j, hj⟩ := List.getElem?_of_mem (List.mem_of_find?_eq_some ht)
    have hij : j = i := by
      have hplace := List.find?_some ht
      exact Int.ofNat.inj ((hindex j t hj).symm.trans (of_decide_eq_true hplace))
    rw [ht, ← hj, hij, hs]
  | none =>
    refine List.find?_eq_none.2 fun t ht => ?_
    obtain ⟨j, hj⟩ := List.getElem?_of_mem ht
    rw [hindex j t hj, decide_eq_true_eq]
    intro hij
    rw [Int.ofNat.inj hij, hs] at hj
    cases hj

theorem map_stmt_calls (b : Body) (v : Var) :
    (b.calls v).map CallSite.stmt = b.uses.getD (.call, v) [] := by
  rw [calls, List.map_filterMap]
  have hstmt : ∀ s ∈ b.uses.getD (.call, v) [], s.callSite?.map CallSite.stmt = some s := by
    intro s hs
    rw [getD_uses] at hs
    have hu := of_decide_eq_true (List.mem_filter.1 hs).2
    obtain ⟨r, c, hc⟩ : ∃ r c, s.command = .invoke r c := by
      unfold Command.use? at hu
      split at hu <;> simp_all
    rw [Stmt.callSite?, hc]
    exact congrArg some (PointsTo.stmt_of_invoke hc)
  rw [List.filterMap_congr hstmt, List.filterMap_some]

/-- A body as steps wrote it. -/
structure WrittenBy (steps : List Draft.Step) (b : Body) : Prop where
  last : ∃ init s, b.stmts = init ++ [s] ∧ s.command.fallsThrough = false
  /-- The commands are the appended ones, with their jumps led to positions, and at most one nop and
  one return behind them. -/
  commands : ∃ (closing : List (Command String)) (position : String → Nat),
    closing.Sublist [.nop, .ret none] ∧
    (Draft.appended steps ++ closing).mapM (fun c => c.retarget fun l => .ok (position l)) =
      (.ok (b.stmts.map Stmt.command) : Except DraftError (List (Command Nat)))
  /-- A jump leads to the statement at the position where its label was marked. -/
  jump : ∀ (i : Nat) c l, (Draft.appended steps)[i]? = some c → c.target? = some l →
    ∃ s j t, b.stmts[i]? = some s ∧ s.command.target? = some j ∧ Draft.MarkedAt steps l j ∧
      b.target? j = some t ∧ b.stmts[j]? = some t
  index : ∀ (i : Nat) (s : Stmt), b.stmts[i]? = some s → s.place.index = i
  lines : b.stmts.Pairwise fun s t => s.place.line < t.place.line
  vars : ∀ (i : Nat) (v : Var), b.vars[i]? = some v → v.index = i
  fieldLoads : ∀ v, Lists (b.fieldLoads v) b.stmts
    fun s => ∃ w f, s.command = .loadField w (.onObject v f)
  fieldStores : ∀ v, Lists (b.fieldStores v) b.stmts
    fun s => ∃ f w, s.command = .storeField (.onObject v f) w
  elementLoads : ∀ v, Lists (b.elementLoads v) b.stmts
    fun s => ∃ w i, s.command = .loadElement w v i
  elementStores : ∀ v, Lists (b.elementStores v) b.stmts
    fun s => ∃ i w, s.command = .storeElement v i w
  calls : ∀ v, Lists ((b.calls v).map CallSite.stmt) b.stmts
    fun s => ∃ r c, s.command = .invoke r c ∧ c.base? = some v

end Body

namespace Draft

theorem map_command_place (m : Method) (cs : List (Command Nat)) :
    (place m cs).map Stmt.command = cs := by
  refine List.ext_getElem (by simp [place]) fun i _ _ => ?_
  simp [place]

theorem getElem?_place {m : Method} {cs : List (Command Nat)} {i : Nat} {s : Stmt}
    (h : (place m cs)[i]? = some s) : s.place = ⟨i, i + 1, m⟩ := by
  rw [place, List.getElem?_mapIdx] at h
  obtain ⟨c, -, rfl⟩ := Option.map_eq_some_iff.1 h
  rfl

theorem lines_place (m : Method) (cs : List (Command Nat)) :
    (place m cs).Pairwise fun s t => s.place.line < t.place.line := by
  rw [List.pairwise_iff_getElem]
  intro i j hi hj hij
  rw [getElem?_place (List.getElem?_eq_getElem hi), getElem?_place (List.getElem?_eq_getElem hj)]
  dsimp only
  omega

section
variable {m : Method} {names : Option (List String)} {d : Draft} {steps : List Step}

theorem writtenBy_of_finish {b : Body} (h : Follows steps d) (hd : d.MarksWithin)
    (hb : d.finish.1 = .ok b) : b.WrittenBy steps := by
  have hshape : b.Shaped := Body.shaped_of_finish hd (Prod.ext hb rfl)
  obtain ⟨-, cs, hcs, rfl⟩ := finish_ok hb
  have hindex : ∀ (i : Nat) (s : Stmt), (place d.method cs)[i]? = some s → s.place.index = i :=
    fun i s hs => by rw [getElem?_place hs]
  refine
    { last := hshape.last
      commands := ⟨d.closing, fun l => (d.marks.get? l).getD 0, closing_sublist d, ?_⟩
      jump := fun i c l hc hl => ?_
      index := hindex
      lines := lines_place _ _
      vars := h.vars
      fieldLoads := fun v => Body.lists_uses hshape.nodup fun s => Command.use?_eq_fieldLoad
      fieldStores := fun v => Body.lists_uses hshape.nodup fun s => Command.use?_eq_fieldStore
      elementLoads := fun v => Body.lists_uses hshape.nodup fun s => Command.use?_eq_elementLoad
      elementStores := fun v => Body.lists_uses hshape.nodup fun s => Command.use?_eq_elementStore
      calls := fun v => ?_ }
  · rw [← h.commands, map_command_place, ← hcs]
    refine mapM_congr fun c hc => Command.retarget_congr fun l hl => ?_
    obtain ⟨c', -, hc'⟩ := exists_mem_of_mapM hcs hc
    obtain ⟨i, hi, -⟩ := Command.target?_of_retarget hc' hl
    dsimp only
    rw [hi, position_eq_ok.1 hi, Option.getD_some]
  · have hown : (d.commands ++ d.closing)[i]? = some c := by
      rw [← h.commands] at hc
      rw [List.getElem?_append_left (List.getElem?_eq_some_iff.1 hc).1, hc]
    obtain ⟨c', hat, hc'⟩ := getElem?_of_mapM hcs hown
    obtain ⟨j, hj, htarget⟩ := Command.target?_of_retarget hc' hl
    have hs : (place d.method cs)[i]? = some ⟨⟨i, i + 1, d.method⟩, c'⟩ := by
      rw [place, List.getElem?_mapIdx, hat]
      rfl
    obtain ⟨t, ht⟩ := hshape.jump _ (List.mem_of_getElem? hs) j htarget
    exact ⟨_, j, t, hs, htarget, h.marks l j (position_eq_ok.1 hj), ht,
      (Body.target?_eq hindex j).symm.trans ht⟩
  · rw [Body.map_stmt_calls]
    exact Body.lists_uses hshape.nodup fun s => Command.use?_eq_call

/-- A body that is written in steps can be finished, at first, exactly if the label of every jump
was marked. It then is as the steps wrote it. -/
theorem finish_writes (hstart : Draft.start m names = .ok d) (hfirst : .finish ∉ steps) :
    ((∃ b, (d.run steps).finish.1 = .ok b) ↔
      ∀ c ∈ appended steps, ∀ l, c.target? = some l → .mark l ∈ steps) ∧
    ∀ b, (d.run steps).finish.1 = .ok b → b.WrittenBy steps := by
  have h := Follows.run hstart hfirst
  refine ⟨?_, fun b => writtenBy_of_finish h ((MarksWithin.start hstart).run steps)⟩
  rw [exists_finish_iff h.isOpen, h.commands]
  constructor
  · intro hmarks c hc l hl
    obtain ⟨i, hi⟩ := hmarks c hc l hl
    obtain ⟨before, after, rfl, -, -⟩ := h.marks l i hi
    simp
  · exact fun hmarks c hc l hl => h.marked l (hmarks c hc l hl)

end

/-! ### A loop over nodes -/

namespace Walk

def node : ClassRef := ⟨0, "Node"⟩

def main : Method := ⟨0, node, ⟨"main", [.object node], .void⟩, true, false, false⟩

def next : Field := ⟨0, node, "next", .object node, false⟩

def n : Var := ⟨0, "n", .object node, main⟩

def k : Var := ⟨1, "k", .int, main⟩

def draft : Draft := ⟨main, none, [n], [n], [], ∅, false⟩

/-- One label is marked in the empty body, the other behind the last command. -/
def steps : List Step :=
  [.addVar "k" .int, .mark "top", .append (.branch .gt (.var k) (.literal 0) "end"),
    .append (.loadField n (.onObject n next)), .append (.goto "top"), .mark "end"]

/-- The loop is closed by a nop, where its branch leads, and a return. -/
theorem finish_writes_walk :
    (Draft.start main (some ["n"]) = .ok draft ∧ Step.finish ∉ steps) ∧
    ∃ b, (draft.run steps).finish.1 = .ok b ∧ b.WrittenBy steps ∧ b.stmts.map Stmt.command =
      [.branch .gt (.var k) (.literal 0) 3, .loadField n (.onObject n next), .goto 0, .nop,
        .ret none] ∧
      (b.fieldLoads n).map (fun s => s.place.index) = [1] := by
  have hstart : Draft.start main (some ["n"]) = .ok draft := rfl
  have hfirst : Step.finish ∉ steps := by decide
  obtain ⟨hends, hwritten⟩ := finish_writes hstart hfirst
  obtain ⟨b, hb⟩ := hends.2 (by decide)
  have hcommands : b.stmts.map Stmt.command = [.branch .gt (.var k) (.literal 0) 3,
      .loadField n (.onObject n next), .goto 0, .nop, .ret none] ∧
      (b.fieldLoads n).map (fun s => s.place.index) = [1] := by
    obtain rfl := Except.ok.inj hb
    exact ⟨rfl, rfl⟩
  exact ⟨⟨hstart, hfirst⟩, b, hb, hwritten b hb, hcommands⟩

end Walk

end Draft

end ObjectFlow
