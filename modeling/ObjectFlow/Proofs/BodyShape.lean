import ObjectFlow.Proofs.Precision
/-!
# The shape of a body

A body that can be built lists each of its statements once, its jumps lead to
statements of it, and control cannot run off its end. So the graph of a method lists
each node once and lacks no edge for want of a target, its edges stand in the order
of their sources, and a call leads on to exactly one statement.
-/

namespace ObjectFlow

/-! ## Finished drafts -/

theorem Command.fallsThrough_retarget {σ τ ε : Type} {f : τ → Except ε σ} {c : Command τ}
    {c' : Command σ} (h : c.retarget f = .ok c') : c'.fallsThrough = c.fallsThrough := by
  cases c with
  | branch op l r t | goto t =>
    obtain ⟨t', -, rfl⟩ := exists_of_map_ok h
    rfl
  | _ =>
    obtain rfl := Except.ok.inj h
    rfl

theorem Command.target?_retarget {σ τ ε : Type} {f : τ → Except ε σ} {c : Command τ}
    {c' : Command σ} {i : σ} (h : c.retarget f = .ok c') (hi : c'.target? = some i) :
    ∃ l, c.target? = some l ∧ f l = .ok i := by
  cases c with
  | branch op l r t | goto t =>
    obtain ⟨t', ht, rfl⟩ := exists_of_map_ok h
    obtain rfl := Option.some.inj hi
    exact ⟨t, rfl, ht⟩
  | _ =>
    obtain rfl := Except.ok.inj h
    cases hi

namespace Draft

/-- Every label is marked at a command or behind the last one. -/
def MarksWithin (d : Draft) : Prop := ∀ l i, d.marks.get? l = some i → i ≤ d.commands.length

variable {d d' : Draft} {l : String} {i : Nat}

theorem MarksWithin.start {m : Method} {names : Option (List String)}
    (h : Draft.start m names = .ok d) : d.MarksWithin := by
  obtain ⟨params, -, rfl⟩ := start_eq_ok h
  intro l i hi
  cases hi

theorem MarksWithin.append {c : Command String} (hd : d.MarksWithin) (h : d.append c = .ok d') :
    d'.MarksWithin := by
  obtain rfl := append_eq_ok h
  intro l i hi
  exact (hd l i hi).trans (by simp)

theorem MarksWithin.mark {label : String} (hd : d.MarksWithin) (h : d.mark label = .ok d') :
    d'.MarksWithin := by
  obtain rfl := mark_eq_ok h
  intro l i hi
  rw [OrderedMap.get?_insert] at hi
  split at hi
  · obtain rfl := Option.some.inj hi
    exact le_refl _
  · exact hd l i hi

theorem MarksWithin.finish (hd : d.MarksWithin) : d.finish.2.MarksWithin := by
  obtain ⟨cs, finished, hleaves⟩ := finish_leaves d
  rw [hleaves]
  intro l i hi
  exact (hd l i hi).trans (by simp)

theorem Built.marksWithin (hb : d.Built) : d.MarksWithin := by
  induction hb with
  | start hstart => exact .start hstart
  | addVar _ ih => exact ih
  | append _ happ ih => exact ih.append happ
  | mark _ hmark ih => exact ih.mark hmark
  | finish _ ih => exact ih.finish

/-- Once a draft is closed, every label is marked at a command. -/
theorem MarksWithin.lt_close (hd : d.MarksWithin)
    (h : d.closeMarks.closeEnd.marks.get? l = some i) :
    i < d.closeMarks.closeEnd.commands.length := by
  have hmarked : d.marks.get? l = some i := by
    rwa [closeEnd_closeMarks] at h
  have hle := hd l i hmarked
  have hlt : i < d.closeMarks.commands.length := by
    unfold closeMarks
    split
    · simp only [List.length_append, List.length_singleton]
      omega
    · rename_i hnone
      rw [Bool.not_eq_true, List.any_eq_false] at hnone
      have hne := hnone i (OrderedMap.mem_values_iff.2 ⟨l, hmarked⟩)
      rw [decide_eq_true_eq] at hne
      omega
  unfold closeEnd
  split
  · exact hlt.trans (by simp)
  · exact hlt

/-- Control does not run off the end of a closed draft. -/
theorem closeEnd_last (d : Draft) :
    ∃ init c, d.closeEnd.commands = init ++ [c] ∧ c.fallsThrough = false := by
  unfold closeEnd
  split
  · exact ⟨d.commands, .ret none, rfl, rfl⟩
  · rename_i hoff
    unfold runsOff at hoff
    split at hoff
    · exact absurd rfl hoff
    · rename_i c hc
      obtain ⟨init, hinit⟩ := List.getLast?_eq_some_iff.1 hc
      exact ⟨init, c, hinit, by simpa using hoff⟩

/-- The statements of a finished draft are told apart by their positions. -/
theorem place_nodup (m : Method) (cs : List (Command Nat)) : (place m cs).Nodup := by
  refine List.Nodup.of_map (fun s => s.place.index) ?_
  have hindex : (place m cs).map (fun s => s.place.index) = (List.range cs.length).map Int.ofNat := by
    refine List.ext_getElem (by simp [place]) fun i _ _ => ?_
    simp [place]
  rw [hindex]
  exact List.nodup_range.map fun _ _ h => Int.ofNat.inj h

end Draft

namespace Body

variable {b : Body} {s : Stmt}

/-- Statements that stand once each, the last one leaving the body, with jumps to some of them. Those
that were put in front later have numbers of their own. -/
structure Shaped (b : Body) : Prop where
  nodup : b.stmts.Nodup
  last : ∃ init s, b.stmts = init ++ [s] ∧ s.command.fallsThrough = false
  jump : ∀ s ∈ b.stmts, ∀ i, s.command.target? = some i → ∃ t, b.target? i = some t
  foreign : ∀ s ∈ b.stmts, s.place.index < 0 → ∃ name k, s.command = .foreign name k ∧
    k < b.stmts.length

theorem exists_target {i : Nat} (hs : s ∈ b.stmts) (hi : s.place.index = i) :
    ∃ t, b.target? i = some t := by
  refine Option.isSome_iff_exists.1 (List.find?_isSome.2 ⟨s, hs, ?_⟩)
  exact decide_eq_true hi

theorem shaped_of_finish {d d' : Draft} (hd : d.MarksWithin) (hfin : d.finish = (.ok b, d')) :
    b.Shaped := by
  obtain ⟨cs, hcs, rfl⟩ := Draft.finish_eq_ok hfin
  refine ⟨Draft.place_nodup _ cs, ?_, fun s hs j hj => ?_, fun s hs hneg => ?_⟩
  · obtain ⟨init, c, hclosed, hfall⟩ := d.closeMarks.closeEnd_last
    rw [Draft.resolve, hclosed] at hcs
    obtain ⟨init', c', hc', rfl⟩ := mapM_concat_eq_ok hcs
    refine ⟨Draft.place d.method init', ⟨⟨init'.length, init'.length + 1, d.method⟩, c'⟩, ?_,
      (Command.fallsThrough_retarget hc').trans hfall⟩
    simp [Draft.place, List.mapIdx_append]
  · -- the label of the jump is marked at a command, which stands at that position
    obtain ⟨i, hi, rfl⟩ := List.mem_mapIdx.1 hs
    obtain ⟨c, -, hret⟩ := exists_of_mem_mapM hcs (List.getElem_mem hi)
    obtain ⟨l, -, hl⟩ := Command.target?_retarget hret hj
    have hlt : j < cs.length := by
      rw [length_of_mapM hcs]
      apply hd.lt_close (l := l)
      unfold Draft.position at hl
      split at hl
      · rename_i hmark
        rw [hmark, Except.ok.inj hl]
      · cases hl
    exact exists_target (s := ⟨⟨j, j + 1, d.method⟩, cs[j]⟩)
      (List.mem_mapIdx.2 ⟨j, hlt, rfl⟩) rfl
  · obtain ⟨i, hi, rfl⟩ := List.mem_mapIdx.1 hs
    simp only at hneg
    omega

theorem Built.shaped (hb : b.Built) : b.Shaped := by
  induction hb with
  | finish hd hfin => exact shaped_of_finish hd.marksWithin hfin
  | @foreign b name _ ih =>
    obtain ⟨init, s, hinit, hfall⟩ := ih.last
    refine ⟨List.nodup_cons.2 ⟨fun hin => ?_, ih.nodup⟩,
      ⟨_ :: init, s, congrArg (_ :: ·) hinit, hfall⟩, fun t ht i hi => ?_, fun t ht hneg => ?_⟩
    · -- it has a number that none of the others has
      obtain ⟨name', k, hc, hk⟩ := ih.foreign _ hin (show (-1 : Int) < 0 by decide)
      obtain ⟨-, rfl⟩ := Command.foreign.inj hc
      exact absurd hk (Nat.lt_irrefl _)
    · rcases List.mem_cons.1 ht with rfl | ht
      · cases hi
      · obtain ⟨t', ht'⟩ := ih.jump t ht i hi
        have hindex := List.find?_some ht'
        exact exists_target (List.mem_cons_of_mem _ (List.mem_of_find?_eq_some ht'))
          (of_decide_eq_true hindex)
    · rcases List.mem_cons.1 ht with rfl | ht
      · exact ⟨name, _, rfl, Nat.lt_succ_self _⟩
      · obtain ⟨name', k, hc, hk⟩ := ih.foreign t ht hneg
        exact ⟨name', k, hc, hk.trans (Nat.lt_succ_self _)⟩

/-- Behind a statement that falls through there is another. -/
theorem Shaped.exists_head {before after : List Stmt} (h : b.Shaped)
    (hs : b.stmts = before ++ s :: after) (hf : s.command.fallsThrough) :
    ∃ t, after.head? = some t := by
  cases after with
  | cons t after => exact ⟨t, rfl⟩
  | nil =>
    obtain ⟨init, l, hinit, hfall⟩ := h.last
    obtain ⟨-, heq⟩ := List.append_inj' (hs.symm.trans hinit) rfl
    obtain rfl := List.singleton_inj.1 heq
    rw [hf] at hfall
    cases hfall

/-- A statement that falls through is followed by another. -/
theorem Shaped.exists_next (h : b.Shaped) (hs : s ∈ b.stmts) (hf : s.command.fallsThrough) :
    ∃ before t after, b.stmts = before ++ s :: t :: after := by
  obtain ⟨before, rest, hsplit⟩ := List.append_of_mem hs
  obtain ⟨t, ht⟩ := h.exists_head hsplit hf
  obtain ⟨after, rfl⟩ := List.head?_eq_some_iff.1 ht
  exact ⟨before, t, after, hsplit⟩

/-- Wherever control can go from within a body, there is a statement. -/
structure Whole (b : Body) : Prop where
  first : ∃ s, b.stmts.head? = some s
  next : ∀ s ∈ b.stmts, s.command.fallsThrough → ∃ t, [s, t] <:+: b.stmts
  jump : ∀ s ∈ b.stmts, ∀ i, s.command.target? = some i → ∃ t, b.target? i = some t

theorem Shaped.whole (h : b.Shaped) : b.Whole where
  first := by
    obtain ⟨init, s, hinit, -⟩ := h.last
    rw [hinit, List.head?_append]
    cases init with
    | nil => exact ⟨s, rfl⟩
    | cons t init => exact ⟨t, rfl⟩
  next s hs hf := by
    obtain ⟨before, t, after, hsplit⟩ := h.exists_next hs hf
    exact ⟨t, before, after, by simp [hsplit]⟩
  jump := h.jump

end Body

/-! ## Graphs of methods -/

namespace Cfg

variable {p : Program} {m : Method} {b : Body} {s t : Stmt} {before after l : List Stmt}

theorem source_of_mem_edgesOf {next : Option Stmt} {e : Edge} (he : e ∈ edgesOf b s next) :
    e.source = .stmt s := by
  unfold edgesOf at he
  split at he
  · obtain rfl := List.mem_singleton.1 he
    rfl
  · obtain ⟨t, -, rfl⟩ := mem_edgeTo.1 he
    rfl
  · rcases List.mem_append.1 he with he | he
    · obtain ⟨t, -, rfl⟩ := mem_edgeTo.1 he
      rfl
    · obtain ⟨t, -, rfl⟩ := mem_edgeTo.1 he
      rfl
  · obtain ⟨t, -, rfl⟩ := mem_edgeTo.1 he
    rfl

theorem source_of_mem_edgesOfAll {e : Edge} (he : e ∈ edgesOfAll b l) :
    ∃ s ∈ l, e.source = .stmt s := by
  induction l with
  | nil => cases he
  | cons s l ih =>
    rcases List.mem_append.1 he with he | he
    · exact ⟨s, List.mem_cons_self, source_of_mem_edgesOf he⟩
    · obtain ⟨t, ht, hsource⟩ := ih he
      exact ⟨t, List.mem_cons_of_mem _ ht, hsource⟩

/-- A statement that stands once has the edges that its place gives it, and no others. -/
theorem filter_edgesOfAll (hn : (before ++ s :: after).Nodup) :
    (edgesOfAll b (before ++ s :: after)).filter (fun e => decide (e.source = .stmt s)) =
      edgesOf b s after.head? := by
  have none : ∀ {l}, s ∉ l →
      (edgesOfAll b l).filter (fun e => decide (e.source = .stmt s)) = [] := by
    intro l hl
    refine List.filter_eq_nil_iff.2 fun e he => ?_
    obtain ⟨t, ht, hsource⟩ := source_of_mem_edgesOfAll he
    rw [hsource, decide_eq_true_eq]
    exact fun heq => hl (Node.stmt.inj heq ▸ ht)
  induction before with
  | nil =>
    obtain ⟨hs, -⟩ := List.nodup_cons.1 hn
    have hall : (edgesOf b s after.head?).filter (fun e => decide (e.source = .stmt s)) =
        edgesOf b s after.head? :=
      List.filter_eq_self.2 fun e he => decide_eq_true (source_of_mem_edgesOf he)
    rw [List.nil_append, edgesOfAll, List.filter_append, none hs, hall, List.append_nil]
  | cons t before ih =>
    obtain ⟨ht, hn⟩ := List.nodup_cons.1 hn
    have hother : (edgesOf b t (before ++ s :: after).head?).filter
        (fun e => decide (e.source = .stmt s)) = [] := by
      refine List.filter_eq_nil_iff.2 fun e he => ?_
      rw [source_of_mem_edgesOf he, decide_eq_true_eq]
      rintro heq
      exact ht (Node.stmt.inj heq ▸ List.mem_append_right _ List.mem_cons_self)
    rw [List.cons_append, edgesOfAll, List.filter_append, hother, List.nil_append, ih hn]

theorem filter_edgeTo (kind : EdgeKind) (n : Node) (target : Option Stmt) (k : Node) :
    (edgeTo kind n target).filter (fun e => decide (e.source = k)) =
      if n = k then edgeTo kind n target else [] := by
  cases target with
  | none => simp [edgeTo]
  | some t => by_cases h : n = k <;> simp [edgeTo, h]

theorem outEdges_stmt (hn : b.stmts.Nodup) (hs : b.stmts = before ++ s :: after) :
    (ofBody b).outEdges (.stmt s) = edgesOf b s after.head? := by
  have hfilter := filter_edgesOfAll (b := b) (hs ▸ hn)
  rw [← hs] at hfilter
  rw [outEdges, ofBody, List.filter_append, filter_edgeTo, if_neg (by simp), List.nil_append,
    hfilter]

theorem outEdges_entry : (ofBody b).outEdges (.entry b.method) =
    edgeTo .entry (.entry b.method) b.stmts.head? := by
  rw [outEdges, ofBody, List.filter_append, filter_edgeTo, if_pos rfl,
    List.filter_eq_nil_iff.2 fun e he => ?_, List.append_nil]
  obtain ⟨t, -, hsource⟩ := source_of_mem_edgesOfAll he
  simp [hsource]

theorem outEdges_exit (k : Method) : (ofMethod p m).outEdges (.exit k) = [] := by
  refine List.filter_eq_nil_iff.2 fun e he => ?_
  unfold ofMethod at he
  split at he
  · obtain rfl := List.mem_singleton.1 he
    simp
  · rcases List.mem_append.1 he with he | he
    · obtain ⟨t, -, rfl⟩ := mem_edgeTo.1 he
      simp
    · obtain ⟨t, -, hsource⟩ := source_of_mem_edgesOfAll he
      simp [hsource]

theorem nodup_ofBody (hn : b.stmts.Nodup) : (ofBody b).nodes.Nodup := by
  have hstmts : (b.stmts.map Node.stmt).Nodup := hn.map fun _ _ h => Node.stmt.inj h
  simp [ofBody, List.nodup_append, hstmts]

theorem nodes_nodup (hp : p.Built) (m : Method) : (ofMethod p m).nodes.Nodup := by
  cases hb : p.body? m with
  | none =>
    rw [ofMethod_eq_withoutBody hb]
    simp [withoutBody]
  | some b =>
    rw [ofMethod_eq hb]
    exact nodup_ofBody (hp.body hb).shaped.nodup

/-- The edges of a method are those out of its nodes, node by node. -/
theorem flatMap_outEdges (hp : p.Built) (m : Method) :
    (ofMethod p m).nodes.flatMap (ofMethod p m).outEdges = (ofMethod p m).edges := by
  cases hb : p.body? m with
  | none =>
    rw [ofMethod_eq_withoutBody hb]
    simp [withoutBody, outEdges]
  | some b =>
    have hexit := outEdges_exit (p := p) (m := m) b.method
    rw [ofMethod_eq hb] at hexit ⊢
    have hn := (hp.body hb).shaped.nodup
    -- the statements from some place on
    have hstmts : ∀ before l, b.stmts = before ++ l →
        l.flatMap (fun s => (ofBody b).outEdges (.stmt s)) = edgesOfAll b l := by
      intro before l
      induction l generalizing before with
      | nil => exact fun _ => rfl
      | cons s l ih =>
        intro hs
        rw [List.flatMap_cons, outEdges_stmt hn hs, ih (before ++ [s]) (by simp [hs]), edgesOfAll]
    have hnodes : (ofBody b).nodes = .entry b.method :: (b.stmts.map Node.stmt ++ [.exit b.method]) :=
      rfl
    rw [hnodes, List.flatMap_cons, outEdges_entry, List.flatMap_append, List.flatMap_map,
      hstmts [] _ rfl, List.flatMap_singleton, hexit, List.append_nil]
    rfl

theorem source_mem_nodes (hp : p.Built) {e : Edge} (he : e ∈ (ofMethod p m).edges) :
    e.source ∈ (ofMethod p m).nodes := by
  rw [← flatMap_outEdges hp m] at he
  obtain ⟨n, hn, he⟩ := List.mem_flatMap.1 he
  rwa [of_decide_eq_true (List.mem_filter.1 he).2]

/-- A call leads on to the statement behind it. -/
theorem succs_callSite (hp : p.Built) {c : CallSite} (hb : p.body? m = some b)
    (hs : c.stmt ∈ b.stmts) : ∃ t ∈ b.stmts, (ofMethod p m).succs (.stmt c.stmt) = [.stmt t] := by
  have hshape := (hp.body hb).shaped
  obtain ⟨before, t, after, hsplit⟩ := hshape.exists_next hs rfl
  refine ⟨t, by simp [hsplit], ?_⟩
  rw [ofMethod_eq hb, succs, outEdges_stmt hshape.nodup hsplit]
  rfl

end Cfg

end ObjectFlow
