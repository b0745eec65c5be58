import ObjectFlow.Proofs.Writing
/-!
# Graphs step as the program counter does

The graph of a method is built node by node and edge by edge, in two tables that
list the edges out of each node and into it. Nothing is missing for the body of a
finished draft, so the graph is built, its tables mirror each other, and from each
node it leads where the program counter can go next.
-/

namespace ObjectFlow

/-! ## The program counter -/

/-- Where control stands in a method: where it enters, at a statement, or where it leaves. -/
inductive Counter where
  | enter
  | stmt (position : Nat)
  | leave

namespace Counter

/-- A method without a body is left as soon as it is entered. -/
def nextWithoutBody : Counter → List Counter
  | enter => [leave]
  | _ => []

/-- The node of a method without a body where control stands. -/
def nodeWithoutBody? (m : Method) : Counter → Option Node
  | enter => some (.entry m)
  | stmt _ => none
  | leave => some (.exit m)

end Counter

namespace Body

/-- Where control can go next within a body. -/
def next (b : Body) : Counter → List Counter
  | .enter => [.stmt 0]
  | .stmt i => match (b.stmts[i]?).map Stmt.command with
    | none => []
    | some (.ret _) => [.leave]
    | some (.goto j) => [.stmt j]
    | some (.branch _ _ _ j) => [.stmt j, .stmt (i + 1)]
    | some _ => [.stmt (i + 1)]
  | .leave => []

/-- The node where control stands. -/
def node? (b : Body) : Counter → Option Node
  | .enter => some (.entry b.method)
  | .stmt i => (b.stmts[i]?).map .stmt
  | .leave => some (.exit b.method)

end Body

namespace Program

variable (p : Program) (m : Method)

def stmtsOf : List Stmt := ((p.body? m).map Body.stmts).getD []

/-- Where control can go next within a method. -/
def next (c : Counter) : List Counter :=
  match p.body? m with
  | some b => b.next c
  | none => c.nextWithoutBody

def node? (c : Counter) : Option Node :=
  match p.body? m with
  | some b => b.node? c
  | none => c.nodeWithoutBody? m

end Program

namespace Cfg

/-! ## Building a graph in tables -/

/-- What is missing when a graph cannot be built. -/
inductive Gap where
  | stmt (position : Nat)
  | node (n : Node)

/-- The nodes of a graph with the edges into and out of each. -/
structure Tables where
  nodes : List Node
  inEdges : OrderedMap Node (List Edge)
  outEdges : OrderedMap Node (List Edge)

namespace Tables

def empty : Tables := ⟨[], ∅, ∅⟩

def addNode (t : Tables) (n : Node) : Tables :=
  ⟨t.nodes ++ [n], t.inEdges.insert n [], t.outEdges.insert n []⟩

def ofNodes (ns : List Node) : Tables := ns.foldl addNode .empty

/-- Adds an edge between two nodes of the graph, to one list of each. -/
def addEdge (t : Tables) (e : Edge) : Except Gap Tables :=
  match t.outEdges.get? e.source, t.inEdges.get? e.target with
  | some out, some into => .ok { t with
      outEdges := t.outEdges.insert e.source (out ++ [e])
      inEdges := t.inEdges.insert e.target (into ++ [e]) }
  | none, _ => .error (.node e.source)
  | some _, none => .error (.node e.target)

/-- An edge to a statement that must be there. -/
def edgeTo (kind : EdgeKind) (source : Node) (position : Nat) (target : Option Stmt) :
    Except Gap Edge :=
  match target with
  | some s => .ok ⟨kind, source, .stmt s⟩
  | none => .error (.stmt position)

/-- The edges out of the statement at a position. -/
def edgesAt (b : Body) (i : Nat) (s : Stmt) : Except Gap (List Edge) :=
  let next (kind : EdgeKind) := edgeTo kind (.stmt s) (i + 1) b.stmts[i + 1]?
  match s.command with
  | .ret _ => .ok [⟨.ret, .stmt s, .exit b.method⟩]
  | .goto j => do
    let e ← edgeTo .goto (.stmt s) j (b.target? j)
    pure [e]
  | .branch _ _ _ j => do
    let e ← edgeTo .ifTrue (.stmt s) j (b.target? j)
    let f ← next .ifFalse
    pure [e, f]
  | _ => do
    let e ← next .fallThrough
    pure [e]

/-- The edges out of the statements from a position on. -/
def edgesFrom (b : Body) (i : Nat) : List Stmt → Except Gap (List Edge)
  | [] => .ok []
  | s :: rest => do
    let es ← edgesAt b i s
    let more ← edgesFrom b (i + 1) rest
    pure (es ++ more)

/-- The edges of a body: to its first statement, and out of each statement. -/
def edgesOf (b : Body) : Except Gap (List Edge) := do
  let first ← edgeTo .entry (.entry b.method) 0 b.stmts[0]?
  let rest ← edgesFrom b 0 b.stmts
  pure (first :: rest)

/-- The graph of a method, unless something is missing for it. -/
def ofMethod (p : Program) (m : Method) : Except Gap Tables :=
  match p.body? m with
  | none => (ofNodes [.entry m, .exit m]).addEdge ⟨.entry, .entry m, .exit m⟩
  | some b => do
    let edges ← edgesOf b
    edges.foldlM addEdge (ofNodes (.entry b.method :: (b.stmts.map .stmt ++ [.exit b.method])))

/-- The tables list the edges of a graph by their ends. -/
structure Represents (t : Tables) (g : Cfg) : Prop where
  nodes : t.nodes = g.nodes
  outEdges : ∀ n, t.outEdges.get? n = if n ∈ g.nodes then some (g.outEdges n) else none
  inEdges : ∀ n, t.inEdges.get? n = if n ∈ g.nodes then some (g.inEdges n) else none

variable {t : Tables} {g : Cfg} {b : Body}

theorem represents_ofNodes (m : Method) (ns : List Node) : (ofNodes ns).Represents ⟨m, ns, []⟩ := by
  induction ns using List.reverseRecOn with
  | nil => exact ⟨rfl, fun n => rfl, fun n => rfl⟩
  | append_singleton ns k ih =>
    have hadd : ofNodes (ns ++ [k]) = (ofNodes ns).addNode k := by
      rw [ofNodes, List.foldl_append]
      rfl
    rw [hadd]
    refine ⟨congrArg (· ++ [k]) ih.nodes, fun n => ?_, fun n => ?_⟩
    · rw [addNode, OrderedMap.get?_insert, ih.outEdges]
      by_cases hn : n = k <;> simp [hn, Cfg.outEdges]
    · rw [addNode, OrderedMap.get?_insert, ih.inEdges]
      by_cases hn : n = k <;> simp [hn, Cfg.inEdges]

/-- An edge between nodes can be added, and the tables stay in step with the list of edges. -/
theorem Represents.addEdge {e : Edge} (h : t.Represents g) (hs : e.source ∈ g.nodes)
    (ht : e.target ∈ g.nodes) :
    ∃ t', t.addEdge e = .ok t' ∧ t'.Represents { g with edges := g.edges ++ [e] } := by
  have hout := h.outEdges e.source
  have hin := h.inEdges e.target
  rw [if_pos hs] at hout
  rw [if_pos ht] at hin
  have hadd : t.addEdge e = .ok { t with
      outEdges := t.outEdges.insert e.source (g.outEdges e.source ++ [e])
      inEdges := t.inEdges.insert e.target (g.inEdges e.target ++ [e]) } := by
    rw [Tables.addEdge, hout, hin]
  refine ⟨_, hadd, h.nodes, fun n => ?_, fun n => ?_⟩
  · rw [OrderedMap.get?_insert, h.outEdges]
    by_cases hn : n = e.source
    · subst hn
      simp [hs, Cfg.outEdges]
    · simp [hn, Ne.symm hn, Cfg.outEdges]
  · rw [OrderedMap.get?_insert, h.inEdges]
    by_cases hn : n = e.target
    · subst hn
      simp [ht, Cfg.inEdges]
    · simp [hn, Ne.symm hn, Cfg.inEdges]

theorem Represents.addEdges {es : List Edge} (h : t.Represents g)
    (hends : ∀ e ∈ es, e.source ∈ g.nodes ∧ e.target ∈ g.nodes) :
    ∃ t', es.foldlM Tables.addEdge t = .ok t' ∧
      t'.Represents { g with edges := g.edges ++ es } := by
  induction es generalizing t g with
  | nil => exact ⟨t, rfl, by simpa using h⟩
  | cons e es ih =>
    obtain ⟨hs, ht⟩ := hends e List.mem_cons_self
    obtain ⟨mid, hmid, hrep⟩ := h.addEdge hs ht
    obtain ⟨t', ht', hrep'⟩ := ih hrep fun e' he' => hends e' (List.mem_cons_of_mem _ he')
    refine ⟨t', ?_, by simpa using hrep'⟩
    rw [List.foldlM_cons, hmid]
    exact ht'

/-- Each edge is listed under its source as often as under its target. -/
structure Mirrored (t : Tables) : Prop where
  out : ∀ n out e, t.outEdges.get? n = some out → e ∈ out →
    e.source = n ∧ ∃ into, t.inEdges.get? e.target = some into ∧ into.count e = out.count e
  into : ∀ n into e, t.inEdges.get? n = some into → e ∈ into →
    e.target = n ∧ ∃ out, t.outEdges.get? e.source = some out ∧ out.count e = into.count e

theorem Represents.mirrored (h : t.Represents g)
    (hends : ∀ e ∈ g.edges, e.source ∈ g.nodes ∧ e.target ∈ g.nodes) : t.Mirrored := by
  have hout : ∀ e ∈ g.edges, t.outEdges.get? e.source = some (g.outEdges e.source) ∧
      (g.outEdges e.source).count e = g.edges.count e := fun e he =>
    ⟨by rw [h.outEdges, if_pos (hends e he).1], List.count_filter (decide_eq_true rfl)⟩
  have hin : ∀ e ∈ g.edges, t.inEdges.get? e.target = some (g.inEdges e.target) ∧
      (g.inEdges e.target).count e = g.edges.count e := fun e he =>
    ⟨by rw [h.inEdges, if_pos (hends e he).2], List.count_filter (decide_eq_true rfl)⟩
  constructor
  · intro n out e hn he
    have hlist := h.outEdges n
    rw [hn] at hlist
    split at hlist
    · obtain rfl := Option.some.inj hlist
      obtain ⟨hmem, hsource⟩ := List.mem_filter.1 he
      obtain rfl := of_decide_eq_true hsource
      exact ⟨rfl, _, (hin e hmem).1, (hin e hmem).2.trans (hout e hmem).2.symm⟩
    · cases hlist
  · intro n into e hn he
    have hlist := h.inEdges n
    rw [hn] at hlist
    split at hlist
    · obtain rfl := Option.some.inj hlist
      obtain ⟨hmem, htarget⟩ := List.mem_filter.1 he
      obtain rfl := of_decide_eq_true htarget
      exact ⟨rfl, _, (hout e hmem).1, (hout e hmem).2.trans (hin e hmem).2.symm⟩
    · cases hlist

end Tables

end Cfg

/-! ## Bodies of finished drafts -/

namespace Draft

theorem take_method (d : Draft) (s : Step) : (d.take s).method = d.method := by
  cases s with
  | addVar name type => rfl
  | append c =>
    rw [take]
    cases h : d.append c with
    | ok d' =>
      obtain rfl := append_eq_ok h
      rfl
    | error e => rfl
  | mark l =>
    rw [take]
    cases h : d.mark l with
    | ok d' =>
      obtain rfl := mark_eq_ok h
      rfl
    | error e => rfl
  | finish =>
    obtain ⟨cs, finished, hleaves⟩ := finish_leaves d
    rw [take, hleaves]

theorem run_method (d : Draft) (steps : List Step) : (d.run steps).method = d.method := by
  induction steps generalizing d with
  | nil => rfl
  | cons s steps ih => exact (ih (d.take s)).trans (take_method d s)

end Draft

namespace Body

variable {m : Method} {b : Body}

/-- The body of a draft for a method that was finished, at once or after attempts that failed. -/
def Finished (m : Method) (b : Body) : Prop := ∃ names d steps, Draft.start m names = .ok d ∧
  (d.run steps).finish.1 = .ok b

theorem Finished.shaped (h : b.Finished m) : b.Shaped := by
  obtain ⟨names, d, steps, hstart, hfin⟩ := h
  exact shaped_of_finish ((Draft.MarksWithin.start hstart).run steps) (Prod.ext hfin rfl)

theorem Finished.index (h : b.Finished m) (i : Nat) (s : Stmt) (hs : b.stmts[i]? = some s) :
    s.place.index = i := by
  obtain ⟨names, d, steps, -, hfin⟩ := h
  obtain ⟨-, cs, -, rfl⟩ := Draft.finish_ok hfin
  rw [Draft.getElem?_place hs]

theorem Finished.method (h : b.Finished m) : b.method = m := by
  obtain ⟨names, d, steps, hstart, hfin⟩ := h
  obtain ⟨-, cs, -, rfl⟩ := Draft.finish_ok hfin
  obtain ⟨params, -, rfl⟩ := Draft.start_eq_ok hstart
  exact Draft.run_method _ steps

end Body

namespace Cfg

variable {p : Program} {m : Method} {b : Body} {s : Stmt} {before after : List Stmt}

theorem getElem?_next (hs : b.stmts = before ++ s :: after) :
    b.stmts[before.length + 1]? = after.head? := by
  rw [hs, List.getElem?_append_right (Nat.le_add_right _ _), Nat.add_sub_cancel_left,
    List.getElem?_cons_succ, List.head?_eq_getElem?]

/-- Nothing is missing for the edges out of a statement. -/
theorem edgesAt_eq (h : b.Shaped) (hs : b.stmts = before ++ s :: after) :
    Tables.edgesAt b before.length s = .ok (edgesOf b s after.head?) := by
  have hjump := h.jump s (by simp [hs])
  have hnext := h.exists_head hs
  rw [Tables.edgesAt, getElem?_next hs, edgesOf]
  cases hc : s.command with
  | ret v => rfl
  | goto j =>
    obtain ⟨t, ht⟩ := hjump j (by simp [hc, Command.target?])
    simp only [ht]
    rfl
  | branch op l r j =>
    obtain ⟨t, ht⟩ := hjump j (by simp [hc, Command.target?])
    obtain ⟨u, hu⟩ := hnext (by simp [hc, Command.fallsThrough])
    simp only [ht, hu]
    rfl
  | _ =>
    obtain ⟨u, hu⟩ := hnext (by simp [hc, Command.fallsThrough])
    simp only [hu]
    rfl

theorem edgesFrom_eq (h : b.Shaped) (hs : b.stmts = before ++ after) :
    Tables.edgesFrom b before.length after = .ok (edgesOfAll b after) := by
  induction after generalizing before with
  | nil => rfl
  | cons s after ih =>
    have hrest : Tables.edgesFrom b (before ++ [s]).length after = .ok (edgesOfAll b after) :=
      ih (by simp [hs])
    rw [List.length_append, List.length_singleton] at hrest
    rw [Tables.edgesFrom, edgesAt_eq h hs, hrest]
    rfl

theorem edgesOf_eq (h : b.Shaped) : Tables.edgesOf b = .ok (ofBody b).edges := by
  obtain ⟨s, hs⟩ := h.whole.first
  have hfirst : b.stmts[0]? = some s := by rw [← List.head?_eq_getElem?, hs]
  have hrest : Tables.edgesFrom b ([] : List Stmt).length b.stmts = .ok (edgesOfAll b b.stmts) :=
    edgesFrom_eq h rfl
  rw [List.length_nil] at hrest
  rw [Tables.edgesOf, hfirst, hrest, ofBody, hs]
  rfl

theorem ends_mem_nodes {e : Edge} (he : e ∈ (ofBody b).edges) :
    e.source ∈ (ofBody b).nodes ∧ e.target ∈ (ofBody b).nodes := by
  rcases List.mem_append.1 he with he | he
  · obtain ⟨s, hs, rfl⟩ := mem_edgeTo.1 he
    exact ⟨entry_mem_nodes, stmt_mem_nodes (List.mem_of_head? hs)⟩
  · obtain ⟨s, hs, hsource⟩ := source_of_mem_edgesOfAll he
    rw [hsource]
    refine ⟨stmt_mem_nodes hs, ?_⟩
    rcases target_of_mem_edgesOfAll (fun _ => id) he with hexit | ⟨s, hs, hstmt⟩
    · rw [hexit]
      exact exit_mem_nodes
    · rw [hstmt]
      exact stmt_mem_nodes hs

/-- Nothing is missing for the graph of a body, and its tables list the edges. -/
theorem exists_tables (h : b.Shaped) : ∃ t, (Tables.edgesOf b >>= fun edges =>
      edges.foldlM Tables.addEdge (Tables.ofNodes (ofBody b).nodes)) = .ok t ∧
    t.Represents (ofBody b) ∧ t.Mirrored := by
  obtain ⟨t, ht, hrep⟩ := (Tables.represents_ofNodes b.method (ofBody b).nodes).addEdges
    fun e he => ends_mem_nodes he
  rw [edgesOf_eq h]
  exact ⟨t, ht, hrep, hrep.mirrored fun e he => ends_mem_nodes he⟩

/-- From a statement the graph leads where the counter goes. -/
theorem succs_stmt (h : b.Finished m) {i : Nat} (hs : b.stmts[i]? = some s) :
    ((ofBody b).succs (.stmt s)).map some = (b.next (.stmt i)).map b.node? := by
  obtain ⟨hlt, hget⟩ := List.getElem?_eq_some_iff.1 hs
  have hsplit : b.stmts = b.stmts.take i ++ s :: b.stmts.drop (i + 1) := by
    rw [← hget, List.getElem_cons_drop, List.take_append_drop]
  have hjump := h.shaped.jump s (List.mem_of_getElem? hs)
  have hnext := h.shaped.exists_head hsplit
  have hhead : b.stmts[i + 1]? = (b.stmts.drop (i + 1)).head? := by
    rw [List.head?_drop]
  rw [succs, outEdges_stmt h.shaped.nodup hsplit, edgesOf, Body.next, hs, Option.map_some]
  cases hc : s.command with
  | ret v => rfl
  | goto j =>
    obtain ⟨t, ht⟩ := hjump j (by simp [hc, Command.target?])
    have hj := (Body.target?_eq h.index j).symm.trans ht
    simp [edgeTo, Body.node?, ht, hj]
  | branch op l r j =>
    obtain ⟨t, ht⟩ := hjump j (by simp [hc, Command.target?])
    have hj := (Body.target?_eq h.index j).symm.trans ht
    obtain ⟨u, hu⟩ := hnext (by simp [hc, Command.fallsThrough])
    simp [edgeTo, Body.node?, ht, hj, hu, hhead]
  | _ =>
    obtain ⟨u, hu⟩ := hnext (by simp [hc, Command.fallsThrough])
    simp [edgeTo, Body.node?, hu, hhead]

theorem succs_entry (h : b.Shaped) :
    ((ofBody b).succs (.entry b.method)).map some = (b.next .enter).map b.node? := by
  obtain ⟨s, hs⟩ := h.whole.first
  have hfirst : b.stmts[0]? = some s := by rw [← List.head?_eq_getElem?, hs]
  rw [succs, outEdges_entry, hs]
  simp [edgeTo, Body.next, Body.node?, hfirst]

/-- The graph leads on from every node but the exit. -/
theorem succs_eq_nil_iff {n : Node} (hn : n ∈ (ofBody b).nodes)
    (hsucc : ∀ c n, b.node? c = some n →
      ((ofBody b).succs n).map some = (b.next c).map b.node?) :
    (ofBody b).succs n = [] ↔ n = .exit b.method := by
  have leads : ∀ {c n}, b.node? c = some n → ((ofBody b).succs n = [] ↔ b.next c = []) := by
    intro c n hc
    rw [← List.map_eq_nil_iff (f := some), hsucc c n hc, List.map_eq_nil_iff]
  rcases List.mem_cons.1 hn with rfl | hn
  · rw [leads (c := .enter) rfl]
    simp [Body.next]
  rcases List.mem_append.1 hn with hn | hn
  · obtain ⟨s, hs, rfl⟩ := List.mem_map.1 hn
    obtain ⟨i, hi⟩ := List.getElem?_of_mem hs
    rw [leads (c := .stmt i) (by simp [Body.node?, hi]), Body.next, hi, Option.map_some]
    cases s.command <;> simp
  · obtain rfl := List.mem_singleton.1 hn
    rw [leads (c := .leave) rfl]
    simp [Body.next]

/-- The graph of a method has the entry, the statements in order and the exit as nodes. From each
node it leads where the program counter can go next, so from all of them but the exit. -/
structure FollowsCounter (g : Cfg) (p : Program) (m : Method) : Prop where
  nodes : g.nodes = .entry m :: ((p.stmtsOf m).map .stmt ++ [.exit m])
  nodup : g.nodes.Nodup
  succs : ∀ c n, p.node? m c = some n → (g.succs n).map some = (p.next m c).map (p.node? m)
  leadsOn : ∀ n ∈ g.nodes, g.succs n = [] ↔ n = .exit m

/-- The tables of a method without a body. -/
theorem exists_tables_withoutBody (m : Method) :
    ∃ t, (Tables.ofNodes [.entry m, .exit m]).addEdge ⟨.entry, .entry m, .exit m⟩ = .ok t ∧
      t.Represents (withoutBody m) ∧ t.Mirrored := by
  have hnodes := Tables.represents_ofNodes m [.entry m, .exit m]
  obtain ⟨t, ht, hrep⟩ := hnodes.addEdge (e := ⟨.entry, .entry m, .exit m⟩) (by simp) (by simp)
  exact ⟨t, ht, hrep, hrep.mirrored (by simp)⟩

theorem followsCounter_withoutBody (hb : p.body? m = none) :
    (withoutBody m).FollowsCounter p m where
  nodes := by
    rw [Program.stmtsOf, hb]
    rfl
  nodup := by simp [withoutBody]
  succs c n hc := by
    have hnode : p.node? m = Counter.nodeWithoutBody? m := by
      funext c
      rw [Program.node?, hb]
    rw [hnode] at hc ⊢
    rw [Program.next, hb]
    cases c with
    | enter =>
      obtain rfl := Option.some.inj hc
      simp [Cfg.succs, outEdges, withoutBody, Counter.nextWithoutBody, Counter.nodeWithoutBody?]
    | stmt i => cases hc
    | leave =>
      obtain rfl := Option.some.inj hc
      simp [Cfg.succs, outEdges, withoutBody, Counter.nextWithoutBody]
  leadsOn n hn := by
    rcases List.mem_pair.1 hn with rfl | rfl <;> simp [Cfg.succs, outEdges, withoutBody]

theorem followsCounter_ofBody (hb : p.body? b.method = some b) (h : b.Finished b.method) :
    (ofBody b).FollowsCounter p b.method := by
  have hsucc : ∀ c n, b.node? c = some n →
      ((ofBody b).succs n).map some = (b.next c).map b.node? := by
    intro c n hc
    cases c with
    | enter =>
      obtain rfl := Option.some.inj hc
      exact succs_entry h.shaped
    | stmt i =>
      obtain ⟨s, hs, rfl⟩ := Option.map_eq_some_iff.1 hc
      exact succs_stmt h hs
    | leave =>
      obtain rfl := Option.some.inj hc
      have hexit := outEdges_exit (p := p) (m := b.method) b.method
      rw [ofMethod_eq hb] at hexit
      rw [succs, hexit]
      rfl
  refine ⟨by rw [Program.stmtsOf, hb]; rfl, nodup_ofBody h.shaped.nodup, fun c n hc => ?_,
    fun n hn => succs_eq_nil_iff hn hsucc⟩
  have hnode : p.node? b.method = b.node? := by
    funext c
    rw [Program.node?, hb]
  rw [hnode] at hc ⊢
  rw [Program.next, hb]
  exact hsucc c n hc

/-- Nothing is missing for the graph of a method without a body or with that of a finished draft.
Its tables list each edge under both ends, and it leads where the program counter goes. -/
theorem graph_follows_counter (hbody : ∀ b, p.body? m = some b → b.Finished m) :
    (∃ t, Tables.ofMethod p m = .ok t ∧ t.Represents (ofMethod p m) ∧ t.Mirrored) ∧
      (ofMethod p m).FollowsCounter p m := by
  cases hb : p.body? m with
  | none =>
    rw [ofMethod_eq_withoutBody hb, Tables.ofMethod, hb]
    exact ⟨exists_tables_withoutBody m, followsCounter_withoutBody hb⟩
  | some b =>
    have hfin := hbody b hb
    obtain rfl := hfin.method
    rw [ofMethod_eq hb, Tables.ofMethod, hb]
    exact ⟨exists_tables hfin.shaped, followsCounter_ofBody hb hfin⟩

/-! ### A branch at the end of what was written -/

namespace Poll

open Draft.Walk (main n k draft)

def steps : List Draft.Step :=
  [.addVar "k" .int, .mark "top", .append (.branch .gt (.var k) (.literal 0) "top")]

def branch : Stmt := ⟨⟨0, 1, main⟩, .branch .gt (.var k) (.literal 0) 0⟩

def ret : Stmt := ⟨⟨1, 2, main⟩, .ret none⟩

def body : Body := ⟨main, none, [n], [n, k], [branch, ret]⟩

/-- The second method has no body. -/
def print : Method := ⟨1, Draft.Walk.node, ⟨"print", [], .void⟩, true, false, true⟩

def program : Program := ⟨.empty, (∅ : OrderedMap Method Body).insert main body⟩

/-- The branch leads back to itself or to the return, which was put behind it. -/
theorem graph_follows_counter_poll :
    ((∀ b, program.body? main = some b → b.Finished main) ∧
      (∃ t, Tables.ofMethod program main = .ok t ∧ t.Represents (ofMethod program main) ∧
        t.Mirrored) ∧
      (ofMethod program main).FollowsCounter program main ∧
      (ofMethod program main).succs (.stmt branch) = [.stmt branch, .stmt ret]) ∧
    (∀ b, program.body? print = some b → b.Finished print) ∧
      (∃ t, Tables.ofMethod program print = .ok t ∧ t.Represents (ofMethod program print) ∧
        t.Mirrored) ∧
      (ofMethod program print).FollowsCounter program print := by
  have hmain : ∀ b, program.body? main = some b → b.Finished main := by
    intro b hb
    obtain rfl : body = b := Option.some.inj hb
    exact ⟨some ["n"], draft, steps, rfl, rfl⟩
  have hprint : ∀ b, program.body? print = some b → b.Finished print := nofun
  obtain ⟨htables, hfollows⟩ := graph_follows_counter hmain
  exact ⟨⟨hmain, htables, hfollows, by decide⟩, hprint, graph_follows_counter hprint⟩

end Poll

end Cfg

end ObjectFlow
