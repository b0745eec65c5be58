import ObjectFlow.Proofs.Arithmetic
import ObjectFlow.Proofs.Mismatch
import ObjectFlow.Proofs.Translation
/-!
# Constants of any size

The analysis may as well be run with constants that are integers of any size. Then
operations are looked up by their symbol and folded on integers, where a symbol may be
unknown and a divisor zero, and only what was folded is wrapped to 32 bits. Such a run
does what the run on words does, so it never meets an unknown symbol or divides by
zero, and all its constants are words.
-/

namespace ObjectFlow

/-- What is known of an integer variable, with constants of any size. -/
inductive Wide where
  | undef
  | const (n : Int)
  | nac
deriving DecidableEq

instance : Bottom Wide := ⟨.undef⟩

def Wide.meet (v w : Wide) : Wide :=
  match v, w with
  | nac, _ | _, nac => nac
  | undef, w => w
  | v, undef => v
  | const a, const b => if a = b then const a else nac

abbrev WideFact := Fact Var Wide

namespace Unbounded

/-- Why a run on integers of any size stops. -/
inductive Failure where
  | analysis (e : AnalysisError)
  | unknownOperator (symbol : String)
  | zeroDivisor

/-! ## Evaluation -/

/-- Looks an operator up, and wraps what it gives. -/
def fold (symbol : String) (a b : Int) : Except Failure Int :=
  match BinaryOp.ofSymbol? symbol with
  | none => .error (.unknownOperator symbol)
  | some op =>
    match op.onIntegers a b with
    | none => .error .zeroDivisor
    | some n => .ok (wrap n)

/-- Only two constants are folded, unless one divides the other and is zero. -/
def combine (symbol : String) (v w : Wide) : Except Failure Wide :=
  if (symbol = "/" ∨ symbol = "%") ∧ w = .const 0 then .ok .undef
  else match v, w with
    | .const a, .const b => (fold symbol a b).map .const
    | .nac, _ | _, .nac => .ok .nac
    | _, _ => .ok .undef

def ofVar (f : WideFact) (v : Var) : Wide := if v.type.holdsInt then f.get v else .nac

def evaluate (f : WideFact) : Expr → Except Failure Wide
  | .var v => .ok (ofVar f v)
  | .literal n => .ok (.const (wrap n))
  | .binary op l r => do
    let v ← evaluate f l
    let w ← evaluate f r
    combine op.symbol v w
  | .alloc _ | .field _ | .element _ _ => .ok .nac

/-! ## Facts -/

def meetFact (f target : WideFact) : WideFact :=
  f.entries.foldl (fun t e => (t.update e.1 (e.2.meet (t.get e.1))).2) target

def boundary (p : Program) (m : Method) : WideFact :=
  match p.body? m with
  | none => ∅
  | some b => .ofList ((b.params.filter fun v => v.type.holdsInt).map fun v => (v, Wide.nac))

def assigned (f : WideFact) (c : Command Nat) : Except Failure Wide :=
  match c.source? with
  | some e => evaluate f e
  | none => .ok .nac

def afterStmt (s : Stmt) (f : WideFact) : Except Failure WideFact :=
  match s.command.defined? with
  | some v =>
    if v.type.holdsInt then (assigned f s.command).map fun x => (f.update v x).2 else .ok f
  | none => .ok f

def afterNode (n : Node) (f : WideFact) : Except Failure WideFact :=
  match n with
  | .stmt s => afterStmt s f
  | .entry _ | .exit _ => .ok f

def afterInterNode (n : Node) (f : WideFact) : Except Failure WideFact :=
  match n.callSite? with
  | some _ => .ok f
  | none => afterNode n f

/-! ## Edges -/

def parameterFact (f : WideFact) (args params : List Var) : WideFact :=
  .ofList (((args.zip params).filter fun e => e.2.type.holdsInt).map fun e => (e.2, ofVar f e.1))

def intoCallee (p : Program) (s : CallSite) (m : Method) (f : WideFact) :
    Except Failure WideFact :=
  match p.body? m with
  | none => .ok ∅
  | some b =>
    let args := s.call.args
    if args.length ≠ b.params.length then
      .error (.analysis (.arity s m args.length b.params.length))
    else .ok (parameterFact f args b.params)

def returnedValue (p : Program) (m : Method) (returned : List Var) (f : WideFact) : Wide :=
  if p.hasBody m then returned.foldl (fun v w => v.meet (ofVar f w)) .undef else .nac

def behindCall (p : Program) (s : CallSite) (m : Method) (returned : List Var) (f : WideFact) :
    WideFact :=
  match s.result with
  | some v => if v.type.holdsInt then .ofList [(v, returnedValue p m returned f)] else ∅
  | none => ∅

def pastCall (s : CallSite) (f : WideFact) : WideFact :=
  match s.result with
  | some v => (f.remove v).2
  | none => f

def alongEdge (p : Program) (e : Icfg.Edge) (f : WideFact) : Except Failure WideFact :=
  match e with
  | .normal _ _ => .ok f
  | .callToReturn s _ => .ok (pastCall s f)
  | .call s m => intoCallee p s m f
  | .ret m _ s returned => .ok (behindCall p s m returned f)
  | .foreign s t => .error (.analysis (.unknownEdge s t))

/-! ## Runs -/

def boundaries (p : Program) (g : Icfg) : OrderedMap Node WideFact :=
  .ofList (g.callGraph.entries.toList.map fun m => (Node.entry m, boundary p m))

/-- The equations of a joined graph. A node is refused where what leaves it cannot be computed. -/
def equations (p : Program) (g : Icfg) : Dataflow.Equations Node WideFact Failure where
  entering leaving n := do
    let flows ← (g.inEdges n).mapM fun e => alongEdge p e (leaving e.source)
    let before := flows.foldl (fun t f => meetFact f t) ((boundaries p g).getD n ∅)
    let _ ← afterInterNode n before
    pure before
  leaving n f := (afterInterNode n f).toOption.getD f
  dependents n := g.succs n
  initial := ∅
  same f g := f.sameAs g

def start (p : Program) (g : Icfg) : Dataflow.State Node WideFact :=
  .start (equations p g) g.nodes.keys (boundaries p g).entries (boundaries p g).entries g.nodes.keys

/-- The constants of all methods of a graph. -/
def ofIcfg (fuel : Nat) (p : Program) (g : Icfg) :
    Except Failure (Dataflow.Solution Node WideFact) :=
  Dataflow.solve (equations p g) (.analysis .outOfFuel) fuel (start p g)

/-! ## Words among integers -/

/-- A word is the integer that is its signed value. -/
def widen : Value → Wide
  | .undef => .undef
  | .const w => .const w.toInt
  | .nac => .nac

theorem widen_embeds : Fact.Embeds widen where
  bottom := rfl
  injective v w h := by
    cases v <;> cases w <;> simp only [widen, reduceCtorEq, Wide.const.injEq] at h ⊢
    rw [Int32.toInt_inj.1 h]

abbrev widenFact : ConstFact → WideFact := Fact.map widen

theorem meet_widen (v w : Value) : (widen v).meet (widen w) = widen (v.meet w) := by
  cases v <;> cases w <;> try rfl
  simp only [widen, Wide.meet, Value.meet, Int32.toInt_inj]
  split <;> rfl

theorem ofSymbol?_symbol (op : BinaryOp) : BinaryOp.ofSymbol? op.symbol = some op := by
  cases op <;> decide

theorem symbol_divides (op : BinaryOp) :
    (op.symbol = "/" ∨ op.symbol = "%") ↔ op = .div ∨ op = .rem := by
  cases op <;> decide

/-- Every operator is found, and folds words to what they are folded to. -/
theorem fold_words {op : BinaryOp} {a b n : Int32} (h : op.fold a.toInt b.toInt = some n) :
    fold op.symbol a.toInt b.toInt = .ok n.toInt := by
  rw [BinaryOp.fold_eq_onIntegers] at h
  obtain ⟨k, hk, rfl⟩ := Option.map_eq_some_iff.1 h
  rw [fold, ofSymbol?_symbol]
  dsimp only
  rw [hk, toInt_ofInt]

theorem combine_widen (op : BinaryOp) (v w : Value) :
    combine op.symbol (widen v) (widen w) = .ok (widen (Value.binary op v w)) := by
  have hzero : widen w = .const 0 ↔ w = .const 0 :=
    widen_embeds.injective.eq_iff (a := w) (b := .const 0)
  unfold combine Value.binary
  simp only [symbol_divides, hzero]
  split
  · rfl
  · rename_i hdiv
    cases v with
    | undef => cases w <;> rfl
    | nac => cases w <;> rfl
    | const a =>
      cases w with
      | undef => rfl
      | nac => rfl
      | const b =>
        have hne : op = .div ∨ op = .rem → b ≠ 0 := fun hop hb => hdiv ⟨hop, hb ▸ rfl⟩
        have hfold :=
          (BinaryOp.fold_eq_onWords op a b).trans (BinaryOp.onWords_eq_onBits op a b hne)
        simp only [widen, fold_words hfold, hfold, Except.map]

theorem ofVar_widen (f : ConstFact) (v : Var) : ofVar (widenFact f) v = widen (v.value f) := by
  unfold ofVar Var.value
  split
  · exact Fact.get_map widen_embeds f v
  · rfl

/-- An expression is evaluated without a failure, to its value. -/
theorem evaluate_widen (f : ConstFact) (e : Expr) :
    evaluate (widenFact f) e = .ok (widen (e.value f)) := by
  induction e with
  | var v => exact congrArg Except.ok (ofVar_widen f v)
  | literal n => exact congrArg (fun k => Except.ok (Wide.const k)) (toInt_ofInt n).symm
  | binary op l r ihl ihr =>
    rw [evaluate, ihl, ihr]
    exact combine_widen op _ _
  | alloc t => rfl
  | field a => rfl
  | element b i => rfl

theorem meetFact_widen (f t : ConstFact) :
    meetFact (widenFact f) (widenFact t) = widenFact (Constants.meetFact f t) := by
  have hentries : (widenFact f).entries = f.entries.map fun e => (e.1, widen e.2) := rfl
  rw [meetFact, Constants.meetFact, hentries]
  induction f.entries generalizing t with
  | nil => rfl
  | cons e l ih =>
    rw [List.map_cons, List.foldl_cons, List.foldl_cons]
    dsimp only
    rw [Fact.get_map widen_embeds, meet_widen, Fact.update_map widen_embeds, ih]

theorem foldl_meetFact_widen (fs : List ConstFact) (t : ConstFact) :
    (fs.map widenFact).foldl (fun t f => meetFact f t) (widenFact t) =
      widenFact (fs.foldl (fun t f => Constants.meetFact f t) t) := by
  induction fs generalizing t with
  | nil => rfl
  | cons f fs ih =>
    rw [List.map_cons, List.foldl_cons, List.foldl_cons, meetFact_widen, ih]

/-- A fact is given by a list of variables with values. -/
theorem ofList_widen {β : Type} (l : List β) (key : β → Var) {x : β → Wide} {y : β → Value}
    (hx : ∀ b, x b = widen (y b)) : (Fact.ofList (l.map fun b => (key b, x b)) : WideFact) =
      widenFact (.ofList (l.map fun b => (key b, y b))) := by
  refine Eq.trans ?_ (Fact.ofList_map widen_embeds _)
  rw [List.map_map]
  exact congrArg Fact.ofList (List.map_congr_left fun b _ => congrArg (Prod.mk (key b)) (hx b))

theorem boundary_widen (p : Program) (m : Method) :
    boundary p m = widenFact (Constants.boundary p m) := by
  unfold boundary Constants.boundary
  cases p.body? m with
  | none => rfl
  | some b => exact ofList_widen _ id fun _ => rfl

theorem afterNode_widen (n : Node) (f : ConstFact) :
    afterNode n (widenFact f) = .ok (widenFact (Constants.afterNode n f)) := by
  cases n with
  | entry m => rfl
  | exit m => rfl
  | stmt s =>
    show afterStmt s (widenFact f) = .ok (widenFact (Constants.afterStmt s f))
    unfold afterStmt Constants.afterStmt
    cases s.command.defined? with
    | none => rfl
    | some v =>
      dsimp only
      have hassigned : assigned (widenFact f) s.command =
          .ok (widen (Constants.assigned f s.command)) := by
        unfold assigned Constants.assigned
        cases s.command.source? with
        | none => rfl
        | some e => exact evaluate_widen f e
      split
      · rw [hassigned]
        exact congrArg Except.ok (Fact.update_map widen_embeds f v _)
      · rfl

theorem afterInterNode_widen (n : Node) (f : ConstFact) :
    afterInterNode n (widenFact f) = .ok (widenFact (Constants.afterInterNode n f)) := by
  unfold afterInterNode Constants.afterInterNode
  cases n.callSite? with
  | none => exact afterNode_widen n f
  | some s => rfl

theorem returnedValue_widen (p : Program) (m : Method) (returned : List Var) (f : ConstFact) :
    returnedValue p m returned (widenFact f) =
      widen (Constants.returnedValue p m returned f) := by
  have hfold : ∀ v : Value, returned.foldl (fun v w => v.meet (ofVar (widenFact f) w)) (widen v) =
      widen (returned.foldl (fun v w => v.meet (w.value f)) v) := by
    induction returned with
    | nil => exact fun v => rfl
    | cons w returned ih =>
      intro v
      rw [List.foldl_cons, List.foldl_cons, ofVar_widen, meet_widen, ih]
  unfold returnedValue Constants.returnedValue
  split
  · exact hfold .undef
  · rfl

/-- What flows along an edge is the same, and so is the error if nothing can. -/
theorem alongEdge_widen (p : Program) (e : Icfg.Edge) (f : ConstFact) :
    alongEdge p e (widenFact f) =
      Dataflow.translated widenFact .analysis (Constants.alongEdge p e f) := by
  cases e with
  | normal s t => rfl
  | callToReturn s t =>
    show Except.ok (pastCall s (widenFact f)) = .ok (widenFact (Constants.pastCall s f))
    unfold pastCall Constants.pastCall
    cases s.result with
    | none => rfl
    | some v => exact congrArg Except.ok (Fact.remove_map f v)
  | call s m =>
    show intoCallee p s m (widenFact f) =
      Dataflow.translated widenFact .analysis (Constants.intoCallee p s m f)
    unfold intoCallee Constants.intoCallee
    cases p.body? m with
    | none => rfl
    | some b =>
      dsimp only
      split
      · rfl
      · exact congrArg Except.ok (ofList_widen _ Prod.snd fun e => ofVar_widen f e.1)
  | ret m t s returned =>
    show Except.ok (behindCall p s m returned (widenFact f)) =
      .ok (widenFact (Constants.behindCall p s m returned f))
    unfold behindCall Constants.behindCall
    cases s.result with
    | none => rfl
    | some v =>
      dsimp only
      split
      · exact congrArg Except.ok (ofList_widen [v] id fun _ => returnedValue_widen p m returned f)
      · rfl
  | foreign s t => rfl

/-! ## Runs on words among runs on integers -/

section
variable (p : Program) (g : Icfg)

theorem boundaries_widen :
    boundaries p g = (Constants.boundaries p g).mapValues widenFact := by
  rw [Constants.boundaries, ← OrderedMap.ofList_mapValues, List.map_map]
  exact congrArg OrderedMap.ofList (List.map_congr_left fun m _ =>
    congrArg (Prod.mk (Node.entry m)) (boundary_widen p m))

theorem mapM_alongEdge (es : List Icfg.Edge) (l : Node → ConstFact) :
    es.mapM (fun e => alongEdge p e (widenFact (l e.source))) =
      Dataflow.translated (List.map widenFact) .analysis
        (es.mapM fun e => Constants.alongEdge p e (l e.source)) := by
  induction es with
  | nil => rfl
  | cons e es ih =>
    rw [List.mapM_cons, List.mapM_cons, alongEdge_widen, ih]
    cases Constants.alongEdge p e (l e.source) with
    | error err => rfl
    | ok f => cases es.mapM fun e => Constants.alongEdge p e (l e.source) <;> rfl

/-- The equations on integers are those on words, translated. -/
theorem translates : Dataflow.Translates widenFact .analysis (Constants.programEquations p g)
    (equations p g) where
  entering l n := by
    have hboundary : (boundaries p g).getD n ∅ =
        widenFact ((Constants.boundaries p g).getD n ∅) := by
      rw [boundaries_widen]
      exact OrderedMap.getD_mapValues widenFact _ n ∅
    simp only [equations, Constants.programEquations]
    rw [mapM_alongEdge]
    cases (g.inEdges n).mapM fun e => Constants.alongEdge p e (l e.source) with
    | error e => rfl
    | ok flows =>
      have hbefore := foldl_meetFact_widen flows ((Constants.boundaries p g).getD n ∅)
      rw [← hboundary] at hbefore
      show (do
        let _ ← afterInterNode n ((flows.map widenFact).foldl (fun t f => meetFact f t) _)
        pure ((flows.map widenFact).foldl (fun t f => meetFact f t) _)) = _
      rw [hbefore, afterInterNode_widen]
      rfl
  leaving n f := by
    show (afterInterNode n (widenFact f)).toOption.getD _ = _
    rw [afterInterNode_widen]
    rfl
  dependents _ := rfl
  initial := rfl
  same f g := Fact.sameAs_map widen_embeds f g

theorem start_widen : start p g = (Constants.programStart p g).map widenFact := by
  have hentries : (boundaries p g).entries =
      (Constants.boundaries p g).entries.map fun e => (e.1, widenFact e.2) := by
    rw [boundaries_widen, OrderedMap.entries_mapValues]
  rw [start, hentries]
  exact (translates p g).start _ _ _ _

/-- Constants of any size change nothing: the run ends as the run on words does. -/
theorem ofIcfg_widen (fuel : Nat) : ofIcfg fuel p g =
    Dataflow.translated (Dataflow.Solution.map widenFact) .analysis
      (Constants.ofIcfg fuel p g) := by
  rw [ofIcfg, start_widen]
  exact (translates p g).solve .outOfFuel fuel

/-- All constants of a fact are words. -/
def InWords (f : WideFact) : Prop := ∀ v n, f.get v = .const n → InWord n

theorem inWords_widen (f : ConstFact) : InWords (widenFact f) := by
  intro v n h
  rw [Fact.get_map widen_embeds] at h
  cases hv : f.get v with
  | undef =>
    rw [hv] at h
    cases h
  | nac =>
    rw [hv] at h
    cases h
  | const w =>
    rw [hv] at h
    obtain rfl := Wide.const.inj h
    exact inWord_toInt w

/-- However far a run has come, all constants that it holds are words. -/
theorem reached_inWords {st : Dataflow.State Node WideFact}
    (hr : Dataflow.Reaches (equations p g) (start p g) st) (n : Node) :
    InWords (st.entering.getD n ∅) ∧ InWords (st.leaving.getD n ∅) := by
  rw [start_widen] at hr
  obtain ⟨st, -, rfl⟩ := (translates p g).reaches hr
  have hword : ∀ m : OrderedMap Node ConstFact, InWords ((m.mapValues widenFact).getD n ∅) := by
    intro m
    rw [show (∅ : WideFact) = widenFact ∅ from rfl, OrderedMap.getD_mapValues]
    exact inWords_widen _
  exact ⟨hword _, hword _⟩

/-- A run on integers never looks up an unknown operator and never divides by zero. -/
theorem analysis_of_error {fuel : Nat} {failure : Failure} (h : ofIcfg fuel p g = .error failure) :
    ∃ e, failure = .analysis e ∧ Constants.ofIcfg fuel p g = .error e := by
  rw [ofIcfg_widen] at h
  cases hr : Constants.ofIcfg fuel p g with
  | ok sol =>
    rw [hr] at h
    cases h
  | error e =>
    rw [hr] at h
    exact ⟨e, (Except.error.inj h).symm, rfl⟩

end

/-- A joined graph is solved without an error unless a call does not fit, and then the solver fails
with the arity of such a call, before it has taken more nodes than there are. With constants of any
size it does the same, with integers for words: it neither divides by zero nor folds an unknown
operator, and all constants that it ever holds are words. -/
theorem only_mismatches_fail {p : Program} {calls : PlainCallGraph} (hp : p.Built)
    (hc : Icfg.MadeOf p calls) : ∃ g, Icfg.build p calls = .ok g ∧
      ((∃ fuel e, Constants.ofIcfg fuel p g = .error e ∧ e ≠ .outOfFuel) ↔
        ∃ s callee b, Mismatch p calls s callee b) ∧
      (∀ fuel e, Constants.ofIcfg fuel p g = .error e → e ≠ .outOfFuel →
        ∃ s callee b, Mismatch p calls s callee b ∧
          e = .arity s callee s.call.args.length b.params.length) ∧
      (∀ s callee b, Mismatch p calls s callee b → ∀ fuel, g.nodes.size ≤ fuel →
        ∃ e, Constants.ofIcfg fuel p g = .error e ∧ e ≠ .outOfFuel) ∧
      (∀ fuel, ofIcfg fuel p g = Dataflow.translated (Dataflow.Solution.map widenFact) .analysis
        (Constants.ofIcfg fuel p g)) ∧
      (∀ fuel failure, ofIcfg fuel p g = .error failure →
        failure ≠ .zeroDivisor ∧ ∀ symbol, failure ≠ .unknownOperator symbol) ∧
      ∀ st, Dataflow.Reaches (equations p g) (start p g) st → ∀ n,
        InWords (st.entering.getD n ∅) ∧ InWords (st.leaving.getD n ∅) := by
  have hclosed := hc.closed hp
  obtain ⟨g, hg⟩ := Constants.build_of_closed (p := p) hclosed
  have hraises : ∀ s callee b, Mismatch p calls s callee b → ∀ fuel, g.nodes.size ≤ fuel →
      ∃ e, Constants.ofIcfg fuel p g = .error e ∧ e ≠ .outOfFuel := by
    intro s callee b hm fuel hf
    obtain ⟨s', callee', b', -, herr⟩ := Constants.ofIcfg_fails hclosed.grouped hg hp hm hf
    exact ⟨_, herr, fun heq => (nomatch heq)⟩
  refine ⟨g, hg, ⟨?_, ?_⟩,
    fun fuel e he hne => Constants.mismatch_of_ofIcfg hclosed.grouped hg he hne, hraises,
    ofIcfg_widen p g, fun fuel failure hf => ?_, fun st hr n => reached_inWords p g hr n⟩
  · rintro ⟨fuel, e, he, hne⟩
    obtain ⟨s, callee, b, hm, -⟩ := Constants.mismatch_of_ofIcfg hclosed.grouped hg he hne
    exact ⟨s, callee, b, hm⟩
  · rintro ⟨s, callee, b, hm⟩
    exact ⟨g.nodes.size, hraises s callee b hm _ (Nat.le_refl _)⟩
  · obtain ⟨e, rfl, -⟩ := analysis_of_error p g hf
    exact ⟨fun heq => (nomatch heq), fun symbol heq => (nomatch heq)⟩

/-! ### A call without its argument -/

namespace Misfit

open Constants.Doubling

def misfit : CallSite := ⟨⟨1, 2, main⟩, some y, ⟨.static, ⟨owner, double.signature⟩, []⟩⟩

def mainBody : Body := ⟨main, none, [], [x, y], [set, misfit.stmt, done]⟩

/-- The number to be doubled is not passed. -/
def program : Program := ⟨hierarchy, OrderedMap.ofList [(main, mainBody), (double, doubleBody)]⟩

def calls : PlainCallGraph := ((Cha.build program [main]).toOption).getD .empty

theorem mainBody_built : mainBody.Built := by
  have hstart : Draft.Built ⟨main, none, [], [], [], ∅, false⟩ :=
    .start (show Draft.start main none = .ok _ from rfl)
  have hx : Draft.Built ⟨main, none, [], [x], [], ∅, false⟩ := hstart.addVar
  have hy : Draft.Built ⟨main, none, [], [x, y], [], ∅, false⟩ := hx.addVar
  have hdraft : Draft.Built
      ⟨main, none, [], [x, y], [.literal x 3, .invoke (some y) misfit.call], ∅, false⟩ :=
    hy.appendAll rfl
  exact .finish hdraft rfl

theorem body_of_program {m : Method} {b : Body} (hb : program.body? m = some b) :
    (m = main ∧ b = mainBody) ∨ (m = double ∧ b = doubleBody) := by
  have hmem : (m, b) ∈ [(main, mainBody), (double, doubleBody)] := OrderedMap.mem_entries_iff.2 hb
  simpa only [List.mem_cons, List.not_mem_nil, or_false, Prod.mk.injEq] using hmem

theorem program_built : program.Built where
  hierarchy := hierarchy_built
  body hb := by
    rcases body_of_program hb with ⟨-, rfl⟩ | ⟨-, rfl⟩
    · exact mainBody_built
    · exact .finish doubleDraft_built rfl
  method hb := by
    rcases body_of_program hb with ⟨rfl, rfl⟩ | ⟨rfl, rfl⟩ <;> rfl

theorem mismatch : Mismatch program calls misfit double doubleBody where
  site := ⟨main, by decide, by decide⟩
  edge := ⟨⟨.static, misfit, double⟩, by decide, rfl, rfl⟩
  body := rfl
  differ := by decide

/-- After two nodes a constant is held. -/
theorem started : ∃ g st, Icfg.build program calls = .ok g ∧ g.nodes.size = 9 ∧
    Dataflow.advance (equations program g) 2 (start program g) = some st ∧
    (st.leaving.getD (.stmt set) ∅).get x = .const 3 := ⟨_, _, rfl, rfl, rfl, rfl⟩

/-- The solver fails with nine nodes, as many as there are. The constant that it held is a word. -/
theorem only_mismatches_fail_misfit :
    (program.Built ∧ Icfg.MadeOf program calls ∧ Mismatch program calls misfit double doubleBody) ∧
    ∃ g, Icfg.build program calls = .ok g ∧ g.nodes.size = 9 ∧
      (∃ s callee, ∃ b : Body, Constants.ofIcfg 9 program g =
        .error (.arity s callee s.call.args.length b.params.length)) ∧
      ∃ st, Dataflow.Reaches (equations program g) (start program g) st ∧
        (st.leaving.getD (.stmt set) ∅).get x = .const 3 ∧ InWord 3 := by
  have hmade : Icfg.MadeOf program calls :=
    .hierarchy (show Cha.build program [main] = .ok calls from rfl)
  obtain ⟨g, hg, -, harity, hraises, -, -, hwords⟩ := only_mismatches_fail program_built hmade
  obtain ⟨g', st, hg', hsize, hst, hx⟩ := started
  obtain rfl := Except.ok.inj (hg.symm.trans hg')
  obtain ⟨e, he, hne⟩ := hraises misfit double doubleBody mismatch 9 (Nat.le_of_eq hsize)
  obtain ⟨s, callee, b, -, rfl⟩ := harity 9 e he hne
  have hreach := Dataflow.advance_reaches hst
  exact ⟨⟨program_built, hmade, mismatch⟩, g, hg, hsize, ⟨s, callee, b, he⟩, st, hreach, hx,
    (hwords st hreach (.stmt set)).2 x 3 hx⟩

end Misfit

end Unbounded

end ObjectFlow
