import Mathlib.Logic.Function.Basic
import ObjectFlow.Proofs.Least
/-!
# Executions of a program

What a program does on a heap: frames call each other, allocations make objects
that remember where and in which context they were made, and statements move
references. Which statement of a body comes next is left open, so every order of
control is an execution. Whatever one of them does, the analysis has concluded.
-/

namespace ObjectFlow.PointsTo

/-! ## Heaps and frames -/

/-- A place in the heap, or no object. -/
abbrev Reference := Option Nat

/-- An object with the allocation it comes from. -/
structure HeapObject where
  origin : CtxObject
  fields : Field → Reference
  elements : Int → Reference

abbrev Heap := List HeapObject

/-- A method that is being run, and the variable of the caller that waits for its value. -/
structure Frame where
  method : CtxMethod
  locals : Var → Reference
  result : Option Var

/-- The frames, topmost first, the heap and the static fields. -/
structure Config where
  stack : List Frame
  heap : Heap
  statics : Field → Reference

namespace Frame

def set (f : Frame) (v : Var) (x : Reference) : Frame :=
  { f with locals := Function.update f.locals v x }

/-- Assigns a value to the variable that waits for one, if any does. -/
def assign (f : Frame) (v : Option Var) (x : Reference) : Frame :=
  match v with
  | none => f
  | some v => f.set v x

/-- What variables are bound to, nothing unless a pair says so. -/
def bind (pairs : List (Var × Reference)) (v : Var) : Reference :=
  (pairs.find? fun x => decide (x.1 = v)).bind Prod.snd

/-- The frame of a callee with a body. -/
def enter (callee : CtxMethod) (b : Body) (this : Reference) (args : List Reference)
    (result : Option Var) : Frame :=
  ⟨callee, bind ((b.receiver.toList.map fun v => (v, this)) ++ b.params.zip args), result⟩

end Frame

/-- The frames once a call is made. A callee without a body returns no reference at once. -/
def callFrames (p : Program) (callee : CtxMethod) (this : Reference) (c : Call)
    (r : Option Var) (f : Frame) (rest : List Frame) : List Frame :=
  match p.body? callee.method with
  | none => f.assign r none :: rest
  | some b => .enter callee b this (c.args.map f.locals) r :: f :: rest

/-- The method that a call on an object enters: looked up in the class it names if the call is
special, else in the class of the object. -/
def enteredMethod? (h : Hierarchy) (c : Call) (type : Ty) : Option Method :=
  match c.kind, type with
  | .special, _ => h.dispatch c.ref.owner c.ref.signature
  | _, .object d => h.dispatch d c.ref.signature
  | _, _ => none

/-! ## Steps -/

/-- The statement stands in the body of the method that is being run. -/
def Frame.Runs (p : Program) (f : Frame) (stmt : Stmt) : Prop :=
  ∃ b, p.body? f.method.method = some b ∧ stmt ∈ b.stmts

/-- One step, with the edge of the call if one is made. -/
inductive Step (p : Program) (s : Selector) : Config → Option CtxEdge → Config → Prop where
  /-- Branches, jumps and empty statements move no reference. -/
  | skip {c} : Step p s c none c
  | alloc {f rest heap statics stmt v t} : f.Runs p stmt → stmt.command = .alloc v t →
      Step p s ⟨f :: rest, heap, statics⟩ none
        ⟨f.set v (some heap.length) :: rest,
          heap ++ [⟨⟨s.heapContext f.method.context, ⟨stmt.place, t⟩⟩, fun _ => none,
            fun _ => none⟩], statics⟩
  | literal {f rest heap statics stmt v n} : f.Runs p stmt → stmt.command = .literal v n →
      Step p s ⟨f :: rest, heap, statics⟩ none ⟨f.set v none :: rest, heap, statics⟩
  | binary {f rest heap statics stmt v op l r} : f.Runs p stmt → stmt.command = .binary v op l r →
      Step p s ⟨f :: rest, heap, statics⟩ none ⟨f.set v none :: rest, heap, statics⟩
  | copy {f rest heap statics stmt v w} : f.Runs p stmt → stmt.command = .copy v w →
      Step p s ⟨f :: rest, heap, statics⟩ none ⟨f.set v (f.locals w) :: rest, heap, statics⟩
  | loadStatic {f rest heap statics stmt v x} : f.Runs p stmt →
      stmt.command = .loadField v (.static x) →
      Step p s ⟨f :: rest, heap, statics⟩ none ⟨f.set v (statics x) :: rest, heap, statics⟩
  | storeStatic {f rest heap statics stmt v x} : f.Runs p stmt →
      stmt.command = .storeField (.static x) v →
      Step p s ⟨f :: rest, heap, statics⟩ none
        ⟨f :: rest, heap, Function.update statics x (f.locals v)⟩
  | loadField {f rest heap statics stmt v b x l o} : f.Runs p stmt →
      stmt.command = .loadField v (.onObject b x) → f.locals b = some l → heap[l]? = some o →
      Step p s ⟨f :: rest, heap, statics⟩ none ⟨f.set v (o.fields x) :: rest, heap, statics⟩
  | storeField {f rest heap statics stmt v b x l o} : f.Runs p stmt →
      stmt.command = .storeField (.onObject b x) v → f.locals b = some l → heap[l]? = some o →
      Step p s ⟨f :: rest, heap, statics⟩ none
        ⟨f :: rest, heap.set l { o with fields := Function.update o.fields x (f.locals v) },
          statics⟩
  /-- The index may be any number. -/
  | loadElement {f rest heap statics stmt v b i l o} (n : Int) : f.Runs p stmt →
      stmt.command = .loadElement v b i → f.locals b = some l → heap[l]? = some o →
      Step p s ⟨f :: rest, heap, statics⟩ none ⟨f.set v (o.elements n) :: rest, heap, statics⟩
  | storeElement {f rest heap statics stmt v b i l o} (n : Int) : f.Runs p stmt →
      stmt.command = .storeElement b i v → f.locals b = some l → heap[l]? = some o →
      Step p s ⟨f :: rest, heap, statics⟩ none
        ⟨f :: rest, heap.set l { o with elements := Function.update o.elements n (f.locals v) },
          statics⟩
  | staticCall {f rest heap statics stmt r c callee} : f.Runs p stmt →
      stmt.command = .invoke r c → c.isStatic → p.hierarchy.resolve c.ref = .ok (some callee) →
      Step p s ⟨f :: rest, heap, statics⟩
        (some ⟨.static, ⟨f.method.context, ⟨stmt.place, r, c⟩⟩,
          calleeAt s ⟨f.method.context, ⟨stmt.place, r, c⟩⟩ none callee⟩)
        ⟨callFrames p (calleeAt s ⟨f.method.context, ⟨stmt.place, r, c⟩⟩ none callee) none c r f
          rest, heap, statics⟩
  | objectCall {f rest heap statics stmt r c b l o callee} : f.Runs p stmt →
      stmt.command = .invoke r c → c.base? = some b → f.locals b = some l → heap[l]? = some o →
      enteredMethod? p.hierarchy c o.origin.site.type = some callee →
      Step p s ⟨f :: rest, heap, statics⟩
        (some ⟨c.kind, ⟨f.method.context, ⟨stmt.place, r, c⟩⟩,
          calleeAt s ⟨f.method.context, ⟨stmt.place, r, c⟩⟩ (some o.origin) callee⟩)
        ⟨callFrames p (calleeAt s ⟨f.method.context, ⟨stmt.place, r, c⟩⟩ (some o.origin) callee)
          (some l) c r f rest, heap, statics⟩
  | ret {f g rest heap statics stmt value} : f.Runs p stmt → stmt.command = .ret value →
      Step p s ⟨f :: g :: rest, heap, statics⟩ none
        ⟨g.assign f.result (value.bind f.locals) :: rest, heap, statics⟩
  /-- The entry method returns to nobody. -/
  | exit {f heap statics stmt value} : f.Runs p stmt → stmt.command = .ret value →
      Step p s ⟨[f], heap, statics⟩ none ⟨[], heap, statics⟩

/-- An entry method in the empty context, with nothing bound and no objects yet. -/
def Config.initial (m : Method) : Config := ⟨[⟨⟨[], m⟩, fun _ => none, none⟩], [], fun _ => none⟩

/-- The executions that begin with a method, each with the edges of the calls made so far. -/
inductive Run (p : Program) (s : Selector) (m : Method) : List CtxEdge → Config → Prop where
  | start : Run p s m [] (.initial m)
  | step {taken c e c'} : Run p s m taken c → Step p s c e c' → Run p s m (taken ++ e.toList) c'

/-! ## What a set of conclusions says of a configuration -/

section
variable {p : Program} {setup : Setup} {F : Set Conclusion}

/-- A reference leads to an object that the pointer holds, if it leads anywhere. -/
def Points (F : Set Conclusion) (heap : Heap) (q : Pointer) (x : Reference) : Prop :=
  ∀ l, x = some l → ∃ o, heap[l]? = some o ∧ .holds q o.origin ∈ F

/-- The objects are still there and come from where they came from. -/
def Keeps (heap heap' : Heap) : Prop :=
  ∀ (l : Nat) (o : HeapObject), heap[l]? = some o →
    ∃ o', heap'[l]? = some o' ∧ o'.origin = o.origin

/-- The upper frame was entered by a call of the lower one. -/
def Returns (F : Set Conclusion) (f g : Frame) : Prop :=
  ∃ e, .call e ∈ F ∧ e.callee = f.method ∧ e.site.context = g.method.context ∧
    e.site.site.result = f.result

/-- A configuration in which nothing is beyond a set of conclusions. -/
structure Covered (F : Set Conclusion) (c : Config) : Prop where
  frames : ∀ f ∈ c.stack, .reachable f.method ∈ F
  locals : ∀ f ∈ c.stack, ∀ v, Points F c.heap (varIn f.method.context v) (f.locals v)
  statics : ∀ x, Points F c.heap (.staticField x) (c.statics x)
  fields : ∀ (l : Nat) (b : HeapObject), c.heap[l]? = some b → ∀ x,
    Points F c.heap (.instanceField b.origin x) (b.fields x)
  elements : ∀ (l : Nat) (b : HeapObject), c.heap[l]? = some b → ∀ n,
    Points F c.heap (.arrayIndex b.origin) (b.elements n)
  returns : List.IsChain (Returns F) c.stack

namespace Points

variable {heap heap' : Heap} {q q' : Pointer} {x : Reference}

theorem none : Points F heap q none := fun l h => by cases h

theorem mono (hk : Keeps heap heap') (h : Points F heap q x) : Points F heap' q x := by
  intro l hl
  obtain ⟨o, ho, hin⟩ := h l hl
  obtain ⟨o', ho', heq⟩ := hk l o ho
  exact ⟨o', ho', heq ▸ hin⟩

/-- What one pointer holds, the pointers behind it hold. -/
theorem flow (hF : Closed p setup F) (he : .flow q q' ∈ F) (h : Points F heap q x) :
    Points F heap q' x := by
  intro l hl
  obtain ⟨o, ho, hin⟩ := h l hl
  exact ⟨o, ho, hF.flow he hin⟩

/-- One of many references is replaced by one that its own pointer accounts for. -/
theorem update {α : Type} [DecidableEq α] {q : α → Pointer} {xs : α → Reference} {a : α}
    (h : Points F heap (q a) x) (hxs : ∀ b, Points F heap (q b) (xs b)) (b : α) :
    Points F heap (q b) (Function.update xs a x b) :=
  (Function.forall_update_iff xs fun b x => Points F heap (q b) x).2 ⟨h, fun b _ => hxs b⟩ b

/-- The object that a reference leads to. -/
theorem holds {l : Nat} {o : HeapObject} (h : Points F heap q (some l)) (ho : heap[l]? = some o) :
    .holds q o.origin ∈ F := by
  obtain ⟨o', ho', hin⟩ := h l rfl
  obtain rfl := Option.some.inj (ho.symm.trans ho')
  exact hin

end Points

theorem keeps_append {heap : Heap} {o : HeapObject} : Keeps heap (heap ++ [o]) := by
  intro l o' h
  obtain ⟨hl, -⟩ := List.getElem?_eq_some_iff.1 h
  exact ⟨o', by rw [List.getElem?_append_left hl, h], rfl⟩

theorem keeps_set {heap : Heap} {l : Nat} {o o' : HeapObject} (ho : heap[l]? = some o)
    (heq : o'.origin = o.origin) : Keeps heap (heap.set l o') := by
  intro k b hb
  obtain ⟨hk, -⟩ := List.getElem?_eq_some_iff.1 hb
  by_cases hlk : l = k
  · subst hlk
    obtain rfl := Option.some.inj (ho.symm.trans hb)
    exact ⟨o', List.getElem?_set_self hk, heq⟩
  · exact ⟨b, by rw [List.getElem?_set_ne hlk, hb], rfl⟩

theorem Frame.mem_of_bind {pairs : List (Var × Reference)} {v : Var} {l : Nat}
    (h : Frame.bind pairs v = some l) : (v, some l) ∈ pairs := by
  obtain ⟨x, hx, hl⟩ := Option.bind_eq_some_iff.1 h
  have hv : x.1 = v := by simpa using List.find?_some hx
  have hin := List.mem_of_find?_eq_some hx
  rwa [← hv, ← hl]

theorem instanceCallee_of_entered {h : Hierarchy} {c : Call} {o : CtxObject} {callee : Method}
    (he : enteredMethod? h c o.site.type = some callee) : instanceCallee h c o = .ok callee := by
  unfold enteredMethod? at he
  unfold instanceCallee
  dsimp only
  split at he
  · rename_i hk
    simp only [receiverType, hk, he]
  · rename_i d ht hk
    have hr : receiverType c o = .object d := by
      unfold receiverType
      split
      · exact absurd ‹_› hk
      · exact ht
    simp only [hr, he]
  · cases he

theorem staticCallee_of_resolve {h : Hierarchy} {r : MethodRef} {callee : Method}
    (he : h.resolve r = .ok (some callee)) : staticCallee h r = .ok callee := by
  unfold staticCallee
  rw [he]

namespace Covered

variable {f g : Frame} {rest stack : List Frame} {heap heap' : Heap} {statics : Field → Reference}

theorem executes (h : Covered F ⟨f :: rest, heap, statics⟩) {stmt : Stmt} (hr : f.Runs p stmt) :
    Executes p F f.method stmt := ⟨h.frames f List.mem_cons_self, hr⟩

theorem top (h : Covered F ⟨f :: rest, heap, statics⟩) (v : Var) :
    Points F heap (varIn f.method.context v) (f.locals v) := h.locals f List.mem_cons_self v

/-- A variable of the topmost frame takes a value that its pointer accounts for. -/
theorem set {v : Var} {x : Reference} (h : Covered F ⟨f :: rest, heap, statics⟩)
    (hx : Points F heap (varIn f.method.context v) x) :
    Covered F ⟨f.set v x :: rest, heap, statics⟩ where
  frames f' hf' := by
    rcases List.mem_cons.1 hf' with rfl | hf'
    · exact h.frames f List.mem_cons_self
    · exact h.frames f' (List.mem_cons_of_mem _ hf')
  locals f' hf' w := by
    rcases List.mem_cons.1 hf' with rfl | hf'
    · exact Points.update (q := varIn f.method.context) hx h.top w
    · exact h.locals f' (List.mem_cons_of_mem _ hf') w
  statics := h.statics
  fields := h.fields
  elements := h.elements
  returns := by
    have hc := h.returns
    cases rest with
    | nil => exact List.isChain_singleton _
    | cons g rest =>
      rw [List.isChain_cons_cons] at hc ⊢
      exact hc

theorem assign {r : Option Var} {x : Reference} (h : Covered F ⟨f :: rest, heap, statics⟩)
    (hx : ∀ v, r = some v → Points F heap (varIn f.method.context v) x) :
    Covered F ⟨f.assign r x :: rest, heap, statics⟩ := by
  cases r with
  | none => exact h
  | some v => exact h.set (hx v rfl)

/-- The heap changes but keeps its objects. -/
theorem replace (h : Covered F ⟨stack, heap, statics⟩) (hk : Keeps heap heap')
    (hnew : ∀ (l : Nat) (b : HeapObject), heap'[l]? = some b →
      (∀ x, Points F heap' (.instanceField b.origin x) (b.fields x)) ∧
      ∀ n, Points F heap' (.arrayIndex b.origin) (b.elements n)) :
    Covered F ⟨stack, heap', statics⟩ where
  frames := h.frames
  locals f hf v := (h.locals f hf v).mono hk
  statics x := (h.statics x).mono hk
  fields l b hb := (hnew l b hb).1
  elements l b hb := (hnew l b hb).2
  returns := h.returns

theorem alloc {o : CtxObject} (h : Covered F ⟨stack, heap, statics⟩) :
    Covered F ⟨stack, heap ++ [⟨o, fun _ => .none, fun _ => .none⟩], statics⟩ := by
  refine h.replace keeps_append fun l b hb => ?_
  rw [List.getElem?_append] at hb
  split at hb
  · exact ⟨fun x => (h.fields l b hb x).mono keeps_append,
      fun n => (h.elements l b hb n).mono keeps_append⟩
  · rw [List.getElem?_singleton] at hb
    split at hb
    · obtain rfl := Option.some.inj hb
      exact ⟨fun x => .none, fun n => .none⟩
    · cases hb

/-- An object is written to. -/
theorem write {l : Nat} {o o' : HeapObject} (h : Covered F ⟨stack, heap, statics⟩)
    (ho : heap[l]? = some o) (heq : o'.origin = o.origin)
    (hf : ∀ x, Points F heap (.instanceField o.origin x) (o'.fields x))
    (he : ∀ n, Points F heap (.arrayIndex o.origin) (o'.elements n)) :
    Covered F ⟨stack, heap.set l o', statics⟩ := by
  have hk := keeps_set ho heq
  refine h.replace hk fun k b hb => ?_
  by_cases hlk : l = k
  · subst hlk
    obtain ⟨hl, -⟩ := List.getElem?_eq_some_iff.1 ho
    rw [List.getElem?_set_self hl] at hb
    obtain rfl := Option.some.inj hb
    rw [heq]
    exact ⟨fun x => (hf x).mono hk, fun n => (he n).mono hk⟩
  · rw [List.getElem?_set_ne hlk] at hb
    exact ⟨fun x => (h.fields k b hb x).mono hk, fun n => (h.elements k b hb n).mono hk⟩

/-- A call whose edge is there, with its receiver accounted for. -/
theorem call {e : CtxEdge} {this : Reference} (hF : Closed p setup F) (hx : Faultless p F)
    (h : Covered F ⟨f :: rest, heap, statics⟩) (he : .call e ∈ F)
    (hc : e.site.context = f.method.context)
    (hthis : ∀ b, p.body? e.callee.method = some b →
      Points F heap (.var e.callee.context b.receiver) this) :
    Covered F ⟨callFrames p e.callee this e.site.site.call e.site.site.result f rest, heap,
      statics⟩ := by
  unfold callFrames
  cases hb : p.body? e.callee.method with
  | none => exact h.assign fun v _ => .none
  | some b =>
    refine ⟨fun f' hf' => ?_, fun f' hf' v => ?_, h.statics, h.fields, h.elements, ?_⟩
    · rcases List.mem_cons.1 hf' with rfl | hf'
      · exact hF.callee he hb
      · exact h.frames f' hf'
    · rcases List.mem_cons.1 hf' with rfl | hf'
      · intro l hl
        rcases List.mem_append.1 (Frame.mem_of_bind hl) with hin | hin
        · obtain ⟨w, hw, heq⟩ := List.mem_map.1 hin
          obtain ⟨rfl, rfl⟩ := Prod.mk.inj heq
          have hp := hthis b hb
          rw [Option.mem_toList.1 hw] at hp
          exact hp l rfl
        · -- an argument and its parameter stand at the same place
          obtain ⟨i, hi, heq⟩ := List.getElem_of_mem hin
          rw [List.getElem_zip, Prod.mk.injEq, List.getElem_map] at heq
          obtain ⟨rfl, hval⟩ := heq
          have hlen := hx.arity he hb
          rw [List.length_zip, List.length_map] at hi
          have hi' : i < (e.site.site.call.args.zip b.params).length := by
            rw [List.length_zip]
            omega
          have hz := List.getElem_mem hi'
          rw [List.getElem_zip] at hz
          have hflow := hF.argument he hb hlen hz
          rw [hc] at hflow
          exact (h.top _).flow hF hflow l hval
      · exact h.locals f' hf' v
    · exact List.isChain_cons_cons.2 ⟨⟨e, he, rfl, hc, rfl⟩, h.returns⟩

theorem initial {m : Method} (hm : .reachable ⟨[], m⟩ ∈ F) : Covered F (.initial m) where
  frames f hf := by
    obtain rfl := List.mem_singleton.1 hf
    exact hm
  locals f hf v := by
    obtain rfl := List.mem_singleton.1 hf
    exact .none
  statics x := .none
  fields l b hb := by cases hb
  elements l b hb := by cases hb
  returns := List.isChain_singleton _

theorem pop (h : Covered F ⟨f :: rest, heap, statics⟩) : Covered F ⟨rest, heap, statics⟩ where
  frames f' hf' := h.frames f' (List.mem_cons_of_mem _ hf')
  locals f' hf' := h.locals f' (List.mem_cons_of_mem _ hf')
  statics := h.statics
  fields := h.fields
  elements := h.elements
  returns := h.returns.tail

/-- A value goes back to the caller. -/
theorem ret {stmt : Stmt} {value : Option Var} (hF : Closed p setup F) (hx : Faultless p F)
    (h : Covered F ⟨f :: g :: rest, heap, statics⟩) (hr : f.Runs p stmt)
    (hc : stmt.command = .ret value) :
    Covered F ⟨g.assign f.result (value.bind f.locals) :: rest, heap, statics⟩ := by
  refine h.pop.assign fun w hw => ?_
  cases value with
  | none => exact .none
  | some v =>
    -- the edge through which the frame was entered has its result wired
    obtain ⟨b, hb, hs⟩ := hr
    obtain ⟨e, he, hf, hg, hres⟩ := (List.isChain_cons_cons.1 h.returns).1
    rw [← hf] at hb
    have hflow := hF.result he hb (hx.arity he hb) (hres.trans hw)
      (Body.mem_returnVars.2 ⟨stmt, hs, hc⟩)
    rw [hf, hg] at hflow
    exact (h.top v).flow hF hflow

/-- A step stays within what is concluded, and a call that it makes has its edge. -/
theorem step {c c' : Config} {e? : Option CtxEdge} (hF : Closed p setup F) (hx : Faultless p F)
    (h : Covered F c) (hs : Step p setup.selector c e? c') :
    Covered F c' ∧ ∀ e, e? = some e → .call e ∈ F := by
  have no_call : Covered F c' → Covered F c' ∧ ∀ e, Option.none = some e → .call e ∈ F :=
    fun h' => ⟨h', fun e he => by cases he⟩
  cases hs with
  | skip => exact no_call h
  | alloc hr hc =>
    refine no_call (h.alloc.set fun l hl => ?_)
    obtain rfl := Option.some.inj hl
    exact ⟨_, by rw [List.getElem?_concat_length], hF.alloc (h.executes hr) hc⟩
  | literal hr hc => exact no_call (h.set .none)
  | binary hr hc => exact no_call (h.set .none)
  | copy hr hc => exact no_call (h.set ((h.top _).flow hF (hF.copy (h.executes hr) hc)))
  | loadStatic hr hc =>
    exact no_call (h.set ((h.statics _).flow hF (hF.staticLoad (h.executes hr) hc)))
  | @storeStatic f rest heap statics stmt v x hr hc =>
    have hv := (h.top v).flow hF (hF.staticStore (h.executes hr) hc)
    exact no_call ⟨h.frames, h.locals, Points.update hv h.statics, h.fields, h.elements, h.returns⟩
  | @loadField f rest heap statics stmt v b x l o hr hc hl ho =>
    have hb := h.top b
    rw [hl] at hb
    exact no_call (h.set ((h.fields l o ho x).flow hF
      (hF.fieldLoad (hb.holds ho) (h.executes hr).has hc)))
  | @storeField f rest heap statics stmt v b x l o hr hc hl ho =>
    have hb := h.top b
    rw [hl] at hb
    have hv := (h.top v).flow hF (hF.fieldStore (hb.holds ho) (h.executes hr).has hc)
    exact no_call (h.write ho rfl (Points.update hv (h.fields l o ho)) (h.elements l o ho))
  | @loadElement f rest heap statics stmt v b i l o n hr hc hl ho =>
    have hb := h.top b
    rw [hl] at hb
    exact no_call (h.set ((h.elements l o ho n).flow hF
      (hF.elementLoad (hb.holds ho) (h.executes hr).has hc)))
  | @storeElement f rest heap statics stmt v b i l o n hr hc hl ho =>
    have hb := h.top b
    rw [hl] at hb
    have hv := (h.top v).flow hF (hF.elementStore (hb.holds ho) (h.executes hr).has hc)
    exact no_call (h.write ho rfl (h.fields l o ho)
      (Points.update (q := fun _ => .arrayIndex o.origin) hv (h.elements l o ho)))
  | @staticCall f rest heap statics stmt r c callee hr hc hst hres =>
    have he := hF.staticCall (h.executes hr) hc hst (staticCallee_of_resolve hres)
    refine ⟨call hF hx h he rfl fun b _ => .none, fun e heq => ?_⟩
    obtain rfl := Option.some.inj heq
    exact he
  | @objectCall f rest heap statics stmt r c b l o callee hr hc hb hl ho hent =>
    have hbase := h.top b
    rw [hl] at hbase
    have hcallee := instanceCallee_of_entered (o := o.origin) hent
    have he := hF.instanceCall (hbase.holds ho) (h.executes hr).has hc hb hcallee
    refine ⟨call hF hx h he rfl fun b' hb' => ?_, fun e heq => ?_⟩
    · intro l' hl'
      obtain rfl := Option.some.inj hl'
      exact ⟨o, ho, hF.receiver (hbase.holds ho) (h.executes hr).has hc hb hcallee hb'⟩
    · obtain rfl := Option.some.inj heq
      exact he
  | ret hr hc => exact no_call (h.ret hF hx hr hc)
  | exit hr hc => exact no_call h.pop

/-- A whole run. -/
theorem run {m : Method} {taken : List CtxEdge} {c : Config} (hF : Closed p setup F)
    (hx : Faultless p F) (hm : m ∈ setup.entries) (hr : Run p setup.selector m taken c) :
    Covered F c ∧ ∀ e ∈ taken, .call e ∈ F := by
  induction hr with
  | start => exact ⟨initial (hF.entry m hm), fun e he => absurd he List.not_mem_nil⟩
  | step _ hs ih =>
    obtain ⟨h', he⟩ := ih.1.step hF hx hs
    refine ⟨h', fun e hin => ?_⟩
    rcases List.mem_append.1 hin with hin | hin
    · exact ih.2 e hin
    · exact he e (Option.mem_toList.1 hin)

end Covered

/-! ## Soundness -/

/-- The object that a reference leads to. -/
def Heap.Holds (heap : Heap) (x : Reference) (o : HeapObject) : Prop :=
  ∃ l, x = some l ∧ heap[l]? = some o

/-- What an execution from an entry method does, a finished analysis has found: the methods on the
stack are reachable, the calls made are edges of their sites, and every object that a variable, a
static field, a field of an object or an element of an array holds is in the set of that pointer. -/
theorem analyze_sound {fuel : Nat} {st : State} {m : Method} {taken : List CtxEdge} {c : Config}
    (h : analyze fuel p setup .empty = (.ok (), st)) (hm : m ∈ setup.entries)
    (hr : Run p setup.selector m taken c) :
    (∀ f ∈ c.stack, f.method ∈ st.calls.reachable) ∧
    (∀ e ∈ taken, e ∈ st.calls.edgesFrom e.site) ∧
    (∀ f ∈ c.stack, ∀ v o, c.heap.Holds (f.locals v) o →
      o.origin ∈ st.objectsOf (varIn f.method.context v)) ∧
    (∀ x o, c.heap.Holds (c.statics x) o → o.origin ∈ st.objectsOf (.staticField x)) ∧
    (∀ b ∈ c.heap, ∀ x o, c.heap.Holds (b.fields x) o →
      o.origin ∈ st.objectsOf (.instanceField b.origin x)) ∧
    ∀ b ∈ c.heap, ∀ n o, c.heap.Holds (b.elements n) o →
      o.origin ∈ st.objectsOf (.arrayIndex b.origin) := by
  obtain ⟨st₀, hs, hreach, hp⟩ := analyze_eq_ok h
  have howed := (Owed.start hs).reaches hreach
  have hgrouped : st.calls.Grouped := by
    have hw := start_within fuel (closed_possible p setup)
    rw [hs] at hw
    exact (hreach.within (closed_possible p setup) hw).grouped
  obtain ⟨hc, hcalls⟩ := Covered.run (howed.closed hp) howed.faultless hm hr
  have held : ∀ {q x o}, Points st.conclusions c.heap q x → c.heap.Holds x o →
      o.origin ∈ st.objectsOf q := by
    rintro q x o hx ⟨l, rfl, ho⟩
    exact hx.holds ho
  refine ⟨hc.frames, fun e he => ?_, fun f hf v o ho => held (hc.locals f hf v) ho,
    fun x o ho => held (hc.statics x) ho, fun b hb x o ho => ?_, fun b hb n o ho => ?_⟩
  · have hedge := (CallGraph.hasEdge_iff hgrouped).2 (hcalls e he)
    simpa only [CallGraph.hasEdge, decide_eq_true_eq] using hedge
  · obtain ⟨l, hl⟩ := List.mem_iff_getElem?.1 hb
    exact held (hc.fields l b hl x) ho
  · obtain ⟨l, hl⟩ := List.mem_iff_getElem?.1 hb
    exact held (hc.elements l b hl n) ho

end

/-! ### A run with a call -/

namespace SelfCall

def owner : ClassRef := ⟨0, "A"⟩

def main : Method := ⟨0, owner, ⟨"main", [], .void⟩, true, false, false⟩

def self : Method := ⟨1, owner, ⟨"self", [], .object owner⟩, false, false, false⟩

def hierarchy : Hierarchy :=
  let h := (Hierarchy.empty.addClass "A" none [] false false).2
  let h := (h.addMethod owner main.signature true false false).2
  (h.addMethod owner self.signature false false false).2

def x : Var := ⟨0, "x", .object owner, main⟩

def y : Var := ⟨1, "y", .object owner, main⟩

def this : Var := ⟨0, "this", .object owner, self⟩

def make : Stmt := ⟨⟨0, 1, main⟩, .alloc x (.object owner)⟩

def ask : Stmt := ⟨⟨1, 2, main⟩, .invoke (some y) ⟨.virtual x, self.ref, []⟩⟩

def answer : Stmt := ⟨⟨0, 1, self⟩, .ret (some this)⟩

def mainBody : Body := ⟨main, none, [], [x, y], [make, ask, ⟨⟨2, 3, main⟩, .ret none⟩]⟩

def selfBody : Body := ⟨self, some this, [], [this], [answer]⟩

/-- The main method makes an object and asks it for itself. -/
def program : Program := ⟨hierarchy, OrderedMap.ofList [(main, mainBody), (self, selfBody)]⟩

def setup : Setup := ⟨[main], .limited .object 1 0, 0⟩

def final : State := (analyze 20 program setup .empty).2

theorem analyze_eq : analyze 20 program setup .empty = (.ok (), final) := rfl

def object : HeapObject := ⟨⟨[], ⟨make.place, .object owner⟩⟩, fun _ => none, fun _ => none⟩

def site : CtxCallSite := ⟨[], ⟨ask.place, some y, ⟨.virtual x, self.ref, []⟩⟩⟩

def callee : CtxMethod := calleeAt setup.selector site (some object.origin) self

def caller : Frame := ⟨⟨[], main⟩, Function.update (fun _ => none) x (some 0), none⟩

/-- The main method has made its object, called it and got it back. -/
def last : Config := ⟨[caller.set y (some 0)], [object], fun _ => none⟩

theorem run_last : Run program setup.selector main [⟨.virtual, site, callee⟩] last := by
  have hmake : Frame.Runs program ⟨⟨[], main⟩, fun _ => none, none⟩ make :=
    ⟨mainBody, rfl, by decide⟩
  have hask : caller.Runs program ask := ⟨mainBody, rfl, by decide⟩
  have hanswer : Frame.Runs program (.enter callee selfBody (some 0) [] (some y)) answer :=
    ⟨selfBody, rfl, by decide⟩
  have h₁ : Step program setup.selector (.initial main) none ⟨[caller], [object], fun _ => none⟩ :=
    .alloc hmake rfl
  have h₂ : Step program setup.selector ⟨[caller], [object], fun _ => none⟩
      (some ⟨.virtual, site, callee⟩)
      ⟨[.enter callee selfBody (some 0) [] (some y), caller], [object], fun _ => none⟩ :=
    .objectCall hask rfl rfl rfl rfl rfl
  have h₃ : Step program setup.selector
      ⟨[.enter callee selfBody (some 0) [] (some y), caller], [object], fun _ => none⟩ none last :=
    .ret hanswer rfl
  exact ((Run.start.step h₁).step h₂).step h₃

theorem analyze_sound_self :
    analyze 20 program setup .empty = (.ok (), final) ∧ main ∈ setup.entries ∧
    Run program setup.selector main [⟨.virtual, site, callee⟩] last ∧
    ⟨.virtual, site, callee⟩ ∈ final.calls.edgesFrom site ∧
    object.origin ∈ final.objectsOf (varIn [] y) := by
  obtain ⟨-, hcalls, hlocals, -⟩ := analyze_sound analyze_eq List.mem_cons_self run_last
  exact ⟨analyze_eq, List.mem_cons_self, run_last, hcalls _ List.mem_cons_self,
    hlocals _ List.mem_cons_self y object ⟨0, rfl, rfl⟩⟩

end SelfCall

end ObjectFlow.PointsTo
