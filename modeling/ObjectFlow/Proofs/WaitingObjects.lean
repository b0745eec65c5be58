import Mathlib.Data.List.DropRight
import Mathlib.Logic.Function.Basic
import ObjectFlow.Proofs.Containers
import ObjectFlow.Proofs.Histories
/-!
# Nothing that waits is lost

A pointer is queued when objects are added for it, and what is added while it waits joins what
waits already. So the pointers are taken in the order in which they began to wait, each with
all that was added for it since it was last taken. The objects that wait are in sets of their
own, so whatever becomes of a set that was passed in, or of a set that was taken, changes
neither what waits nor any other set.
-/

namespace ObjectFlow

/-- A set is what its own list makes. -/
theorem OrderedSet.ofList_toList {α : Type} [DecidableEq α] (s : OrderedSet α) :
    ofList s.toList = s :=
  OrderedSet.ext (toList_insertAll_of_nodup s.nodup)

/-- Only what is new needs to be added. -/
theorem OrderedSet.union_missing {α : Type} [DecidableEq α] (s t : OrderedSet α) :
    s.union (s.missing t) = s.union t := by
  refine OrderedSet.ext ?_
  rw [union, union, toList_insertAll_eq, toList_insertAll_eq]
  show _ ++ ((t.toList.filter _).filter _).eraseDups = _
  simp only [List.filter_filter, Bool.and_self]

/-- Without its first key a map lists the others. -/
theorem OrderedMap.keys_erase_of_cons {κ ν : Type} [DecidableEq κ] {m : OrderedMap κ ν} {k : κ}
    {l : List κ} (h : m.keys = k :: l) : (m.erase k).keys = l := by
  have hn : k ∉ l := (List.nodup_cons.1 (h ▸ m.nodup : (k :: l).Nodup)).1
  have hfilter : (m.erase k).keys = m.keys.filter fun j => decide (j ≠ k) := by
    rw [keys, keys, List.filter_map]
    rfl
  rw [hfilter, h, List.filter_cons_of_neg (by simp)]
  exact List.filter_eq_self.2 fun j hj => decide_eq_true fun hjk => hn (hjk ▸ hj)

/-! ## What is owed to a pointer -/

namespace Pending

/-- What happens to a list of pending objects. -/
inductive Event (π ω : Type) where
  | added (p : π) (objs : PointsToSet ω)
  | polled (p : π) (objs : PointsToSet ω)

variable {π ω : Type} [DecidableEq π]

namespace Event

def adds (p : π) : Event π ω → Bool
  | added q _ => decide (q = p)
  | polled _ _ => false

def polls (p : π) : Event π ω → Bool
  | added _ _ => false
  | polled q _ => decide (q = p)

/-- The objects that an event adds for a pointer. -/
def objectsFor (p : π) : Event π ω → List ω
  | added q objs => if q = p then objs.toList else []
  | polled _ _ => []

end Event

/-- The events since a pointer was last polled. -/
def since (p : π) (es : List (Event π ω)) : List (Event π ω) := es.rtakeWhile fun e => !e.polls p

/-- Something was added for the pointer since it was last polled, if only no objects. -/
def Waits (p : π) (es : List (Event π ω)) : Prop := ∃ e ∈ since p es, e.adds p = true

instance (p : π) (es : List (Event π ω)) : Decidable (Waits p es) :=
  inferInstanceAs (Decidable (∃ e ∈ since p es, e.adds p = true))

/-- The objects added for a pointer since it was last polled. -/
def owed (p : π) (es : List (Event π ω)) : List ω := (since p es).flatMap (·.objectsFor p)

/-- The pointer that begins to wait. -/
def begins? (before : List (Event π ω)) : Event π ω → Option π
  | .added p _ => if Waits p before then none else some p
  | .polled _ _ => none

/-- The pointer that is taken. -/
def taken? : Event π ω → Option π
  | .added _ _ => none
  | .polled p _ => some p

variable {p q : π} {es : List (Event π ω)} {objs : PointsToSet ω}

theorem since_added (p q : π) (es : List (Event π ω)) (objs : PointsToSet ω) :
    since p (es ++ [.added q objs]) = since p es ++ [.added q objs] :=
  List.rtakeWhile_concat_pos _ _ _ rfl

theorem since_polled_self (p : π) (es : List (Event π ω)) (objs : PointsToSet ω) :
    since p (es ++ [.polled p objs]) = [] :=
  List.rtakeWhile_concat_neg _ _ _ (by simp [Event.polls])

theorem since_polled_of_ne (h : q ≠ p) (es : List (Event π ω)) (objs : PointsToSet ω) :
    since p (es ++ [.polled q objs]) = since p es ++ [.polled q objs] :=
  List.rtakeWhile_concat_pos _ _ _ (by simp [Event.polls, h])

theorem not_waits_nil (p : π) : ¬ Waits p ([] : List (Event π ω)) := nofun

theorem waits_added : Waits p (es ++ [.added q objs]) ↔ Waits p es ∨ q = p := by
  simp [Waits, since_added, Event.adds, or_and_right, exists_or]

theorem waits_polled : Waits p (es ++ [.polled q objs]) ↔ Waits p es ∧ q ≠ p := by
  by_cases h : q = p
  · subst h
    simp [Waits, since_polled_self]
  · simp [Waits, since_polled_of_ne h, Event.adds, h, or_and_right, exists_or]

theorem owed_added : owed p (es ++ [.added q objs]) =
    owed p es ++ if q = p then objs.toList else [] := by
  simp [owed, since_added, Event.objectsFor]

theorem owed_polled : owed p (es ++ [.polled q objs]) = if q = p then [] else owed p es := by
  by_cases h : q = p
  · subst h
    simp [owed, since_polled_self]
  · simp [owed, since_polled_of_ne h, Event.objectsFor, h]

/-- Nothing is owed to a pointer that does not wait. -/
theorem owed_of_not_waits (h : ¬ Waits p es) : owed p es = [] := by
  refine List.flatMap_eq_nil_iff.2 fun e he => ?_
  cases e with
  | polled q objs => rfl
  | added q objs => exact if_neg fun hq => h ⟨_, he, decide_eq_true hq⟩

/-! ## A list keeps what is owed -/

variable [DecidableEq ω] {w rest : Pending π ω}

/-- What an event makes of the list. -/
def happen (w : Pending π ω) : Event π ω → Pending π ω
  | .added p objs => w.add p objs
  | .polled _ _ => (w.poll?.map Prod.snd).getD w

/-- The event can happen: a poll takes the pointer that has waited longest, with its objects. -/
def Allows (w : Pending π ω) : Event π ω → Prop
  | .added _ _ => True
  | .polled p objs => ∃ rest, w.poll? = some ((p, objs), rest)

/-- The list after some events. -/
def after (es : List (Event π ω)) : Pending π ω := es.foldl happen .empty

theorem after_concat (es : List (Event π ω)) (e : Event π ω) :
    after (es ++ [e]) = (after es).happen e := List.foldl_concat ..

theorem happen_polled (h : w.poll? = some ((p, objs), rest)) : w.happen (.polled p objs) = rest := by
  rw [happen, h, Option.map_some, Option.getD_some]

theorem get?_add (w : Pending π ω) (p q : π) (objs : PointsToSet ω) :
    (w.add p objs).objects.get? q =
      if q = p then some ((w.objects.get? p).elim objs (·.union objs)) else w.objects.get? q := by
  unfold add
  cases h : w.objects.get? p with
  | none => exact OrderedMap.get?_insert ..
  | some waiting => exact OrderedMap.get?_insert ..

theorem pointers_add (w : Pending π ω) (p : π) (objs : PointsToSet ω) :
    (w.add p objs).pointers = if p ∈ w.pointers then w.pointers else w.pointers ++ [p] := by
  unfold add
  cases h : w.objects.get? p with
  | none => exact OrderedMap.keys_insert ..
  | some waiting => exact OrderedMap.keys_insert ..

omit [DecidableEq π] [DecidableEq ω] in
theorem pointers_of_poll? (h : w.poll? = some ((p, objs), rest)) :
    w.pointers = p :: rest.pointers := by
  match w, h with
  | ⟨⟨(p, objs) :: es, hn⟩⟩, rfl => rfl

omit [DecidableEq ω] in
theorem get?_of_poll? (h : w.poll? = some ((p, objs), rest)) (q : π) :
    w.objects.get? p = some objs ∧
      rest.objects.get? q = if q = p then none else w.objects.get? q := by
  obtain ⟨waiting, hget, heq⟩ := Option.map_eq_some_iff.1 (take?_of_poll? h)
  obtain ⟨rfl, rfl⟩ := Prod.mk.inj heq
  exact ⟨hget, OrderedMap.get?_erase ..⟩

omit [DecidableEq π] [DecidableEq ω] in
theorem exists_poll? {l : List π} (h : w.pointers = p :: l) :
    ∃ objs rest, w.poll? = some ((p, objs), rest) := by
  match w, h with
  | ⟨⟨(p, objs) :: es, hn⟩⟩, rfl => exact ⟨objs, _, rfl⟩

/-- The pointers wait in the order in which they began to, each with what is owed to it. -/
structure Accounts (es : List (Event π ω)) (w : Pending π ω) : Prop where
  order : FirstInFirstOut begins? (fun _ => taken?) es w.pointers
  waits : ∀ p, p ∈ w.pointers ↔ Waits p es
  objects : ∀ p objs, w.objects.get? p = some objs → objs = OrderedSet.ofList (owed p es)

theorem accounts_empty : Accounts [] (empty : Pending π ω) :=
  ⟨.nil, fun p => iff_of_false List.not_mem_nil (not_waits_nil p), nofun⟩

theorem Accounts.added (h : Accounts es w) (p : π) (objs : PointsToSet ω) :
    Accounts (es ++ [.added p objs]) (w.add p objs) := by
  have hmem : ∀ q, q ∈ (w.add p objs).pointers ↔ q ∈ w.pointers ∨ q = p := fun q => by
    rw [pointers_add]
    split
    · rename_i hp
      exact ⟨.inl, fun hq => hq.elim id fun he => he ▸ hp⟩
    · rw [List.mem_append, List.mem_singleton]
  refine ⟨?_, fun q => ?_, fun q objs' hq => ?_⟩
  · rw [pointers_add]
    by_cases hp : p ∈ w.pointers
    · rw [if_pos hp]
      exact h.order.skip (if_pos ((h.waits p).1 hp)) rfl
    · rw [if_neg hp]
      exact h.order.enter (if_neg (mt (h.waits p).2 hp)) rfl
  · rw [hmem, h.waits, waits_added, eq_comm]
  · rw [get?_add] at hq
    rw [owed_added]
    by_cases hqp : q = p
    · subst hqp
      rw [if_pos rfl] at hq ⊢
      obtain rfl := Option.some.inj hq
      rw [OrderedSet.ofList_append]
      cases hw : w.objects.get? q with
      | none =>
        -- nothing was owed to a pointer that begins to wait
        have hnot : ¬ Waits q es := mt (h.waits q).2 (OrderedMap.get?_eq_none_iff.1 hw)
        rw [owed_of_not_waits hnot]
        exact (OrderedSet.ofList_toList objs).symm
      | some waiting =>
        rw [← h.objects q waiting hw]
        rfl
    · rw [if_neg hqp] at hq
      rw [if_neg (Ne.symm hqp), List.append_nil]
      exact h.objects q objs' hq

theorem Accounts.polled (h : Accounts es w) (hpoll : w.poll? = some ((p, objs), rest)) :
    Accounts (es ++ [.polled p objs]) rest := by
  have hlist := pointers_of_poll? hpoll
  refine ⟨?_, fun q => ?_, fun q objs' hq => ?_⟩
  · exact (hlist ▸ h.order).leave rfl rfl
  · have hnodup : (p :: rest.pointers).Nodup := hlist ▸ w.objects.nodup
    rw [waits_polled, ← h.waits, hlist, List.mem_cons]
    constructor
    · intro hq
      exact ⟨.inr hq, fun hpq => (List.nodup_cons.1 hnodup).1 (hpq ▸ hq)⟩
    · rintro ⟨hq, hne⟩
      exact hq.resolve_left (Ne.symm hne)
  · rw [(get?_of_poll? hpoll q).2] at hq
    by_cases hqp : q = p
    · rw [if_pos hqp] at hq
      cases hq
    · rw [if_neg hqp] at hq
      rw [owed_polled, if_neg (Ne.symm hqp)]
      exact h.objects q objs' hq

theorem Accounts.happen {e : Event π ω} (h : Accounts es w) (he : w.Allows e) :
    Accounts (es ++ [e]) (w.happen e) := by
  cases e with
  | added p objs => exact h.added p objs
  | polled p objs =>
    obtain ⟨rest, hrest⟩ := he
    rw [happen_polled hrest]
    exact h.polled hrest

end Pending

/-! ## Sets as objects -/

/-- Points-to sets by the cells they are in, with the list of pending objects. Each entry of the
list has the cell of a set. -/
structure PendingSets (π ω : Type) where
  cells : Nat → PointsToSet ω
  /-- No cell from this number on has been given out. -/
  next : Nat
  queue : List π
  entries : OrderedMap π Nat

/-- What callers do with sets and with the list. -/
inductive SetRequest (π ω : Type) where
  /-- A caller makes a set. -/
  | make (objs : PointsToSet ω)
  /-- A caller changes a set. -/
  | write (c : Nat) (objs : PointsToSet ω)
  /-- The objects of a set are added for a pointer. -/
  | add (p : π) (c : Nat)
  | poll

inductive SetAnswer (π ω : Type) where
  | made (c : Nat)
  | written
  | added (p : π) (objs : PointsToSet ω)
  | polled (p : π) (c : Nat) (objs : PointsToSet ω)
  /-- No caller has the set, or nothing waits. -/
  | refused
  /-- A queued pointer has no entry. -/
  | missing (p : π)

/-- What an answer tells about the list. -/
def SetAnswer.event? {π ω : Type} : SetAnswer π ω → Option (Pending.Event π ω)
  | .added p objs => some (.added p objs)
  | .polled p _ objs => some (.polled p objs)
  | _ => none

/-- The request changes the set itself. -/
def SetRequest.Writes {π ω : Type} (c : Nat) : SetRequest π ω → Prop
  | .write d _ => d = c
  | _ => False

namespace PendingSets

variable {π ω : Type}

def empty : PendingSets π ω := ⟨fun _ => ∅, 0, [], ∅⟩

/-- A set that callers know: it was given out and is no entry of the list. -/
def Held (s : PendingSets π ω) (c : Nat) : Prop := c < s.next ∧ c ∉ s.entries.values

instance (s : PendingSets π ω) (c : Nat) : Decidable (s.Held c) :=
  inferInstanceAs (Decidable (_ ∧ _))

def make (s : PendingSets π ω) (objs : PointsToSet ω) : PendingSets π ω :=
  { s with cells := Function.update s.cells s.next objs, next := s.next + 1 }

def write (s : PendingSets π ω) (c : Nat) (objs : PointsToSet ω) : PendingSets π ω :=
  { s with cells := Function.update s.cells c objs }

variable [DecidableEq π]

/-- A new entry is a copy of the set. -/
def begin (s : PendingSets π ω) (p : π) (c : Nat) : PendingSets π ω :=
  { s.make (s.cells c) with queue := s.queue ++ [p], entries := s.entries.insert p s.next }

def poll (s : PendingSets π ω) : SetAnswer π ω × PendingSets π ω :=
  match s.queue with
  | [] => (.refused, s)
  | p :: rest =>
    match s.entries.get? p with
    | none => (.missing p, { s with queue := rest })
    | some c =>
      (.polled p c (s.cells c), { s with queue := rest, entries := s.entries.erase p })

variable [DecidableEq ω]

/-- An entry that is there takes the objects of the set. -/
def add (s : PendingSets π ω) (p : π) (c : Nat) : PendingSets π ω :=
  match s.entries.get? p with
  | none => s.begin p c
  | some d => s.write d ((s.cells d).union (s.cells c))

def ask (s : PendingSets π ω) : SetRequest π ω → SetAnswer π ω × PendingSets π ω
  | .make objs => (.made s.next, s.make objs)
  | .write c objs => if s.Held c then (.written, s.write c objs) else (.refused, s)
  | .add p c => if s.Held c then (.added p (s.cells c), s.add p c) else (.refused, s)
  | .poll => s.poll

/-- What happened to the list. -/
def events (history : List (SetRequest π ω × SetAnswer π ω)) : List (Pending.Event π ω) :=
  history.filterMap fun e => e.2.event?

/-! ## Entries have sets of their own -/

/-- The list stands for pending objects, and no two entries share a set. -/
structure Shows (s : PendingSets π ω) (w : Pending π ω) : Prop where
  queue : s.queue = w.pointers
  keys : s.entries.keys = w.pointers
  objects : ∀ p, w.objects.get? p = (s.entries.get? p).map s.cells
  own : ∀ p q c, s.entries.get? p = some c → s.entries.get? q = some c → p = q
  given : ∀ p c, s.entries.get? p = some c → c < s.next

variable {s : PendingSets π ω} {w rest : Pending π ω} {p : π} {c : Nat} {objs : PointsToSet ω}

omit [DecidableEq ω] in
theorem held_iff : s.Held c ↔ c < s.next ∧ ∀ p, s.entries.get? p ≠ some c := by
  rw [Held, OrderedMap.mem_values_iff, not_exists]

omit [DecidableEq ω] in
theorem shows_empty : (empty : PendingSets π ω).Shows .empty :=
  ⟨rfl, rfl, fun _ => rfl, nofun, nofun⟩

omit [DecidableEq ω] in
/-- A set that is no entry may hold anything. -/
theorem Shows.write (h : s.Shows w) (hc : ∀ p, s.entries.get? p ≠ some c) (objs : PointsToSet ω) :
    (s.write c objs).Shows w := by
  refine ⟨h.queue, h.keys, fun p => ?_, h.own, h.given⟩
  rw [h.objects]
  refine Option.map_congr fun d hd => (Function.update_of_ne ?_ ..).symm
  rintro rfl
  exact hc p hd

omit [DecidableEq ω] in
theorem Shows.make (h : s.Shows w) (objs : PointsToSet ω) : (s.make objs).Shows w := by
  have hnew : ∀ p, s.entries.get? p ≠ some s.next := fun p hp => Nat.lt_irrefl _ (h.given p _ hp)
  have hw := h.write hnew objs
  exact ⟨hw.queue, hw.keys, hw.objects, hw.own, fun p c hp => Nat.lt_succ_of_lt (h.given p c hp)⟩

theorem Shows.begin (h : s.Shows w) (hp : s.entries.get? p = none) (c : Nat) :
    (s.begin p c).Shows (w.add p (s.cells c)) := by
  have hnew : ∀ q, s.entries.get? q ≠ some s.next := fun q hq => Nat.lt_irrefl _ (h.given q _ hq)
  have hkey : p ∉ s.entries.keys := OrderedMap.get?_eq_none_iff.1 hp
  have hget : ∀ q, (s.begin p c).entries.get? q =
      if q = p then some s.next else s.entries.get? q := OrderedMap.get?_insert s.entries p s.next
  refine ⟨?_, ?_, fun q => ?_, fun q q' d hq hq' => ?_, fun q d hq => ?_⟩
  · rw [Pending.pointers_add, ← h.keys, if_neg hkey, h.keys, ← h.queue]
    rfl
  · rw [Pending.pointers_add, ← h.keys, if_neg hkey]
    exact (OrderedMap.keys_insert ..).trans (if_neg hkey)
  · rw [Pending.get?_add, h.objects, h.objects, hget, hp]
    split
    · show some (s.cells c) = some (Function.update s.cells s.next (s.cells c) s.next)
      rw [Function.update_self]
    · refine Option.map_congr fun d hd => (Function.update_of_ne ?_ ..).symm
      rintro rfl
      exact hnew q hd
  · rw [hget] at hq hq'
    split at hq <;> split at hq'
    · simp [*]
    · exact absurd (hq'.trans hq.symm) (hnew q')
    · exact absurd (hq.trans hq'.symm) (hnew q)
    · exact h.own q q' d hq hq'
  · rw [hget] at hq
    split at hq
    · obtain rfl := Option.some.inj hq
      exact Nat.lt_succ_self _
    · exact Nat.lt_succ_of_lt (h.given q d hq)

theorem ask_write (h : s.Held c) (objs : PointsToSet ω) :
    s.ask (.write c objs) = (.written, s.write c objs) := if_pos h

theorem ask_write_of_not_held (h : ¬ s.Held c) (objs : PointsToSet ω) :
    s.ask (.write c objs) = (.refused, s) := if_neg h

theorem ask_add (h : s.Held c) (p : π) : s.ask (.add p c) = (.added p (s.cells c), s.add p c) :=
  if_pos h

theorem ask_add_of_not_held (h : ¬ s.Held c) (p : π) : s.ask (.add p c) = (.refused, s) := if_neg h

theorem ask_poll_nil (h : s.queue = []) : s.ask .poll = (.refused, s) := by
  simp only [PendingSets.ask, PendingSets.poll, h]

theorem Shows.add (h : s.Shows w) (p : π) (c : Nat) : (s.add p c).Shows (w.add p (s.cells c)) := by
  unfold PendingSets.add
  cases hp : s.entries.get? p with
  | none => exact h.begin hp c
  | some d =>
    have hkey : p ∈ w.pointers := h.keys ▸ OrderedMap.mem_keys_iff.2 ⟨d, hp⟩
    refine ⟨?_, ?_, fun q => ?_, h.own, h.given⟩
    · rw [Pending.pointers_add, if_pos hkey]
      exact h.queue
    · rw [Pending.pointers_add, if_pos hkey]
      exact h.keys
    · rw [Pending.get?_add, h.objects, h.objects, hp]
      split
      · rename_i hq
        subst hq
        show _ = (s.entries.get? q).map (Function.update s.cells d _)
        rw [hp, Option.map_some, Option.map_some, Function.update_self]
        rfl
      · -- the other entries have other cells
        rename_i hq
        refine Option.map_congr fun e he => (Function.update_of_ne ?_ ..).symm
        rintro rfl
        exact hq (h.own q p _ he hp)

omit [DecidableEq ω] in
theorem Shows.poll {l : List π} (h : s.Shows w) (hq : s.queue = p :: l) : ∃ c rest,
    s.entries.get? p = some c ∧ w.poll? = some ((p, s.cells c), rest) ∧
    s.poll = (.polled p c (s.cells c), { s with queue := l, entries := s.entries.erase p }) ∧
    PendingSets.Shows { s with queue := l, entries := s.entries.erase p } rest := by
  have hlist : w.pointers = p :: l := h.queue.symm.trans hq
  obtain ⟨objs, rest, hpoll⟩ := Pending.exists_poll? hlist
  have hrest := (List.cons.inj ((Pending.pointers_of_poll? hpoll).symm.trans hlist)).2
  have hobjs := (Pending.get?_of_poll? hpoll p).1
  obtain ⟨c, hc, rfl⟩ := Option.map_eq_some_iff.1 ((h.objects p).symm.trans hobjs)
  have hget : ∀ q, (s.entries.erase p).get? q = if q = p then none else s.entries.get? q :=
    OrderedMap.get?_erase s.entries p
  have hold : ∀ q d, (s.entries.erase p).get? q = some d → s.entries.get? q = some d :=
    fun q d hd => by
      rw [hget] at hd
      split at hd
      · cases hd
      · exact hd
  refine ⟨c, rest, hc, hpoll, by simp only [PendingSets.poll, hq, hc], hrest.symm, ?_,
    fun q => ?_, fun q q' d hq hq' => ?_, fun q d hq => ?_⟩
  · exact (OrderedMap.keys_erase_of_cons (h.keys.trans hlist)).trans hrest.symm
  · rw [(Pending.get?_of_poll? hpoll q).2, hget, h.objects]
    split <;> rfl
  · exact h.own q q' d (hold q d hq) (hold q' d hq')
  · exact h.given q d (hold q d hq)

/-! ## What a request does -/

/-- What is asked of the list happens to the pending objects, and nothing else happens to them. -/
theorem Shows.ask (h : s.Shows w) (r : SetRequest π ω) :
    (∀ e, (s.ask r).1.event? = some e → w.Allows e) ∧
      (s.ask r).2.Shows ((s.ask r).1.event?.elim w w.happen) := by
  cases r with
  | make objs => exact ⟨nofun, h.make objs⟩
  | write c objs =>
    by_cases hc : s.Held c
    · rw [ask_write hc]
      exact ⟨nofun, h.write (held_iff.1 hc).2 objs⟩
    · rw [ask_write_of_not_held hc]
      exact ⟨nofun, h⟩
  | add p c =>
    by_cases hc : s.Held c
    · rw [ask_add hc]
      refine ⟨fun e he => ?_, h.add p c⟩
      obtain rfl := Option.some.inj he
      trivial
    · rw [ask_add_of_not_held hc]
      exact ⟨nofun, h⟩
  | poll =>
    cases hq : s.queue with
    | nil =>
      rw [ask_poll_nil hq]
      exact ⟨nofun, h⟩
    | cons p l =>
      obtain ⟨c, rest, -, htake, hpoll, hrest⟩ := h.poll hq
      rw [PendingSets.ask, hpoll]
      refine ⟨fun e he => ?_, ?_⟩
      · obtain rfl := Option.some.inj he
        exact ⟨rest, htake⟩
      · show PendingSets.Shows _ (w.happen (.polled p (s.cells c)))
        rw [Pending.happen_polled htake]
        exact hrest

/-- A set that callers know stays known, and only who writes to it changes it. -/
theorem Shows.kept (h : s.Shows w) (hc : s.Held c) (r : SetRequest π ω) :
    (s.ask r).2.Held c ∧ (¬ r.Writes c → (s.ask r).2.cells c = s.cells c) := by
  obtain ⟨hlt, hentry⟩ := held_iff.1 hc
  have hmake : ∀ objs, (s.make objs).cells c = s.cells c := fun objs =>
    Function.update_of_ne (Nat.ne_of_lt hlt) ..
  cases r with
  | make objs =>
    exact ⟨held_iff.2 ⟨Nat.lt_succ_of_lt hlt, hentry⟩, fun _ => hmake objs⟩
  | write d objs =>
    by_cases hd : s.Held d
    · rw [ask_write hd]
      exact ⟨hc, fun hw => Function.update_of_ne (fun hcd => hw hcd.symm) ..⟩
    · rw [ask_write_of_not_held hd]
      exact ⟨hc, fun _ => rfl⟩
  | add p d =>
    by_cases hd : s.Held d
    · rw [ask_add hd, PendingSets.add]
      cases hp : s.entries.get? p with
      | none =>
        refine ⟨held_iff.2 ⟨Nat.lt_succ_of_lt hlt, fun q hq => ?_⟩, fun _ => hmake _⟩
        have hget := (OrderedMap.get?_insert s.entries p s.next q).symm.trans hq
        split at hget
        · exact Nat.ne_of_gt hlt (Option.some.inj hget)
        · exact hentry q hget
      | some e =>
        refine ⟨hc, fun _ => Function.update_of_ne ?_ ..⟩
        rintro rfl
        exact hentry p hp
    · rw [ask_add_of_not_held hd]
      exact ⟨hc, fun _ => rfl⟩
  | poll =>
    cases hq : s.queue with
    | nil =>
      rw [ask_poll_nil hq]
      exact ⟨hc, fun _ => rfl⟩
    | cons p l =>
      obtain ⟨d, rest, -, -, hpoll, -⟩ := h.poll hq
      rw [PendingSets.ask, hpoll]
      refine ⟨held_iff.2 ⟨hlt, fun q hq' => ?_⟩, fun _ => rfl⟩
      have hget := (OrderedMap.get?_erase s.entries p q).symm.trans hq'
      split at hget
      · cases hget
      · exact hentry q hget

/-! ## Histories of a list -/

/-- A list that keeps what is owed, where callers know the sets that they passed in. -/
structure Sound (history : List (SetRequest π ω × SetAnswer π ω)) (s : PendingSets π ω) : Prop where
  shows : s.Shows (Pending.after (events history))
  accounts : Pending.Accounts (events history) (Pending.after (events history))
  passed : ∀ p c objs, (.add p c, .added p objs) ∈ history → s.Held c

variable {history : List (SetRequest π ω × SetAnswer π ω)}

theorem sound_empty : Sound [] (empty : PendingSets π ω) :=
  ⟨shows_empty, Pending.accounts_empty, nofun⟩

theorem Sound.ask (h : Sound history s) (r : SetRequest π ω) :
    Sound (history ++ [(r, (s.ask r).1)]) (s.ask r).2 := by
  obtain ⟨hallows, hshows⟩ := h.shows.ask r
  have hevents : events (history ++ [(r, (s.ask r).1)]) =
      events history ++ (s.ask r).1.event?.toList := by
    simp only [events, List.filterMap_append, List.filterMap_cons, List.filterMap_nil]
    cases (s.ask r).1.event? <;> rfl
  refine ⟨?_, ?_, fun p c objs hmem => ?_⟩
  · rw [hevents]
    cases he : (s.ask r).1.event? with
    | none => simpa [he] using hshows
    | some e => simpa [he, Pending.after_concat] using hshows
  · rw [hevents]
    cases he : (s.ask r).1.event? with
    | none => simpa using h.accounts
    | some e => simpa [Pending.after_concat] using h.accounts.happen (hallows e he)
  · rcases List.mem_append.1 hmem with hmem | hmem
    · exact (h.shows.kept (h.passed p c objs hmem) r).1
    · obtain ⟨rfl, hanswer⟩ := Prod.mk.inj (List.mem_singleton.1 hmem)
      by_cases hc : s.Held c
      · exact (h.shows.kept hc _).1
      · rw [PendingSets.ask, if_neg hc] at hanswer
        cases hanswer

theorem Sound.kept_all (h : Sound history s) (hc : s.Held c) {rs : List (SetRequest π ω)}
    (hrs : ∀ r ∈ rs, ¬ r.Writes c) :
    (askAll PendingSets.ask s rs).2.Held c ∧ (askAll PendingSets.ask s rs).2.cells c = s.cells c := by
  have hall : ∃ w, (askAll PendingSets.ask s rs).2.Shows w ∧
      (askAll PendingSets.ask s rs).2.Held c ∧
      (askAll PendingSets.ask s rs).2.cells c = s.cells c := by
    refine askAll_induction
      (P := fun _ (t : PendingSets π ω) => ∃ w, t.Shows w ∧ t.Held c ∧ t.cells c = s.cells c)
      rs ⟨_, h.shows, hc, rfl⟩ fun _ t r hr ht => ?_
    obtain ⟨w, hw, ht, hcells⟩ := ht
    obtain ⟨hheld, hkept⟩ := hw.kept ht r
    exact ⟨_, (hw.ask r).2, hheld, (hkept (hrs r hr)).trans hcells⟩
  obtain ⟨-, -, hheld, hcells⟩ := hall
  exact ⟨hheld, hcells⟩

/-- What a pointer is given to do with a set that was polled for it: it takes the objects that are
new to its own set, and they are added for the pointers behind it. -/
def propagation (s : PendingSets π ω) (own polled : Nat) (behind : List π) :
    List (SetRequest π ω) :=
  let new := (s.cells own).missing (s.cells polled)
  if new.isEmpty then [.make new]
  else .make new :: .write own ((s.cells own).union new) :: behind.map fun p => .add p s.next

omit [DecidableEq π] in
theorem writes_propagation {own polled : Nat} {behind : List π} {r : SetRequest π ω}
    (hr : r ∈ s.propagation own polled behind) (hw : r.Writes c) : c = own := by
  simp only [propagation] at hr
  split at hr
  · obtain rfl := List.mem_singleton.1 hr
    cases hw
  · rcases List.mem_cons.1 hr with rfl | hr
    · cases hw
    · rcases List.mem_cons.1 hr with rfl | hr
      · exact hw.symm
      · obtain ⟨p, -, rfl⟩ := List.mem_map.1 hr
        cases hw

theorem Sound.propagated (h : Sound history s) {own : Nat} (hown : s.Held own) (polled : Nat)
    (behind : List π) : (askAll PendingSets.ask s (s.propagation own polled behind)).2.cells own =
      (s.cells own).union (s.cells polled) := by
  rw [← OrderedSet.union_missing]
  simp only [propagation]
  generalize (s.cells own).missing (s.cells polled) = new
  obtain ⟨hmade, hsame⟩ := h.shows.kept hown (.make new)
  split
  · rename_i hempty
    rw [OrderedSet.union, List.isEmpty_iff.1 hempty]
    exact hsame id
  · have hwrite : (askAll PendingSets.ask s [.make new, .write own ((s.cells own).union new)]).2 =
        (s.make new).write own ((s.cells own).union new) := congrArg Prod.snd (ask_write hmade _)
    have hnext := (h.ask (.make new)).ask (.write own ((s.cells own).union new))
    rw [ask_write hmade] at hnext
    -- what is added for the pointers behind is no write
    have hadds : ∀ r ∈ behind.map fun p => (SetRequest.add p s.next : SetRequest π ω),
        ¬ r.Writes own := by
      intro r hr hw
      obtain ⟨p, -, rfl⟩ := List.mem_map.1 hr
      exact hw
    show (askAll PendingSets.ask s ([_, _] ++ behind.map _)).2.cells own = _
    rw [askAll_append, hwrite]
    exact (hnext.kept_all hmade hadds).2.trans (Function.update_self ..)

/-- A list after a history, and what can be done with it next. -/
structure Coalesces (history : List (SetRequest π ω × SetAnswer π ω)) (s : PendingSets π ω) :
    Prop where
  queue_nodup : s.queue.Nodup
  mem_queue : ∀ p, p ∈ s.queue ↔ p ∈ s.entries.keys
  /-- The pointers in the queue are those for which something was added since their last poll. -/
  waits : ∀ p, p ∈ s.queue ↔ Pending.Waits p (events history)
  /-- Pointers are taken in the order in which they began to wait. -/
  order : FirstInFirstOut Pending.begins? (fun _ => Pending.taken?) (events history) s.queue
  /-- A poll takes the first pointer with a set of all that was added for it since its last poll,
  each object once and at its first place. No caller has had this set before. -/
  poll : ∀ p l, s.queue = p :: l → ∃ c objs t, s.ask .poll = (.polled p c objs, t) ∧
    t.queue = l ∧ objs.toList = (Pending.owed p (events history)).eraseDups ∧
    ¬ s.Held c ∧ t.Held c ∧ t.cells c = objs
  /-- The entries and the queue are those of the pending objects, which polls take in turn. -/
  shows : s.Shows (Pending.after (events history))
  takes : ∀ p objs, (Pending.after (events history)).poll?.map Prod.fst = some (p, objs) ↔
    ∃ c t, s.ask .poll = (.polled p c objs, t)
  /-- Callers have the sets that they passed in, and only who writes to a set changes it. -/
  passed : ∀ p c objs, (.add p c, .added p objs) ∈ history → s.Held c
  kept : ∀ rs c, s.Held c → (∀ r ∈ rs, ¬ r.Writes c) →
    (askAll ask s rs).2.Held c ∧ (askAll ask s rs).2.cells c = s.cells c
  /-- To propagate a set that was polled for a pointer gives its objects to the pointer's own set,
  and changes no other. -/
  propagates : ∀ own polled behind c, s.Held c →
    (askAll ask s (s.propagation own polled behind)).2.cells c =
      if c = own then (s.cells own).union (s.cells polled) else s.cells c

theorem Sound.poll (h : Sound history s) {l : List π} (hq : s.queue = p :: l) :
    ∃ c objs t, s.ask .poll = (.polled p c objs, t) ∧ t.queue = l ∧
      objs.toList = (Pending.owed p (events history)).eraseDups ∧
      ¬ s.Held c ∧ t.Held c ∧ t.cells c = objs := by
  obtain ⟨c, rest, hc, htake, hpoll, hrest⟩ := h.shows.poll hq
  refine ⟨c, s.cells c, _, hpoll, rfl, ?_, fun hheld => (held_iff.1 hheld).2 p hc, ?_, rfl⟩
  · rw [h.accounts.objects p _ (Pending.get?_of_poll? htake p).1, OrderedSet.toList_ofList]
  · refine held_iff.2 ⟨h.shows.given p c hc, fun q hq' => ?_⟩
    have hget := (OrderedMap.get?_erase s.entries p q).symm.trans hq'
    split at hget
    · cases hget
    · rename_i hne
      exact hne (h.shows.own q p c hget hc)

theorem Sound.takes (h : Sound history s) (p : π) (objs : PointsToSet ω) :
    (Pending.after (events history)).poll?.map Prod.fst = some (p, objs) ↔
      ∃ c t, s.ask .poll = (.polled p c objs, t) := by
  cases hq : s.queue with
  | nil =>
    refine iff_of_false (fun htake => ?_) ?_
    · obtain ⟨⟨entry, rest⟩, htake, rfl⟩ := Option.map_eq_some_iff.1 htake
      cases (h.shows.queue.symm.trans hq).symm.trans (Pending.pointers_of_poll? htake)
    · rintro ⟨c, t, hpoll⟩
      cases (ask_poll_nil hq).symm.trans hpoll
  | cons q l =>
    obtain ⟨c, rest, -, htake, hpoll, -⟩ := h.shows.poll hq
    rw [htake, PendingSets.ask, hpoll, Option.map_some]
    constructor
    · intro heq
      obtain ⟨rfl, rfl⟩ := Prod.mk.inj (Option.some.inj heq)
      exact ⟨c, _, rfl⟩
    · rintro ⟨c', t, heq⟩
      obtain ⟨rfl, rfl, rfl⟩ := SetAnswer.polled.inj (Prod.mk.inj heq).1
      rfl

/-- Whatever is done with a list and with the sets that are passed to it and taken from it, the
list keeps what is owed to each pointer and gives it out in turn. -/
theorem requests_coalesce (rs : List (SetRequest π ω)) :
    Coalesces (askAll ask empty rs).1 (askAll ask empty rs).2 := by
  have h : Sound (askAll ask empty rs).1 (askAll ask empty rs).2 :=
    askAll_induction rs sound_empty fun _ _ r _ h => Sound.ask h r
  exact {
    queue_nodup := h.shows.queue ▸ (Pending.after _).objects.nodup
    mem_queue p := by rw [h.shows.queue, h.shows.keys]
    waits p := by rw [h.shows.queue, h.accounts.waits]
    order := h.shows.queue ▸ h.accounts.order
    poll p l hq := h.poll hq
    shows := h.shows
    takes := h.takes
    passed := h.passed
    kept rs c hc hrs := h.kept_all hc hrs
    propagates own polled behind c hc := by
      split
      · rename_i hown
        exact hown ▸ h.propagated (hown ▸ hc) polled behind
      · rename_i hne
        exact (h.kept_all hc fun r hr hw => hne (writes_propagation hr hw)).2 }

/-- A set that grows after it was passed in gives what it had. -/
example : events (askAll ask empty [.make (OrderedSet.ofList [1]), .add 'p' 0,
    .write 0 (OrderedSet.ofList [1, 2]), .poll]).1 =
    [.added 'p' (OrderedSet.ofList [1]), .polled 'p' (OrderedSet.ofList [1])] := rfl

end PendingSets

end ObjectFlow
