import Mathlib.Data.List.TakeDrop
import ObjectFlow.Options
import ObjectFlow.Proofs.Containers
/-!
# The settings in a text

A text is cut into items at its semicolons, and an item into a key and a value at its first
equals sign, with any blanks around them. What an option is set to is the value in the last
item of its key. Items of blanks alone set nothing, and any other item without an equals
sign makes the text unreadable.
-/

namespace ObjectFlow

/-! ## Trimming -/

namespace Text

/-- Nothing but blanks. -/
def Blank (cs : List Char) : Prop := ∀ c ∈ cs, isBlank c = true

/-- A text without a blank at either end. -/
structure Bare (cs : List Char) : Prop where
  head : ∀ c, cs.head? = some c → isBlank c = false
  last : ∀ c, cs.getLast? = some c → isBlank c = false

/-- The second text is the first with blanks around it. -/
structure Pads (core cs : List Char) : Prop where
  bare : Bare core
  around : ∃ l r, cs = l ++ core ++ r ∧ Blank l ∧ Blank r

variable {cs core l r : List Char} {e : Char}

theorem dropWhile_eq_self {p : Char → Bool} (h : ∀ c, cs.head? = some c → p c = false) :
    cs.dropWhile p = cs := by
  cases cs with
  | nil => rfl
  | cons c cs => exact List.dropWhile_cons_of_neg (by simp [h c rfl])

theorem Blank.dropWhile (h : Blank cs) : cs.dropWhile isBlank = [] := by
  have happ : (cs ++ []).dropWhile isBlank = [].dropWhile isBlank := List.dropWhile_append_of_pos h
  rwa [List.append_nil] at happ

theorem Blank.reverse (h : Blank cs) : Blank cs.reverse := fun c hc => h c (List.mem_reverse.1 hc)

/-- Trimming takes the blanks off at both ends. -/
theorem trim_of_pads (h : Pads core cs) : trim cs = core := by
  obtain ⟨hbare, l, r, rfl, hl, hr⟩ := h
  unfold trim trimWhere
  rw [List.append_assoc, List.dropWhile_append_of_pos hl]
  cases core with
  | nil => rw [List.nil_append, hr.dropWhile]; rfl
  | cons c core =>
    have hfront : (c :: core ++ r).dropWhile isBlank = c :: core ++ r :=
      dropWhile_eq_self fun d hd => hbare.head d hd
    have hback : (c :: core).reverse.dropWhile isBlank = (c :: core).reverse :=
      dropWhile_eq_self fun d hd => hbare.last d (by rwa [List.head?_reverse] at hd)
    rw [hfront, List.reverse_append, List.dropWhile_append_of_pos hr.reverse, hback,
      List.reverse_reverse]

theorem exists_front (cs : List Char) : ∃ l rest, cs = l ++ rest ∧ Blank l ∧
    ∀ c, rest.head? = some c → isBlank c = false := by
  induction cs with
  | nil => exact ⟨[], [], rfl, nofun, nofun⟩
  | cons c cs ih =>
    cases hc : isBlank c with
    | true =>
      obtain ⟨l, rest, rfl, hl, hrest⟩ := ih
      exact ⟨c :: l, rest, rfl, List.forall_mem_cons.2 ⟨hc, hl⟩, hrest⟩
    | false => exact ⟨[], c :: cs, rfl, nofun, fun d hd => Option.some.inj hd ▸ hc⟩

theorem exists_back (cs : List Char) : ∃ rest r, cs = rest ++ r ∧ Blank r ∧
    ∀ c, rest.getLast? = some c → isBlank c = false := by
  obtain ⟨l, rest, hcs, hl, hrest⟩ := exists_front cs.reverse
  refine ⟨rest.reverse, l.reverse, ?_, hl.reverse, fun c hc => hrest c ?_⟩
  · rw [← List.reverse_append, ← hcs, List.reverse_reverse]
  · rwa [List.getLast?_reverse] at hc

theorem exists_pads (cs : List Char) : ∃ core, Pads core cs := by
  obtain ⟨l, rest, rfl, hl, hhead⟩ := exists_front cs
  obtain ⟨core, r, rfl, hr, hlast⟩ := exists_back rest
  refine ⟨core, ⟨fun c hc => hhead c ?_, hlast⟩, l, r, (List.append_assoc ..).symm, hl, hr⟩
  rw [List.head?_append, hc]
  rfl

theorem trim_eq_iff : trim cs = core ↔ Pads core cs := by
  constructor
  · rintro rfl
    obtain ⟨core, h⟩ := exists_pads cs
    rwa [trim_of_pads h]
  · exact trim_of_pads

theorem pads_trim (cs : List Char) : Pads (trim cs) cs := trim_eq_iff.1 rfl

theorem trim_append (hl : Blank l) (hr : Blank r) : trim (l ++ cs ++ r) = trim cs := by
  obtain ⟨hbare, a, b, hcs, ha, hb⟩ := pads_trim cs
  refine trim_of_pads ⟨hbare, l ++ a, b ++ r, ?_, ?_, ?_⟩
  · conv_lhs => rw [hcs]
    simp only [List.append_assoc]
  · exact List.forall_mem_append.2 ⟨hl, ha⟩
  · exact List.forall_mem_append.2 ⟨hb, hr⟩

theorem blank_iff_trim : Blank cs ↔ trim cs = [] := by
  constructor
  · exact fun h => trim_of_pads ⟨⟨nofun, nofun⟩, cs, [], by simp, h, nofun⟩
  · intro h
    obtain ⟨-, l, r, hcs, hl, hr⟩ := trim_eq_iff.1 h
    rw [hcs, List.append_nil]
    exact List.forall_mem_append.2 ⟨hl, hr⟩

/-- Trimming stops at a character that is not blank, from either side. -/
theorem exists_trim_around (he : isBlank e = false) (l r : List Char) :
    ∃ a l' r' b, l = a ++ l' ∧ r = r' ++ b ∧ Blank a ∧ Blank b ∧
      trim (l ++ e :: r) = l' ++ e :: r' := by
  obtain ⟨a, l', rfl, ha, hhead⟩ := exists_front l
  obtain ⟨r', b, rfl, hb, hlast⟩ := exists_back r
  refine ⟨a, l', r', b, rfl, rfl, ha, hb, trim_of_pads ⟨⟨fun c hc => ?_, fun c hc => ?_⟩, a, b, ?_,
    ha, hb⟩⟩
  · cases l' with
    | nil => exact Option.some.inj hc ▸ he
    | cons d l' => exact hhead c hc
  · cases hr' : r'.getLast? with
    | none =>
      rw [List.getLast?_eq_none_iff.1 hr', List.getLast?_concat] at hc
      exact Option.some.inj hc ▸ he
    | some d =>
      rw [List.getLast?_append, List.getLast?_cons, hr'] at hc
      exact hlast c (hr'.trans hc)
  · simp only [List.append_assoc, List.cons_append]

end Text

namespace Options

open Text (Blank Pads trim)

/-! ## Items -/

/-- The text is cut into the items at its semicolons. -/
structure Cut (text : List Char) (items : List (List Char)) : Prop where
  ne_nil : items ≠ []
  joined : text = [';'].intercalate items
  apart : ∀ i ∈ items, ';' ∉ i

/-- The item gives a key a value, which stand around its first equals sign. -/
def Assigns (item key value : List Char) : Prop :=
  ∃ l r, item = l ++ '=' :: r ∧ '=' ∉ l ∧ Pads key l ∧ Pads value r

/-- The last item of the key gives it the value. -/
def Sets (items : List (List Char)) (key value : List Char) : Prop :=
  ∃ before item after, items = before ++ item :: after ∧ Assigns item key value ∧
    ∀ i ∈ after, ∀ v, ¬ Assigns i key v

variable {i l r k k' v v' text key : List Char} {items : List (List Char)}

theorem splitAt_eq_splitOn (c : Char) (cs : List Char) : splitAt c cs = cs.splitOn c := by
  induction cs with
  | nil => exact (List.splitOn_nil c).symm
  | cons d cs ih =>
    rw [splitAt, ih, List.splitOn_cons_eq_if_modifyHead]
    by_cases hd : d = c
    · rw [if_pos hd, if_pos (beq_iff_eq.2 hd)]
    · rw [if_neg hd, if_neg fun h => hd (beq_iff_eq.1 h)]
      cases hcs : cs.splitOn c with
      | nil => exact absurd hcs (List.splitOn_ne_nil c cs)
      | cons p ps => rfl

theorem not_mem_of_mem_splitAt {c : Char} {cs p : List Char} (h : p ∈ splitAt c cs) : c ∉ p := by
  induction cs generalizing p with
  | nil =>
    rw [splitAt, List.mem_singleton] at h
    exact h ▸ List.not_mem_nil
  | cons d cs ih =>
    rw [splitAt] at h
    split at h
    · rcases List.mem_cons.1 h with rfl | h
      · exact List.not_mem_nil
      · exact ih h
    · rename_i hd
      split at h
      · rw [List.mem_singleton] at h
        exact h ▸ fun hc => hd (List.mem_singleton.1 hc).symm
      · rename_i q qs hqs
        rcases List.mem_cons.1 h with rfl | h
        · intro hc
          rcases List.mem_cons.1 hc with rfl | hc
          · exact hd rfl
          · exact ih (hqs ▸ List.mem_cons_self) hc
        · exact ih (hqs ▸ List.mem_cons_of_mem _ h)

theorem cut_iff : Cut text items ↔ splitAt ';' text = items := by
  constructor
  · rintro ⟨hne, rfl, hapart⟩
    rw [splitAt_eq_splitOn, List.splitOn_intercalate ';' hapart hne]
  · rintro rfl
    refine ⟨?_, ?_, fun i hi => not_mem_of_mem_splitAt hi⟩
    · rw [splitAt_eq_splitOn]
      exact List.splitOn_ne_nil _ _
    · rw [splitAt_eq_splitOn, List.intercalate_splitOn]

/-! ### Reading an item -/

theorem span_key (h : '=' ∉ l) :
    (l ++ '=' :: r).span (fun c => decide (c ≠ '=')) = (l, '=' :: r) := by
  have hkey : ∀ c ∈ l, decide (c ≠ '=') = true := fun c hc =>
    decide_eq_true fun heq => h (heq ▸ hc)
  rw [List.span_eq_takeWhile_dropWhile, List.takeWhile_append_of_pos hkey,
    List.dropWhile_append_of_pos hkey, List.takeWhile_cons_of_neg (by decide),
    List.dropWhile_cons_of_neg (by decide), List.append_nil]

theorem span_of_not_mem (h : '=' ∉ i) : i.span (fun c => decide (c ≠ '=')) = (i, []) := by
  have hkey : ∀ c ∈ i, decide (c ≠ '=') = true := fun c hc =>
    decide_eq_true fun heq => h (heq ▸ hc)
  have htake : (i ++ []).takeWhile (fun c => decide (c ≠ '=')) = i ++ [] :=
    List.takeWhile_append_of_pos hkey
  have hdrop : (i ++ []).dropWhile (fun c => decide (c ≠ '=')) = [] :=
    List.dropWhile_append_of_pos hkey
  rw [List.append_nil] at htake hdrop
  rw [List.span_eq_takeWhile_dropWhile, htake, hdrop]

theorem Assigns.unique (h : Assigns i k v) (h' : Assigns i k' v') : k = k' ∧ v = v' := by
  obtain ⟨l, r, rfl, hl, hk, hv⟩ := h
  obtain ⟨l', r', heq, hl', hk', hv'⟩ := h'
  have hspan := span_key (r := r) hl
  rw [heq, span_key hl', Prod.mk.injEq, List.cons.injEq] at hspan
  obtain ⟨rfl, -, rfl⟩ := hspan
  exact ⟨(Text.trim_of_pads hk).symm.trans (Text.trim_of_pads hk'),
    (Text.trim_of_pads hv).symm.trans (Text.trim_of_pads hv')⟩

theorem Assigns.mem (h : Assigns i k v) : '=' ∈ i := by
  obtain ⟨l, r, rfl, -⟩ := h
  exact List.mem_append_right l List.mem_cons_self

theorem not_assigns_of_blank (h : Blank i) : ¬ Assigns i k v := by
  intro ha
  have hblank := h '=' ha.mem
  revert hblank
  decide

/-- Whatever stands around the first equals sign is a key and a value. -/
theorem exists_assigns (h : '=' ∈ i) : ∃ k v, Assigns i k v := by
  obtain ⟨l, r, rfl, hl⟩ := List.eq_append_cons_of_mem h
  exact ⟨_, _, l, r, rfl, hl, Text.pads_trim l, Text.pads_trim r⟩

theorem readItem_of_assigns (h : Assigns i k v) :
    readItem (trim i) = .ok (String.ofList k, .atom (.text (String.ofList v))) := by
  obtain ⟨l, r, rfl, hl, hk, hv⟩ := h
  obtain ⟨a, l', r', b, rfl, rfl, ha, hb, htrim⟩ :=
    Text.exists_trim_around (show Text.isBlank '=' = false by decide) l r
  have hkey : trim l' = k := by
    rw [← Text.trim_of_pads hk, ← Text.trim_append (r := []) ha nofun, List.append_nil]
  have hvalue : trim r' = v := by
    rw [← Text.trim_of_pads hv, ← Text.trim_append (l := []) nofun hb, List.nil_append]
  have hl' : '=' ∉ l' := fun hc => hl (List.mem_append_right a hc)
  rw [htrim, readItem, span_key hl']
  dsimp only
  rw [hkey, hvalue]

theorem readItem_of_not_mem (h : '=' ∉ i) :
    readItem (trim i) = .error (.malformedOption (String.ofList (trim i))) := by
  have htrim : '=' ∉ trim i := by
    obtain ⟨-, l, r, hi, -, -⟩ := Text.pads_trim i
    intro hc
    rw [hi] at h
    exact h (List.mem_append_left r (List.mem_append_right l hc))
  rw [readItem, span_of_not_mem htrim]

/-! ### Reading all items -/

/-- The settings of the items, in order. -/
inductive Lists : List (List Char) → List (String × Term) → Prop
  | nil : Lists [] []
  | blank {i : List Char} {is : List (List Char)} {l : List (String × Term)} (blanks : Blank i)
      (rest : Lists is l) : Lists (i :: is) l
  | setting {i k v : List Char} {is : List (List Char)} {l : List (String × Term)}
      (assigns : Assigns i k v) (rest : Lists is l) :
      Lists (i :: is) ((String.ofList k, .atom (.text (String.ofList v))) :: l)

/-- The items are read in order, up to the first that is not blank and has no equals sign. -/
theorem readItems_cases (items : List (List Char)) :
    (∃ l, ((items.map trim).filter (· ≠ [])).mapM readItem = .ok l ∧ Lists items l) ∨
    ∃ i ∈ items, ¬ Blank i ∧ '=' ∉ i ∧ ((items.map trim).filter (· ≠ [])).mapM readItem =
      .error (.malformedOption (String.ofList (trim i))) := by
  induction items with
  | nil => exact .inl ⟨[], rfl, .nil⟩
  | cons i is ih =>
    rw [List.map_cons]
    by_cases hb : Blank i
    · rw [List.filter_cons_of_neg (by simpa using Text.blank_iff_trim.1 hb)]
      rcases ih with ⟨l, hl, hlists⟩ | ⟨j, hj, hfault⟩
      · exact .inl ⟨l, hl, .blank hb hlists⟩
      · exact .inr ⟨j, List.mem_cons_of_mem _ hj, hfault⟩
    rw [List.filter_cons_of_pos (by simpa using fun h => hb (Text.blank_iff_trim.2 h)),
      List.mapM_cons]
    by_cases heq : '=' ∈ i
    · obtain ⟨k, v, ha⟩ := exists_assigns heq
      rw [readItem_of_assigns ha]
      rcases ih with ⟨l, hl, hlists⟩ | ⟨j, hj, hjb, hjeq, hfault⟩
      · rw [hl]
        exact .inl ⟨_, rfl, .setting ha hlists⟩
      · rw [hfault]
        exact .inr ⟨j, List.mem_cons_of_mem _ hj, hjb, hjeq, rfl⟩
    · rw [readItem_of_not_mem heq]
      exact .inr ⟨i, List.mem_cons_self, hb, heq, rfl⟩

theorem Lists.item {l : List (String × Term)} (h : Lists items l) :
    ∀ i ∈ items, Blank i ∨ ∃ k v, Assigns i k v := by
  induction h with
  | nil => exact nofun
  | blank hb _ ih => exact List.forall_mem_cons.2 ⟨.inl hb, ih⟩
  | setting ha _ ih => exact List.forall_mem_cons.2 ⟨.inr ⟨_, _, ha⟩, ih⟩

/-! ### The last item of a key -/

theorem sets_cons {is : List (List Char)} : Sets (i :: is) k v ↔
    Sets is k v ∨ (Assigns i k v ∧ ∀ j ∈ is, ∀ w, ¬ Assigns j k w) := by
  constructor
  · rintro ⟨before, item, after, hsplit, ha, hlast⟩
    cases before with
    | nil =>
      obtain ⟨rfl, rfl⟩ := List.cons.inj hsplit
      exact .inr ⟨ha, hlast⟩
    | cons j before =>
      obtain ⟨-, rfl⟩ := List.cons.inj hsplit
      exact .inl ⟨before, item, after, rfl, ha, hlast⟩
  · rintro (⟨before, item, after, rfl, ha, hlast⟩ | ⟨ha, hlast⟩)
    · exact ⟨i :: before, item, after, rfl, ha, hlast⟩
    · exact ⟨[], i, is, rfl, ha, hlast⟩

theorem Sets.assigned (h : Sets items k v) : ∃ i ∈ items, Assigns i k v := by
  obtain ⟨before, i, after, rfl, ha, -⟩ := h
  exact ⟨i, List.mem_append_right before List.mem_cons_self, ha⟩

theorem exists_sets (hi : i ∈ items) (h : Assigns i k v) : ∃ w, Sets items k w := by
  induction items generalizing i v with
  | nil => exact absurd hi List.not_mem_nil
  | cons j is ih =>
    by_cases hlater : ∃ i ∈ is, ∃ w, Assigns i k w
    · obtain ⟨i', hi', w, hw⟩ := hlater
      obtain ⟨u, hu⟩ := ih hi' hw
      exact ⟨u, sets_cons.2 (.inl hu)⟩
    · have hnone : ∀ i ∈ is, ∀ w, ¬ Assigns i k w := fun i hi w hw => hlater ⟨i, hi, w, hw⟩
      rcases List.mem_cons.1 hi with rfl | hi
      · exact ⟨v, sets_cons.2 (.inr ⟨h, hnone⟩)⟩
      · exact absurd h (hnone i hi v)

theorem Sets.unique (h : Sets items k v) (h' : Sets items k v') : v = v' := by
  induction items with
  | nil =>
    obtain ⟨i, hi, -⟩ := h.assigned
    cases hi
  | cons i is ih =>
    rcases sets_cons.1 h with h | ⟨ha, hlast⟩ <;> rcases sets_cons.1 h' with h' | ⟨ha', hlast'⟩
    · exact ih h h'
    · obtain ⟨j, hj, hk⟩ := h.assigned
      exact absurd hk (hlast' j hj v)
    · obtain ⟨j, hj, hk⟩ := h'.assigned
      exact absurd hk (hlast j hj v')
    · exact (ha.unique ha').2

/-- A key is bound to what its last item gives it. -/
theorem Lists.get?_insertAll {l : List (String × Term)} (h : Lists items l)
    (m : OrderedMap String Term) {t : Term} : (m.insertAll l).get? (String.ofList key) = some t ↔
      (∃ v, Sets items key v ∧ t = .atom (.text (String.ofList v))) ∨
      ((∀ i ∈ items, ∀ v, ¬ Assigns i key v) ∧ m.get? (String.ofList key) = some t) := by
  induction h generalizing m with
  | nil =>
    have hnone : ∀ v, ¬ Sets [] key v := fun v hv => by
      obtain ⟨i, hi, -⟩ := hv.assigned
      cases hi
    simp [OrderedMap.insertAll, hnone]
  | blank hb _ ih => simp [ih, sets_cons, not_assigns_of_blank hb]
  | @setting i k v is l ha _ ih =>
    show ((m.insert (String.ofList k) (.atom (.text (String.ofList v)))).insertAll l).get? _ =
      some t ↔ _
    rw [ih, OrderedMap.get?_insert]
    by_cases hk : key = k
    · subst hk
      have hv : ∀ w, Assigns i key w ↔ w = v := fun w =>
        ⟨fun hw => (hw.unique ha).2, fun hw => hw ▸ ha⟩
      simp only [sets_cons, hv, if_true, Option.some.injEq, List.forall_mem_cons]
      constructor
      · rintro (⟨w, hw, rfl⟩ | ⟨hlast, rfl⟩)
        · exact .inl ⟨w, .inl hw, rfl⟩
        · exact .inl ⟨v, .inr ⟨rfl, hlast⟩, rfl⟩
      · rintro (⟨w, hw | ⟨rfl, hlast⟩, rfl⟩ | ⟨⟨hv, -⟩, -⟩)
        · exact .inl ⟨w, hw, rfl⟩
        · exact .inr ⟨hlast, rfl⟩
        · exact absurd rfl (hv v)
    · have hnot : ∀ w, ¬ Assigns i key w := fun w hw => hk (hw.unique ha).1
      have hne : String.ofList key ≠ String.ofList k := fun heq => hk (String.ofList_injective heq)
      simp [sets_cons, hnot, hne]

/-- Every key is bound to what its last item gives it. -/
def Binds (items : List (List Char)) (m : OrderedMap String Term) : Prop :=
  ∀ key t, m.get? (String.ofList key) = some t ↔
    ∃ v, Sets items key v ∧ t = .atom (.text (String.ofList v))

/-- The settings of a text are what the last items give to their keys, or some item is malformed. -/
theorem settingsOfText_cases {s : String} (hs : Cut s.toList items) :
    (∃ m, settingsOfText s = .ok m ∧ Binds items m ∧
      ∀ i ∈ items, Blank i ∨ ∃ k v, Assigns i k v) ∨
    ∃ i ∈ items, ¬ Blank i ∧ '=' ∉ i ∧
      settingsOfText s = .error (.malformedOption (String.ofList (trim i))) := by
  unfold settingsOfText
  rw [cut_iff.1 hs]
  dsimp only
  rcases readItems_cases items with ⟨l, hl, hlists⟩ | ⟨i, hi, hb, heq, hfault⟩
  · rw [hl]
    refine .inl ⟨_, rfl, fun key t => ?_, hlists.item⟩
    rw [OrderedMap.ofList, hlists.get?_insertAll ∅]
    simp
  · rw [hfault]
    exact .inr ⟨i, hi, hb, heq, rfl⟩

end Options

end ObjectFlow
