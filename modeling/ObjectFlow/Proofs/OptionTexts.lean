import ObjectFlow.Proofs.Numerals
import ObjectFlow.Proofs.Settings
/-!
# Options in a text

Options that are listed in a text, in any order and with blanks wherever they like, are read
back, and what earlier items gave to the same keys does not count. Every other text is either
read as options that hold or refused for a fault that the text has.
-/

namespace ObjectFlow

/-! ## Names and numbers -/

theorem OptionName.ofString?_eq_some_iff {s : String} {n : OptionName} :
    ofString? s = some n ↔ s = n.toString := by
  constructor
  · intro h
    have hname := List.find?_some h
    exact (of_decide_eq_true hname).symm
  · rintro rfl
    cases n <;> decide

theorem OptionName.toString_injective {m n : OptionName} (h : m.toString = n.toString) : m = n := by
  have hm := ofString?_eq_some_iff.2 h
  rw [ofString?_eq_some_iff.2 rfl] at hm
  exact Option.some.inj hm

/-- Around a value that is bare there is nothing to take off before a number is read. -/
theorem Text.Bare.readInt?_iff {v : List Char} {n : Int} (h : Bare v) :
    readInt? (String.ofList v) = some n ↔ IsInteger v n := by
  have hplain : ∀ c, isBlank c = false → isNumberBlank c = false := fun c hc => by
    rw [isNumberBlank, hc, Bool.false_and]
  have hback : v.reverse.dropWhile isNumberBlank = v.reverse :=
    dropWhile_eq_self fun c hc => hplain c (h.last c (by rwa [List.head?_reverse] at hc))
  have htrim : trimWhere isNumberBlank v = v := by
    rw [trimWhere, dropWhile_eq_self fun c hc => hplain c (h.head c hc), hback,
      List.reverse_reverse]
  rw [readInt?_eq_some_iff, String.toList_ofList, htrim]

theorem Text.Bare.isInteger_unique {v : List Char} {m n : Int} (h : Bare v) (hm : IsInteger v m)
    (hn : IsInteger v n) : m = n := by
  have hread := h.readInt?_iff.2 hm
  rw [h.readInt?_iff.2 hn] at hread
  exact (Option.some.inj hread).symm

namespace Options

open Text (Blank Bare IsInteger)

variable {items : List (List Char)} {n : OptionName} {v : List Char}

theorem Sets.bare {k : List Char} (h : Sets items k v) : Bare v := by
  obtain ⟨i, -, l, r, -, -, -, hv⟩ := h.assigned
  exact hv.bare

/-- The last item of an option gives it the value. -/
def Gives (items : List (List Char)) (n : OptionName) (v : List Char) : Prop :=
  Sets items n.toString.toList v

/-! ## Faults of a text -/

/-- What is wrong with the items of a text. -/
inductive Fault (items : List (List Char)) : OptionError → Prop
  | malformed {i core : List Char} (item : i ∈ items) (filled : ¬ Blank i) (noSign : '=' ∉ i)
      (around : Text.Pads core i) : Fault items (.malformedOption (String.ofList core))
  | unknown {i k v : List Char} (item : i ∈ items) (assigns : Assigns i k v)
      (unnamed : ∀ n : OptionName, k ≠ n.toString.toList) :
      Fault items (.unknownOption (String.ofList k))
  | notAnInteger {n : OptionName} {v : List Char} (number : n ≠ .sensitivity)
      (gives : Gives items n v) (text : ∀ z, ¬ IsInteger v z) :
      Fault items (.notAnInteger n.toString (String.ofList v))
  | negative {n : OptionName} {v : List Char} {z : Int} (number : n ≠ .sensitivity)
      (gives : Gives items n v) (integer : IsInteger v z) (below : z < 0) :
      Fault items (.negative n.toString (.atom (.int z)))
  | empty (gives : Gives items .sensitivity []) :
      Fault items (.emptySensitivity (.atom (.text "")))

/-- What a number option is set to, if anything. -/
def LimitIs (items : List (List Char)) (n : OptionName) : Option Limit → Prop
  | none => ∀ v, ¬ Gives items n v
  | some l => ∃ v k, Gives items n v ∧ IsInteger v (Int.ofNat k) ∧ l = .number k

/-- What the contexts are told apart by, if anything. -/
def SensitivityIs (items : List (List Char)) : Option (List Char) → Prop
  | none => ∀ v, ¬ Gives items .sensitivity v
  | some v => Gives items .sensitivity v ∧ v ≠ []

/-- The items say what the options are, where defaults stand in for options that are not given. -/
structure Says (items : List (List Char)) (o : Options) : Prop where
  item : ∀ i ∈ items, Blank i ∨ ∃ n v, Assigns i (OptionName.toString n).toList v
  sensitivity : ∃ s, SensitivityIs items s ∧
    o.sensitivity = (s.map String.ofList).getD default.sensitivity
  maxIterations : ∃ l, LimitIs items .maxIterations l ∧
    o.maxIterations = l.getD default.maxIterations
  heapDepth : LimitIs items .heapDepth o.heapDepth

/-! ## Reading values -/

theorem readValues_cons (n : OptionName) (t : Term) (l : List (String × Term))
    (m : OrderedMap OptionName Term) : readValues ((n.toString, t) :: l) m =
      (readValue n t).bind fun v => readValues l (m.insert n v) := by
  rw [readValues, OptionName.ofString?_eq_some_iff.2 rfl]
  rfl

theorem readValues_cons_of_unknown {name : String} (h : ∀ n : OptionName, name ≠ n.toString)
    (t : Term) (l : List (String × Term)) (m : OrderedMap OptionName Term) :
    readValues ((name, t) :: l) m = .error (.unknownOption name) := by
  have hnone : OptionName.ofString? name = none := by
    cases hn : OptionName.ofString? name with
    | none => rfl
    | some n => exact absurd (OptionName.ofString?_eq_some_iff.1 hn) (h n)
  rw [readValues, hnone]

/-- The values of all settings are read, or some setting has an unknown name or a value that is no
number where one is due. -/
theorem readValues_cases {l : List (String × Term)} (hl : (l.map Prod.fst).Nodup)
    (m : OrderedMap OptionName Term) :
    (∃ values, readValues l m = .ok values ∧
      (∀ e ∈ l, ∃ n v, e.1 = OptionName.toString n ∧ readValue n e.2 = .ok v) ∧
      ∀ n v, values.get? n = some v ↔ (∃ t, (n.toString, t) ∈ l ∧ readValue n t = .ok v) ∨
        (n.toString ∉ l.map Prod.fst ∧ m.get? n = some v)) ∨
    (∃ e ∈ l, (∀ n : OptionName, e.1 ≠ n.toString) ∧
      readValues l m = .error (.unknownOption e.1)) ∨
    ∃ n t e, (OptionName.toString n, t) ∈ l ∧ readValue n t = .error e ∧
      readValues l m = .error e := by
  induction l generalizing m with
  | nil => exact .inl ⟨m, rfl, nofun, fun n v => by simp⟩
  | cons e l ih =>
    obtain ⟨name, t⟩ := e
    obtain ⟨hname, hrest⟩ := List.nodup_cons.1 hl
    by_cases hknown : ∃ n : OptionName, name = n.toString
    · obtain ⟨n, rfl⟩ := hknown
      rw [readValues_cons]
      cases hv : readValue n t with
      | error e => exact .inr (.inr ⟨n, t, e, List.mem_cons_self, hv, rfl⟩)
      | ok v =>
        rcases ih hrest (m.insert n v) with ⟨values, hok, hall, hget⟩ | ⟨e, he, hfault⟩ |
          ⟨n', t', e, hmem, hfault⟩
        · refine .inl ⟨values, hok, List.forall_mem_cons.2 ⟨⟨n, v, rfl, hv⟩, hall⟩, fun j w => ?_⟩
          rw [hget, OrderedMap.get?_insert]
          by_cases hj : j = n
          · subst hj
            have hnot : ∀ u, (j.toString, u) ∉ l := fun u hu => hname (List.mem_map.2 ⟨_, hu, rfl⟩)
            simp [hname, hnot, hv]
          · have hne : j.toString ≠ n.toString := fun h => hj (OptionName.toString_injective h)
            simp [hj, hne]
        · exact .inr (.inl ⟨e, List.mem_cons_of_mem _ he, hfault⟩)
        · exact .inr (.inr ⟨n', t', e, List.mem_cons_of_mem _ hmem, hfault⟩)
    · have hunknown : ∀ n : OptionName, name ≠ n.toString := fun n hn => hknown ⟨n, hn⟩
      exact .inr (.inl ⟨(name, t), List.mem_cons_self, hunknown,
        readValues_cons_of_unknown hunknown t l m⟩)

theorem readValue_of_some {s : String} {z : Int} (hn : n ≠ .sensitivity)
    (hz : Text.readInt? s = some z) : readValue n (.atom (.text s)) = .ok (.atom (.int z)) := by
  cases n with
  | sensitivity => exact absurd rfl hn
  | maxIterations | heapDepth => simp only [readValue, hz]

theorem readValue_of_none {s : String} (hn : n ≠ .sensitivity) (hz : Text.readInt? s = none) :
    readValue n (.atom (.text s)) = .error (.notAnInteger n.toString s) := by
  cases n with
  | sensitivity => exact absurd rfl hn
  | maxIterations | heapDepth => simp only [readValue, hz]

/-- Where a number is due, integers are read. -/
theorem readValue_eq_ok_iff {t : Term} (hn : n ≠ .sensitivity) (hv : Bare v) :
    readValue n (.atom (.text (String.ofList v))) = .ok t ↔
      ∃ z, IsInteger v z ∧ t = .atom (.int z) := by
  simp only [← hv.readInt?_iff]
  cases hz : Text.readInt? (String.ofList v) with
  | some z =>
    rw [readValue_of_some hn hz]
    simp [eq_comm]
  | none =>
    rw [readValue_of_none hn hz]
    simp

/-- Where a number is due, other values are refused. -/
theorem readValue_eq_error_iff {e : OptionError} (hn : n ≠ .sensitivity) (hv : Bare v) :
    readValue n (.atom (.text (String.ofList v))) = .error e ↔
      e = .notAnInteger n.toString (String.ofList v) ∧ ∀ z, ¬ IsInteger v z := by
  simp only [← hv.readInt?_iff]
  cases hz : Text.readInt? (String.ofList v) with
  | some z =>
    rw [readValue_of_some hn hz]
    simp
  | none =>
    rw [readValue_of_none hn hz]
    simp [eq_comm]

/-! ### Reading the settings of a text -/

section
variable {m : OrderedMap String Term} {values : OrderedMap OptionName Term} {t : Term}

theorem Binds.mem_entries_iff (hm : Binds items m) : (n.toString, t) ∈ m.entries ↔
    ∃ v, Gives items n v ∧ t = .atom (.text (String.ofList v)) := by
  rw [OrderedMap.mem_entries_iff, ← String.ofList_toList (s := n.toString)]
  exact hm _ t

/-- Every setting comes from an item. -/
theorem Binds.exists_assigns (hm : Binds items m) {name : String} (h : (name, t) ∈ m.entries) :
    ∃ i ∈ items, ∃ v, Assigns i name.toList v := by
  rw [OrderedMap.mem_entries_iff, ← String.ofList_toList (s := name), hm] at h
  obtain ⟨v, hv, -⟩ := h
  obtain ⟨i, hi, ha⟩ := hv.assigned
  exact ⟨i, hi, v, ha⟩

/-- The key of every item is that of a setting. -/
theorem Binds.exists_setting (hm : Binds items m) {i k : List Char} (hi : i ∈ items)
    (ha : Assigns i k v) : ∃ t, (String.ofList k, t) ∈ m.entries := by
  obtain ⟨w, hw⟩ := exists_sets hi ha
  exact ⟨_, OrderedMap.mem_entries_iff.2 ((hm k _).2 ⟨w, hw, rfl⟩)⟩

/-- What the values are that were read from the items of a text. -/
structure ValuesOf (items : List (List Char)) (values : OrderedMap OptionName Term) : Prop where
  sensitivity : ∀ t, values.get? .sensitivity = some t ↔
    ∃ v, Gives items .sensitivity v ∧ t = .atom (.text (String.ofList v))
  limit : ∀ n ≠ .sensitivity, ∀ t, values.get? n = some t ↔
    ∃ v z, Gives items n v ∧ IsInteger v z ∧ t = .atom (.int z)
  integer : ∀ n ≠ .sensitivity, ∀ v, Gives items n v → ∃ z, IsInteger v z

theorem Binds.valuesOf (hm : Binds items m)
    (hall : ∀ e ∈ m.entries, ∃ n v, e.1 = OptionName.toString n ∧ readValue n e.2 = .ok v)
    (hget : ∀ n v, values.get? n = some v ↔
      ∃ t, (n.toString, t) ∈ m.entries ∧ readValue n t = .ok v) : ValuesOf items values := by
  have hvalue : ∀ n t, values.get? n = some t ↔ ∃ v, Gives items n v ∧
      readValue n (.atom (.text (String.ofList v))) = .ok t := fun n t => by
    simp only [hget, hm.mem_entries_iff]
    constructor
    · rintro ⟨-, ⟨v, hv, rfl⟩, hread⟩
      exact ⟨v, hv, hread⟩
    · rintro ⟨v, hv, hread⟩
      exact ⟨_, ⟨v, hv, rfl⟩, hread⟩
  refine ⟨fun t => ?_, fun n hn t => ?_, fun n hn v hv => ?_⟩
  · simp only [hvalue, readValue, Except.ok.injEq, eq_comm]
  · rw [hvalue]
    constructor
    · rintro ⟨v, hv, hread⟩
      obtain ⟨z, hz, rfl⟩ := (readValue_eq_ok_iff hn hv.bare).1 hread
      exact ⟨v, z, hv, hz, rfl⟩
    · rintro ⟨v, z, hv, hz, rfl⟩
      exact ⟨v, hv, (readValue_eq_ok_iff hn hv.bare).2 ⟨z, hz, rfl⟩⟩
  · obtain ⟨n', t, hn', hread⟩ := hall _ (hm.mem_entries_iff.2 ⟨v, hv, rfl⟩)
    obtain rfl := OptionName.toString_injective hn'
    obtain ⟨z, hz, -⟩ := (readValue_eq_ok_iff hn hv.bare).1 hread
    exact ⟨z, hz⟩

/-- The settings of a text are read as values, or one of them has a fault. -/
theorem readSettings_cases (hm : Binds items m)
    (hitems : ∀ i ∈ items, Blank i ∨ ∃ k v, Assigns i k v) :
    (∃ values, readValues m.entries ∅ = .ok values ∧ ValuesOf items values ∧
      ∀ i ∈ items, Blank i ∨ ∃ n v, Assigns i (OptionName.toString n).toList v) ∨
    ∃ e, readValues m.entries ∅ = .error e ∧ Fault items e := by
  rcases readValues_cases m.nodup ∅ with ⟨values, hok, hall, hget⟩ |
    ⟨⟨name, t⟩, he, hname, hfault⟩ | ⟨n, t, e, he, hread, hfault⟩
  · refine .inl ⟨values, hok, hm.valuesOf hall fun n v => ?_, fun i hi => ?_⟩
    · rw [hget, or_iff_left (by simp)]
    · refine (hitems i hi).imp_right ?_
      rintro ⟨k, v, ha⟩
      obtain ⟨t, ht⟩ := hm.exists_setting hi ha
      obtain ⟨n, -, hn, -⟩ := hall _ ht
      refine ⟨n, v, ?_⟩
      rwa [← hn, String.toList_ofList]
  · obtain ⟨i, hi, v, ha⟩ := hm.exists_assigns he
    rw [hfault, ← String.ofList_toList (s := name)]
    exact .inr ⟨_, rfl, .unknown hi ha fun n hn => hname n (String.toList_inj.1 hn)⟩
  · obtain ⟨v, hv, rfl⟩ := hm.mem_entries_iff.1 he
    have hn : n ≠ .sensitivity := by
      rintro rfl
      cases hread
    obtain ⟨rfl, hnone⟩ := (readValue_eq_error_iff hn hv.bare).1 hread
    exact .inr ⟨_, hfault, .notAnInteger hn hv hnone⟩

end

/-! ## Checking values -/

theorem checkSensitivity_cases {values : OrderedMap OptionName Term} (hv : ValuesOf items values) :
    (∃ given, SensitivityIs items given ∧ checkSensitivity (values.get? .sensitivity) =
      .ok ((given.map String.ofList).getD default.sensitivity)) ∨
    ∃ e, checkSensitivity (values.get? .sensitivity) = .error e ∧ Fault items e := by
  cases hget : values.get? .sensitivity with
  | none =>
    refine .inl ⟨none, fun v hgives => ?_, rfl⟩
    rw [(hv.sensitivity _).2 ⟨v, hgives, rfl⟩] at hget
    cases hget
  | some t =>
    obtain ⟨v, hgives, rfl⟩ := (hv.sensitivity t).1 hget
    by_cases hempty : v = []
    · subst hempty
      exact .inr ⟨_, rfl, .empty hgives⟩
    · have hne : String.ofList v ≠ "" := fun h => hempty (String.ofList_injective h)
      exact .inl ⟨some v, ⟨hgives, hempty⟩, if_neg hne⟩

theorem checkLimit_cases {z : Int} (hn : n ≠ .sensitivity) (hgives : Gives items n v)
    (hz : IsInteger v z) :
    (∃ l, LimitIs items n (some l) ∧ checkLimit n (.atom (.int z)) = .ok l) ∨
    ∃ e, checkLimit n (.atom (.int z)) = .error e ∧ Fault items e := by
  cases z with
  | ofNat k => exact .inl ⟨.number k, ⟨v, k, hgives, hz, rfl⟩, rfl⟩
  | negSucc k => exact .inr ⟨_, rfl, .negative hn hgives hz (Int.negSucc_lt_zero k)⟩

/-- A number option is not given, or its value is the integer in the last item that gives one. -/
theorem ValuesOf.limit_cases {values : OrderedMap OptionName Term} (hv : ValuesOf items values)
    (hn : n ≠ .sensitivity) : (values.get? n = none ∧ LimitIs items n none) ∨
      ∃ v z, Gives items n v ∧ IsInteger v z ∧ values.get? n = some (.atom (.int z)) := by
  cases hget : values.get? n with
  | none =>
    refine .inl ⟨rfl, fun v hgives => ?_⟩
    obtain ⟨z, hz⟩ := hv.integer n hn v hgives
    rw [(hv.limit n hn _).2 ⟨v, z, hgives, hz, rfl⟩] at hget
    cases hget
  | some t =>
    obtain ⟨v, z, hgives, hz, rfl⟩ := (hv.limit n hn t).1 hget
    exact .inr ⟨v, z, hgives, hz, rfl⟩

theorem checkMaxIterations_cases {values : OrderedMap OptionName Term}
    (hv : ValuesOf items values) :
    (∃ given, LimitIs items .maxIterations given ∧
      checkMaxIterations (values.get? .maxIterations) = .ok (given.getD default.maxIterations)) ∨
    ∃ e, checkMaxIterations (values.get? .maxIterations) = .error e ∧ Fault items e := by
  rcases hv.limit_cases (n := .maxIterations) nofun with ⟨hget, hnone⟩ | ⟨v, z, hgives, hz, hget⟩
  · rw [hget]
    exact .inl ⟨none, hnone, rfl⟩
  · rw [hget]
    rcases checkLimit_cases (by decide) hgives hz with ⟨l, hl, hok⟩ | hfault
    · exact .inl ⟨some l, hl, hok⟩
    · exact .inr hfault

theorem checkHeapDepth_cases {values : OrderedMap OptionName Term} (hv : ValuesOf items values) :
    (∃ given, LimitIs items .heapDepth given ∧
      checkHeapDepth (values.get? .heapDepth) = .ok given) ∨
    ∃ e, checkHeapDepth (values.get? .heapDepth) = .error e ∧ Fault items e := by
  rcases hv.limit_cases (n := .heapDepth) nofun with ⟨hget, hnone⟩ | ⟨v, z, hgives, hz, hget⟩
  · rw [hget]
    exact .inl ⟨none, hnone, rfl⟩
  · have hcheck : checkHeapDepth (some (.atom (.int z))) =
        (checkLimit .heapDepth (.atom (.int z))).map some := rfl
    rw [hget, hcheck]
    rcases checkLimit_cases (by decide) hgives hz with ⟨l, hl, hok⟩ | ⟨e, he, hfault⟩
    · rw [hok]
      exact .inl ⟨some l, hl, rfl⟩
    · rw [he]
      exact .inr ⟨e, rfl, hfault⟩

theorem parse_of_settings {s : String} {m : OrderedMap String Term}
    (hm : settingsOfText s = .ok m) : parse s = (readValues m.entries ∅).bind ofValues := by
  rw [parse, hm]
  rfl

/-- A text is read as the options that its items say, or refused for a fault that it has. -/
theorem parse_cases {s : String} (hs : Cut s.toList items) :
    (∃ o, parse s = .ok o ∧ Says items o) ∨ ∃ e, parse s = .error e ∧ Fault items e := by
  rcases settingsOfText_cases hs with ⟨m, hm, hbinds, hitems⟩ | ⟨i, hi, hb, heq, hfault⟩
  · rcases readSettings_cases hbinds hitems with ⟨values, hok, hv, hitem⟩ | ⟨e, he, hfault⟩
    · have hparse : parse s = ofValues values := by rw [parse_of_settings hm, hok]; rfl
      rw [hparse, ofValues]
      rcases checkSensitivity_cases hv with ⟨cs, hcs, hok⟩ | ⟨e, he, hfault⟩
      · rw [hok]
        rcases checkMaxIterations_cases hv with ⟨l, hl, hok⟩ | ⟨e, he, hfault⟩
        · rw [hok]
          rcases checkHeapDepth_cases hv with ⟨d, hd, hok⟩ | ⟨e, he, hfault⟩
          · rw [hok]
            exact .inl ⟨_, rfl, hitem, ⟨cs, hcs, rfl⟩, ⟨l, hl, rfl⟩, hd⟩
          · rw [he]
            exact .inr ⟨e, rfl, hfault⟩
        · rw [he]
          exact .inr ⟨e, rfl, hfault⟩
      · rw [he]
        exact .inr ⟨e, rfl, hfault⟩
    · refine .inr ⟨e, ?_, hfault⟩
      rw [parse_of_settings hm, he]
      rfl
  · refine .inr ⟨_, ?_, .malformed hi hb heq (Text.pads_trim i)⟩
    rw [parse, hfault]
    rfl

/-! ## Options that were written down -/

/-- The text that stands for an option, where it has a value. A truth value is written as the
number it counts as. -/
def value? (o : Options) : OptionName → Option (List Char)
  | .sensitivity => some o.sensitivity.toList
  | .maxIterations => some (toString o.maxIterations.toNat).toList
  | .heapDepth => o.heapDepth.map fun d => (toString d.toNat).toList

/-- The items give every option its value. What comes before the last item of an option gives it
any value, and between the items there may be blank ones. -/
structure Written (o : Options) (items : List (List Char)) : Prop where
  item : ∀ i ∈ items, Blank i ∨
    ∃ n v, (o.value? n).isSome = true ∧ Assigns i (OptionName.toString n).toList v
  last : ∀ n v, o.value? n = some v → Gives items n v

variable {o o' : Options}

theorem isInteger_of_value? (hn : n ≠ .sensitivity) (hv : o.value? n = some v) :
    ∃ k : Nat, IsInteger v k := by
  cases n with
  | sensitivity => exact absurd rfl hn
  | maxIterations =>
    obtain rfl := Option.some.inj hv
    exact ⟨_, Text.isInteger_toString _⟩
  | heapDepth =>
    obtain ⟨d, -, rfl⟩ := Option.map_eq_some_iff.1 hv
    exact ⟨_, Text.isInteger_toString _⟩

/-- Nothing but the options themselves counts in the end. -/
theorem Written.gives_iff (h : o.Written items) : Gives items n v ↔ o.value? n = some v := by
  constructor
  · intro hgives
    obtain ⟨i, hi, ha⟩ := hgives.assigned
    rcases h.item i hi with hb | ⟨n', w, hn', ha'⟩
    · exact absurd ha (not_assigns_of_blank hb)
    · obtain rfl := OptionName.toString_injective (String.toList_inj.1 (ha.unique ha').1)
      obtain ⟨u, hu⟩ := Option.isSome_iff_exists.1 hn'
      rw [hgives.unique (h.last n u hu), hu]
  · exact h.last n v

theorem Written.no_fault (h : o.Written items) (hne : o.sensitivity ≠ "") {e : OptionError} :
    ¬ Fault items e := by
  intro hfault
  cases hfault with
  | malformed hi hb heq _ =>
    rcases h.item _ hi with hblank | ⟨n, v, -, ha⟩
    · exact hb hblank
    · exact heq ha.mem
  | unknown hi ha hname =>
    rcases h.item _ hi with hblank | ⟨n, v, -, ha'⟩
    · exact not_assigns_of_blank hblank ha
    · exact hname n (ha.unique ha').1
  | notAnInteger hn hgives htext =>
    obtain ⟨k, hk⟩ := isInteger_of_value? hn (h.gives_iff.1 hgives)
    exact htext _ hk
  | negative hn hgives hz hbelow =>
    obtain ⟨k, hk⟩ := isInteger_of_value? hn (h.gives_iff.1 hgives)
    rw [hgives.bare.isInteger_unique hz hk] at hbelow
    exact absurd hbelow (by omega)
  | empty hgives =>
    exact hne (String.toList_inj.1 (Option.some.inj (h.gives_iff.1 hgives)))

theorem LimitIs.toNat {l : Limit} {k : Nat} (h : LimitIs items n (some l))
    (hk : Gives items n (toString k).toList) : l.toNat = k := by
  obtain ⟨v, j, hgives, hj, rfl⟩ := h
  obtain rfl := hgives.unique hk
  exact Int.ofNat_inj.1 (hgives.bare.isInteger_unique hj (Text.isInteger_toString k))

theorem Written.sameAs (h : o.Written items) (hsay : Says items o') : o'.sameAs o = true := by
  obtain ⟨-, ⟨cs, hcs, hsens⟩, ⟨l, hl, hmax⟩, hheap⟩ := hsay
  have hsens' : o'.sensitivity = o.sensitivity := by
    have hgives := h.last .sensitivity _ rfl
    cases cs with
    | none => exact absurd hgives (hcs _)
    | some v => rw [hsens, hcs.1.unique hgives]; exact String.ofList_toList
  have hmax' : o'.maxIterations.toNat = o.maxIterations.toNat := by
    have hgives := h.last .maxIterations _ rfl
    cases l with
    | none => exact absurd hgives (hl _)
    | some l => rw [hmax]; exact hl.toNat hgives
  have hheap' : o'.heapDepth.map Limit.toNat = o.heapDepth.map Limit.toNat := by
    cases hd' : o'.heapDepth with
    | none =>
      rw [hd'] at hheap
      cases hd : o.heapDepth with
      | none => rfl
      | some d => exact absurd (h.last .heapDepth _ (by rw [value?, hd]; rfl)) (hheap _)
    | some d' =>
      rw [hd'] at hheap
      cases hd : o.heapDepth with
      | none =>
        obtain ⟨v, -, hgives, -⟩ := hheap
        have hvalue := h.gives_iff.1 hgives
        rw [value?, hd] at hvalue
        cases hvalue
      | some d =>
        have hgives := h.last .heapDepth _ (by rw [value?, hd]; rfl)
        exact congrArg some (hheap.toNat hgives)
  simp [Options.sameAs, hsens', hmax', hheap']

theorem Says.sensitivity_ne (h : Says items o) : o.sensitivity ≠ "" := by
  obtain ⟨cs, hcs, hsens⟩ := h.sensitivity
  rw [hsens]
  cases cs with
  | none => decide
  | some v => exact fun hempty => hcs.2 (String.ofList_injective hempty)

/-- Options that were written down in a text are read back from it, and any text is either read as
options that hold, namely those that its items say, or refused for a fault that it has. A value
that is written down has no semicolon and no blank at an end, since the items are what stands
between semicolons and blanks do not belong to a value. -/
theorem parse_reads_back :
    (∀ (o : Options) (s : String) (items : List (List Char)), o.sensitivity ≠ "" →
      Cut s.toList items → o.Written items → ∃ o', parse s = .ok o' ∧ o'.sameAs o = true) ∧
    ∀ s : String, ∃ items, Cut s.toList items ∧
      ((∃ o, parse s = .ok o ∧ o.sensitivity ≠ "" ∧ Says items o) ∨
        ∃ e, parse s = .error e ∧ Fault items e) := by
  constructor
  · intro o s items hne hs ho
    rcases parse_cases hs with ⟨o', hok, hsay⟩ | ⟨e, -, hfault⟩
    · exact ⟨o', hok, ho.sameAs hsay⟩
    · exact absurd hfault (ho.no_fault hne)
  · intro s
    have hs := cut_iff.2 (rfl : splitAt ';' s.toList = _)
    refine ⟨_, hs, ?_⟩
    rcases parse_cases hs with ⟨o, hok, hsay⟩ | hfault
    · exact .inl ⟨o, hok, hsay.sensitivity_ne, hsay⟩
    · exact .inr hfault

/-! ### A value with an equals sign -/

namespace OverriddenBound

/-- The first bound on the rounds is no number, but it does not count. -/
def text : String := " cs = a=b ;; maxIterations=x; maxIterations = 1"

def parts : List (List Char) :=
  [" cs = a=b ".toList, [], " maxIterations=x".toList, " maxIterations = 1".toList]

def options : Options := ⟨"a=b", .flag true, none⟩

theorem cut : Cut text.toList parts := cut_iff.2 (by decide)

theorem assigns_sensitivity : Assigns " cs = a=b ".toList "cs".toList "a=b".toList :=
  ⟨" cs ".toList, " a=b ".toList, by decide, by decide, Text.trim_eq_iff.1 (by decide),
    Text.trim_eq_iff.1 (by decide)⟩

theorem assigns_text : Assigns " maxIterations=x".toList "maxIterations".toList "x".toList :=
  ⟨" maxIterations".toList, "x".toList, by decide, by decide, Text.trim_eq_iff.1 (by decide),
    Text.trim_eq_iff.1 (by decide)⟩

theorem assigns_one : Assigns " maxIterations = 1".toList "maxIterations".toList "1".toList :=
  ⟨" maxIterations ".toList, " 1".toList, by decide, by decide, Text.trim_eq_iff.1 (by decide),
    Text.trim_eq_iff.1 (by decide)⟩

theorem written : options.Written parts where
  item := by
    simp only [parts, List.forall_mem_cons]
    exact ⟨.inr ⟨.sensitivity, _, rfl, assigns_sensitivity⟩, .inl nofun,
      .inr ⟨.maxIterations, _, rfl, assigns_text⟩, .inr ⟨.maxIterations, _, rfl, assigns_one⟩,
      nofun⟩
  last := by
    intro n v hv
    cases n with
    | sensitivity =>
      obtain rfl := Option.some.inj hv
      have hother : ∀ {i w}, Assigns i "maxIterations".toList w →
          ∀ v, ¬ Assigns i "cs".toList v := fun ha v hv =>
        absurd (ha.unique hv).1 (by decide)
      refine ⟨[], _, _, rfl, assigns_sensitivity, ?_⟩
      simp only [List.forall_mem_cons]
      exact ⟨fun v => not_assigns_of_blank nofun, hother assigns_text, hother assigns_one, nofun⟩
    | maxIterations =>
      obtain rfl := Option.some.inj hv
      exact ⟨parts.take 3, _, [], rfl, assigns_one, nofun⟩
    | heapDepth => cases hv

/-- The value that is read counts as true. -/
theorem parse_reads_back_text : options.sensitivity ≠ "" ∧ Cut text.toList parts ∧
    options.Written parts ∧ ∃ o, parse text = .ok o ∧ o.sameAs options = true :=
  ⟨by decide, cut, written, parse_reads_back.1 options text parts (by decide) cut written⟩

end OverriddenBound

end Options

end ObjectFlow
