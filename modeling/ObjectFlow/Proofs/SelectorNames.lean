import Mathlib.Data.List.TakeDrop
import ObjectFlow.PointsTo.Selector
import ObjectFlow.Proofs.Numerals
/-!
# Names of selectors

A selector is named by `ci`, or by a length of at least one, a hyphen and a kind. All names
are read as the selectors they name, and other texts are refused. But a line end behind a
length and a kind goes unnoticed.
-/

namespace ObjectFlow.Selector

open Text (Spells)

variable {heapDepth : Option Int} {s : Selector} {f : Sensitivity} {name : String}
  {cs t : List Char}

/-- What a text names, with nothing in front of it and nothing behind. Without a heap depth, the
contexts of objects are one shorter than those of methods. -/
inductive Names (heapDepth : Option Int) : List Char → Selector → Prop
  | insensitive : Names heapDepth "ci".toList .insensitive
  | limited {digits : List Char} {k : Nat} (f : Sensitivity) (length : Spells digits k)
      (positive : 1 ≤ k) :
      Names heapDepth (digits ++ '-' :: f.name.toList) (.limited f k (heapDepth.getD (k - 1)))

/-! ## Line ends -/

theorem dropLineEnd_eq_iff (ht : t.getLast? ≠ some '\n') :
    dropLineEnd cs = t ↔ cs = t ∨ cs = t ++ ['\n'] := by
  rcases List.eq_nil_or_concat' cs with rfl | ⟨cs, c, rfl⟩
  · simp [dropLineEnd]
  · by_cases hc : c = '\n'
    · subst hc
      have hne : cs ++ ['\n'] ≠ t := fun h => ht (by rw [← h, List.getLast?_concat])
      simp [dropLineEnd, hne]
    · have hne : cs ++ [c] ≠ t ++ ['\n'] := fun h =>
        hc (List.head_eq_of_cons_eq (List.append_inj' h rfl).2)
      simp [dropLineEnd, hc, hne]

/-- No name ends in a line end. -/
theorem getLast?_part (digits : List Char) (f : Sensitivity) :
    (digits ++ '-' :: f.name.toList).getLast? ≠ some '\n' := by
  have hlast : (digits ++ '-' :: f.name.toList).getLast? = ('-' :: f.name.toList).getLast? := by
    rw [List.getLast?_append_of_ne_nil _ (List.cons_ne_nil _ _)]
  rw [hlast]
  cases f <;> decide

/-! ## Lengths and kinds -/

theorem ofName?_eq_some_iff {n : String} : Sensitivity.ofName? n = some f ↔ n = f.name := by
  constructor
  · intro h
    have hname := List.find?_some h
    exact (of_decide_eq_true hname).symm
  · rintro rfl
    cases f <;> decide

/-- The digits of a text are those in front of its first hyphen. -/
theorem span_isDigit_iff {digits rest : List Char} :
    cs.span Text.isDigit = (digits, '-' :: rest) ↔
      cs = digits ++ '-' :: rest ∧ ∀ c ∈ digits, Text.isDigit c = true := by
  rw [List.span_eq_takeWhile_dropWhile, Prod.mk.injEq]
  constructor
  · rintro ⟨rfl, hrest⟩
    rw [← hrest, List.takeWhile_append_dropWhile]
    exact ⟨rfl, List.all_eq_true.1 List.all_takeWhile⟩
  · rintro ⟨rfl, hdigits⟩
    have hhyphen : Text.isDigit '-' = false := by decide
    rw [List.takeWhile_append_of_pos hdigits, List.dropWhile_append_of_pos hdigits,
      List.takeWhile_cons_of_neg (by simp [hhyphen]),
      List.dropWhile_cons_of_neg (by simp [hhyphen])]
    exact ⟨List.append_nil _, rfl⟩

theorem readParts?_eq_some_iff {k : Nat} : readParts? name = some (k, f) ↔
    ∃ digits, Spells digits k ∧ dropLineEnd name.toList = digits ++ '-' :: f.name.toList := by
  unfold readParts?
  constructor
  · intro h
    split at h
    · rename_i digits kind hspan
      simp only [Option.bind_eq_bind, Option.bind_eq_some_iff, Option.some.injEq,
        Prod.mk.injEq] at h
      obtain ⟨k', hk, f', hf, rfl, rfl⟩ := h
      have hkind : kind = f'.name.toList := by
        rw [← ofName?_eq_some_iff.1 hf, String.toList_ofList]
      exact ⟨digits, Text.readDigits?_eq_some_iff.1 hk, hkind ▸ (span_isDigit_iff.1 hspan).1⟩
    · cases h
  · rintro ⟨digits, hk, htext⟩
    have hspan := span_isDigit_iff.2 ⟨htext, hk.isDigit⟩
    have hf : Sensitivity.ofName? (String.ofList f.name.toList) = some f :=
      ofName?_eq_some_iff.2 (String.ofList_toList)
    simp only [hspan, Text.readDigits?_eq_some_iff.2 hk, hf, Option.bind_eq_bind, Option.bind_some]

/-! ## What is read -/

/-- The text has a number of a length, a hyphen and a kind, and perhaps one line end behind them. -/
def HasParts (cs : List Char) (k : Nat) (f : Sensitivity) : Prop :=
  ∃ digits, Spells digits k ∧
    (cs = digits ++ '-' :: f.name.toList ∨ cs = digits ++ '-' :: f.name.toList ++ ['\n'])

theorem readParts?_iff_hasParts {k : Nat} :
    readParts? name = some (k, f) ↔ HasParts name.toList k f := by
  simp only [readParts?_eq_some_iff, HasParts, dropLineEnd_eq_iff (getLast?_part _ f)]

theorem read_ci : read "ci" heapDepth = .ok .insensitive := rfl

theorem read_of_hasParts {k : Nat} (h : HasParts name.toList k f) : read name heapDepth =
    if k = 0 then .error (.emptyContexts name)
    else .ok (.limited f k (heapDepth.getD (k - 1))) := by
  have hparts := readParts?_iff_hasParts.2 h
  have hci : name ≠ "ci" := by
    rintro rfl
    have hnone : readParts? "ci" = none := by decide
    rw [hparts] at hnone
    cases hnone
  rw [read, if_neg hci, hparts]
  cases k with
  | zero => rfl
  | succ k => simp

theorem read_of_no_parts (hci : name ≠ "ci") (h : ∀ k f, ¬ HasParts name.toList k f) :
    read name heapDepth = .error (.unknownSensitivity name) := by
  have hnone : readParts? name = none := by
    cases hparts : readParts? name with
    | none => rfl
    | some parts => exact absurd (readParts?_iff_hasParts.1 hparts) (h _ _)
  rw [read, if_neg hci, hnone]

theorem Names.hasParts (h : Names heapDepth cs s) (hs : s ≠ .insensitive) :
    ∃ k f, 1 ≤ k ∧ s = .limited f k (heapDepth.getD (k - 1)) ∧ HasParts cs k f ∧
      HasParts (cs ++ ['\n']) k f := by
  cases h with
  | insensitive => exact absurd rfl hs
  | limited f hk hpos =>
    exact ⟨_, f, hpos, rfl, ⟨_, hk, .inl rfl⟩, ⟨_, hk, .inr rfl⟩⟩

/-- A text that names a selector is read as that, also with a line end behind a length and a kind,
and nothing else is read. -/
theorem read_eq_ok_iff : read name heapDepth = .ok s ↔ Names heapDepth name.toList s ∨
    ∃ cs, name.toList = cs ++ ['\n'] ∧ Names heapDepth cs s ∧ s ≠ .insensitive := by
  constructor
  · intro h
    by_cases hci : name = "ci"
    · subst hci
      obtain rfl := Except.ok.inj h
      exact .inl .insensitive
    by_cases hparts : ∃ k f, HasParts name.toList k f
    · obtain ⟨k, f, hkf⟩ := hparts
      rw [read_of_hasParts hkf] at h
      split at h
      · cases h
      · rename_i hk
        obtain rfl := Except.ok.inj h
        obtain ⟨digits, hdigits, htext | htext⟩ := hkf
        · exact .inl (htext ▸ .limited f hdigits (Nat.pos_of_ne_zero hk))
        · exact .inr ⟨_, htext, .limited f hdigits (Nat.pos_of_ne_zero hk), nofun⟩
    · rw [read_of_no_parts hci fun k f hkf => hparts ⟨k, f, hkf⟩] at h
      cases h
  · intro h
    have hread : ∀ {k f}, HasParts name.toList k f → 1 ≤ k →
        read name heapDepth = .ok (.limited f k (heapDepth.getD (k - 1))) := by
      intro k f hkf hk
      rw [read_of_hasParts hkf, if_neg (Nat.ne_of_gt hk)]
    by_cases hs : s = .insensitive
    · subst hs
      rcases h with h | ⟨_, _, _, hne⟩
      · generalize hcs : name.toList = cs at h
        cases h with
        | insensitive => rw [String.toList_inj.1 hcs, read_ci]
      · exact absurd rfl hne
    · rcases h with h | ⟨cs, hcs, h, -⟩
      · obtain ⟨k, f, hk, rfl, hkf, -⟩ := h.hasParts hs
        exact hread hkf hk
      · obtain ⟨k, f, hk, rfl, -, hkf⟩ := h.hasParts hs
        exact hread (hcs ▸ hkf) hk

theorem read_eq_error_iff {e : OptionError} : read name heapDepth = .error e ↔
    (e = .emptyContexts name ∧ ∃ f, HasParts name.toList 0 f) ∨
    (e = .unknownSensitivity name ∧ name ≠ "ci" ∧ ∀ k f, ¬ HasParts name.toList k f) := by
  constructor
  · intro h
    by_cases hci : name = "ci"
    · subst hci
      cases h
    by_cases hparts : ∃ k f, HasParts name.toList k f
    · obtain ⟨k, f, hkf⟩ := hparts
      rw [read_of_hasParts hkf] at h
      split at h
      · rename_i hk
        subst hk
        exact .inl ⟨(Except.error.inj h).symm, f, hkf⟩
      · cases h
    · have hnone : ∀ k f, ¬ HasParts name.toList k f := fun k f hkf => hparts ⟨k, f, hkf⟩
      rw [read_of_no_parts hci hnone] at h
      exact .inr ⟨(Except.error.inj h).symm, hci, hnone⟩
  · rintro (⟨rfl, f, hf⟩ | ⟨rfl, hci, hnone⟩)
    · rw [read_of_hasParts hf, if_pos rfl]
    · exact read_of_no_parts hci hnone

theorem Names.getLast?_ne (h : Names heapDepth cs s) : cs.getLast? ≠ some '\n' := by
  cases h with
  | insensitive => decide
  | limited f _ _ => exact getLast?_part _ f

/-- Every text is read as the selector that it names or refused, for a length of zero or because it
names none, except that a line end behind a length and a kind goes unnoticed. So exactly the names
are read, unless the text is such a name with a line end behind it. -/
theorem names_read (name : String) (heapDepth : Option Int) :
    (∀ s, read name heapDepth = .ok s ↔ Names heapDepth name.toList s ∨
      ∃ cs, name.toList = cs ++ ['\n'] ∧ Names heapDepth cs s ∧ s ≠ .insensitive) ∧
    (∀ e, read name heapDepth = .error e ↔
      (e = .emptyContexts name ∧ ∃ f, HasParts name.toList 0 f) ∨
      (e = .unknownSensitivity name ∧ name ≠ "ci" ∧ ∀ k f, ¬ HasParts name.toList k f)) ∧
    ((∀ s, read name heapDepth = .ok s ↔ Names heapDepth name.toList s) ↔
      ∀ cs s, name.toList = cs ++ ['\n'] → Names heapDepth cs s → s = .insensitive) := by
  refine ⟨fun s => read_eq_ok_iff, fun e => read_eq_error_iff, ?_⟩
  constructor
  · intro hexact cs s hcs hs
    by_contra hne
    have hread := read_eq_ok_iff.2 (.inr ⟨cs, hcs, hs, hne⟩)
    -- a name does not end in a line end
    exact ((hexact s).1 hread).getLast?_ne (by rw [hcs, List.getLast?_concat])
  · intro hnone s
    rw [read_eq_ok_iff]
    refine or_iff_left ?_
    rintro ⟨cs, hcs, hs, hne⟩
    exact hne (hnone cs s hcs hs)

/-! ### Digits of another script -/

namespace ThreeObjects

/-- The length is three. -/
def text : String := "\u0663-obj"

theorem spells_three : Spells ['\u0663'] 3 := Text.readDigits?_eq_some_iff.1 (by decide)

theorem names_text : Names (some 5) text.toList (.limited .object 3 5) :=
  .limited .object spells_three (by decide)

/-- Without a line end the name is what is read. -/
theorem names_read_three : Names (some 5) text.toList (.limited .object 3 5) ∧
    (∀ cs s, text.toList = cs ++ ['\n'] → Names (some 5) cs s → s = .insensitive) ∧
    (∀ s, read text (some 5) = .ok s ↔ Names (some 5) text.toList s) ∧
    read text (some 5) = .ok (.limited .object 3 5) := by
  have hend : ∀ cs s, text.toList = cs ++ ['\n'] → Names (some 5) cs s → s = .insensitive := by
    intro cs s hcs _
    have hlast : text.toList.getLast? ≠ some '\n' := by decide
    exact absurd (by rw [hcs, List.getLast?_concat]) hlast
  obtain ⟨-, -, hexact⟩ := names_read text (some 5)
  exact ⟨names_text, hend, hexact.2 hend, (hexact.2 hend _).2 names_text⟩

end ThreeObjects

/-- The line end behind `1-call` is not seen, so a text is read that names no selector. -/
theorem lineEnd_unnoticed : read "1-call\n" none = .ok (.limited .callSite 1 0) ∧
    (∀ s, ¬ Names none "1-call\n".toList s) ∧
    ¬ ∀ name heapDepth s, read name heapDepth = .ok s ↔ Names heapDepth name.toList s := by
  have hread : read "1-call\n" none = .ok (.limited .callSite 1 0) := by decide
  have hnone : ∀ s, ¬ Names none "1-call\n".toList s := fun s h => h.getLast?_ne (by decide)
  exact ⟨hread, hnone, fun hall => hnone _ ((hall _ _ _).1 hread)⟩

end ObjectFlow.Selector
