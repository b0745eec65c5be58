import Mathlib.Data.List.Forall2
import Mathlib.Data.Nat.Digits.Defs
import Mathlib.Tactic.Ring
import ObjectFlow.Text.Integer
/-!
# Numerals

A digit may be of any script, and a numeral denotes what its digits amount to, the first
one counting most. A length is a run of digits. An integer may also have a sign and single
underscores between its digits. What is read are exactly these numerals.
-/

namespace ObjectFlow.Text

/-! ## Digits -/

/-- The character is the decimal digit of a value in some script. -/
def IsDecimal (c : Char) (d : Nat) : Prop := d < 10 ∧ ∃ z ∈ decimalZeros, c.toNat = z + d

theorem zeros_apart : ∀ y ∈ decimalZeros, ∀ z ∈ decimalZeros, y < z → y + 10 ≤ z := by
  decide +kernel

theorem digitValue?_eq_some_iff {c : Char} {d : Nat} : digitValue? c = some d ↔ IsDecimal c d := by
  constructor
  · intro h
    obtain ⟨z, hz, rfl⟩ := Option.map_eq_some_iff.1 h
    have hrun := List.find?_some hz
    simp only [Bool.and_eq_true, decide_eq_true_eq] at hrun
    exact ⟨by omega, z, List.mem_of_find?_eq_some hz, by omega⟩
  · rintro ⟨hd, z, hz, hc⟩
    obtain ⟨y, hy⟩ : ∃ y, (decimalZeros.find? fun z =>
        decide (z ≤ c.toNat) && decide (c.toNat < z + 10)) = some y := by
      refine Option.isSome_iff_exists.1 (List.find?_isSome.2 ⟨z, hz, ?_⟩)
      simp only [Bool.and_eq_true, decide_eq_true_eq]
      omega
    have hrun := List.find?_some hy
    simp only [Bool.and_eq_true, decide_eq_true_eq] at hrun
    -- the runs of two zeros do not overlap
    have hyz := zeros_apart y (List.mem_of_find?_eq_some hy) z hz
    have hzy := zeros_apart z hz y (List.mem_of_find?_eq_some hy)
    unfold digitValue?
    rw [hy, Option.map_some]
    congr 1
    omega

theorem isDigit_iff {c : Char} : isDigit c = true ↔ ∃ d, IsDecimal c d := by
  simp only [isDigit, Option.isSome_iff_exists, digitValue?_eq_some_iff]

theorem isDecimal_ascii {c : Char} (h : c.isDigit = true) : IsDecimal c (c.toNat - '0'.toNat) := by
  have hc : 48 ≤ c.toNat ∧ c.toNat ≤ 57 := by
    simp only [Char.isDigit, Bool.and_eq_true, decide_eq_true_eq, ge_iff_le, UInt32.le_iff_toNat_le]
      at h
    exact h
  have hz : '0'.toNat = 48 := rfl
  exact ⟨by omega, 0x30, by decide, by omega⟩

/-! ## Runs of digits -/

theorem mapM_eq_some_iff {α β : Type} {f : α → Option β} {l : List α} {l' : List β} :
    l.mapM f = some l' ↔ List.Forall₂ (fun a b => f a = some b) l l' := by
  induction l generalizing l' with
  | nil => cases l' <;> simp
  | cons a l ih =>
    cases l' with
    | nil => simp [List.mapM_cons, Option.bind_eq_some_iff]
    | cons b l' => simp [List.mapM_cons, Option.bind_eq_some_iff, ih]

theorem digitsValue_eq (acc : Nat) (ds : List Nat) :
    digitsValue acc ds = acc * 10 ^ ds.length + Nat.ofDigits 10 ds.reverse := by
  induction ds generalizing acc with
  | nil => simp [digitsValue]
  | cons d ds ih =>
    rw [digitsValue, ih, List.reverse_cons, Nat.ofDigits_append, Nat.ofDigits_singleton,
      List.length_reverse, List.length_cons, pow_succ]
    ring

theorem digitsValue_zero (ds : List Nat) : digitsValue 0 ds = Nat.ofDigits 10 ds.reverse := by
  rw [digitsValue_eq, Nat.zero_mul, Nat.zero_add]

/-- The text is a run of digits that amount to the number. -/
def Spells (cs : List Char) (n : Nat) : Prop :=
  cs ≠ [] ∧ ∃ ds, List.Forall₂ IsDecimal cs ds ∧ Nat.ofDigits 10 ds.reverse = n

theorem readDigits?_eq_some_iff {cs : List Char} {n : Nat} :
    readDigits? cs = some n ↔ Spells cs n := by
  have hvalue : (cs.mapM digitValue?).map (digitsValue 0) = some n ↔
      ∃ ds, List.Forall₂ IsDecimal cs ds ∧ Nat.ofDigits 10 ds.reverse = n := by
    simp only [Option.map_eq_some_iff, mapM_eq_some_iff, digitValue?_eq_some_iff, digitsValue_zero]
  cases cs with
  | nil => simp [readDigits?, Spells]
  | cons c cs => exact hvalue.trans (and_iff_right (List.cons_ne_nil c cs)).symm

theorem isDigit_of_forall₂ {cs : List Char} {ds : List Nat} (h : List.Forall₂ IsDecimal cs ds) :
    ∀ c ∈ cs, isDigit c = true := by
  induction h with
  | nil => exact fun _ hc => absurd hc List.not_mem_nil
  | cons hc _ ih => exact List.forall_mem_cons.2 ⟨isDigit_iff.2 ⟨_, hc⟩, ih⟩

theorem Spells.isDigit {cs : List Char} {n : Nat} (h : Spells cs n) :
    ∀ c ∈ cs, isDigit c = true := by
  obtain ⟨-, ds, hds, -⟩ := h
  exact isDigit_of_forall₂ hds

/-! ## Integers -/

/-- The values of digits between which single underscores may stand. -/
inductive Grouped : List Char → List Nat → Prop
  | last {c : Char} {d : Nat} (digit : IsDecimal c d) : Grouped [c] [d]
  | next {c : Char} {d : Nat} {cs : List Char} {ds : List Nat} (digit : IsDecimal c d)
      (rest : Grouped cs ds) : Grouped (c :: cs) (d :: ds)
  | spaced {c : Char} {d : Nat} {cs : List Char} {ds : List Nat} (digit : IsDecimal c d)
      (rest : Grouped cs ds) : Grouped (c :: '_' :: cs) (d :: ds)

theorem ne_of_isDecimal {c e : Char} {d : Nat} (h : IsDecimal c d) (he : isDigit e = false) :
    c ≠ e := by
  rintro rfl
  rw [isDigit_iff.2 ⟨d, h⟩] at he
  cases he

theorem groupedDigits?_eq_some_iff {cs : List Char} {ds : List Nat} :
    groupedDigits? cs = some ds ↔ Grouped cs ds := by
  constructor
  · intro h
    fun_induction groupedDigits? cs generalizing ds with
    | case1 => cases h
    | case2 c =>
      obtain ⟨d, hd, rfl⟩ := Option.map_eq_some_iff.1 h
      exact .last (digitValue?_eq_some_iff.1 hd)
    | case3 c cs ih =>
      simp only [Option.bind_eq_bind, Option.bind_eq_some_iff, Option.some.injEq] at h
      obtain ⟨d, hd, ds, hds, rfl⟩ := h
      exact .spaced (digitValue?_eq_some_iff.1 hd) (ih hds)
    | case4 c d cs _ ih =>
      simp only [Option.bind_eq_bind, Option.bind_eq_some_iff, Option.some.injEq] at h
      obtain ⟨v, hv, ds, hds, rfl⟩ := h
      exact .next (digitValue?_eq_some_iff.1 hv) (ih hds)
  · intro h
    induction h with
    | last hc => simp [groupedDigits?, digitValue?_eq_some_iff.2 hc]
    | @spaced c d cs ds hc _ ih => simp [groupedDigits?, digitValue?_eq_some_iff.2 hc, ih]
    | @next c d cs ds hc hcs ih =>
      cases cs with
      | nil => cases hcs
      | cons e cs =>
        have he : e ≠ '_' := by
          cases hcs <;> exact ne_of_isDecimal ‹_› (by decide)
        rw [groupedDigits?, digitValue?_eq_some_iff.2 hc, ih]
        · rfl
        · exact he

/-- The text is an integer: digits, with a sign in front or without. -/
inductive IsInteger : List Char → Int → Prop
  | plain {cs : List Char} {ds : List Nat} (digits : Grouped cs ds) :
      IsInteger cs (Nat.ofDigits 10 ds.reverse : Nat)
  | plus {cs : List Char} {ds : List Nat} (digits : Grouped cs ds) :
      IsInteger ('+' :: cs) (Nat.ofDigits 10 ds.reverse : Nat)
  | minus {cs : List Char} {ds : List Nat} (digits : Grouped cs ds) :
      IsInteger ('-' :: cs) (-(Nat.ofDigits 10 ds.reverse : Nat))

theorem readNat?_eq_some_iff {cs : List Char} {n : Nat} :
    readNat? cs = some n ↔ ∃ ds, Grouped cs ds ∧ Nat.ofDigits 10 ds.reverse = n := by
  simp only [readNat?, Option.map_eq_some_iff, groupedDigits?_eq_some_iff, digitsValue_zero]

theorem Grouped.head_isDecimal {cs : List Char} {ds : List Nat} (h : Grouped cs ds) :
    ∃ c rest d, cs = c :: rest ∧ IsDecimal c d := by
  cases h <;> exact ⟨_, _, _, rfl, ‹_›⟩

theorem readInt?_eq_some_iff {s : String} {n : Int} :
    readInt? s = some n ↔ IsInteger (trimWhere isNumberBlank s.toList) n := by
  unfold readInt?
  generalize trimWhere isNumberBlank s.toList = cs
  constructor
  · intro h
    split at h <;> obtain ⟨m, hm, rfl⟩ := Option.map_eq_some_iff.1 h <;>
      obtain ⟨ds, hds, rfl⟩ := readNat?_eq_some_iff.1 hm
    · exact .plus hds
    · exact .minus hds
    · exact .plain hds
  · intro h
    cases h with
    | plus hds => exact Option.map_eq_some_iff.2 ⟨_, readNat?_eq_some_iff.2 ⟨_, hds, rfl⟩, rfl⟩
    | minus hds => exact Option.map_eq_some_iff.2 ⟨_, readNat?_eq_some_iff.2 ⟨_, hds, rfl⟩, rfl⟩
    | plain hds =>
      -- a digit is no sign
      obtain ⟨c, rest, d, rfl, hc⟩ := hds.head_isDecimal
      split
      · rename_i heq
        exact absurd (List.cons.inj heq).1 (ne_of_isDecimal hc (by decide))
      · rename_i heq
        exact absurd (List.cons.inj heq).1 (ne_of_isDecimal hc (by decide))
      · exact Option.map_eq_some_iff.2 ⟨_, readNat?_eq_some_iff.2 ⟨_, hds, rfl⟩, rfl⟩

/-! ### Written numbers -/

theorem grouped_of_isDigit {cs : List Char} (hne : cs ≠ []) (h : ∀ c ∈ cs, c.isDigit = true) :
    Grouped cs (cs.map fun c => c.toNat - '0'.toNat) := by
  induction cs with
  | nil => exact absurd rfl hne
  | cons c cs ih =>
    obtain ⟨hc, hcs⟩ := List.forall_mem_cons.1 h
    by_cases hrest : cs = []
    · subst hrest
      exact .last (isDecimal_ascii hc)
    · exact .next (isDecimal_ascii hc) (ih hrest hcs)

theorem digitsValue_map (acc : Nat) (cs : List Char) :
    digitsValue acc (cs.map fun c => c.toNat - '0'.toNat) = Nat.ofDigitChars 10 cs acc := by
  induction cs generalizing acc with
  | nil => rfl
  | cons c cs ih => rw [List.map_cons, digitsValue, ih, Nat.ofDigitChars_cons, Nat.mul_comm]

/-- A number as it is usually written is an integer in this sense. -/
theorem isInteger_toString (n : Nat) : IsInteger (toString n).toList n := by
  have hlist : (toString n).toList = Nat.toDigits 10 n := Nat.toList_repr
  have hdigits : ∀ c ∈ Nat.toDigits 10 n, c.isDigit = true := fun c hc =>
    Nat.isDigit_of_mem_toDigits (by decide) (by decide) hc
  have hvalue : Nat.ofDigits 10
      ((Nat.toDigits 10 n).map fun c => c.toNat - '0'.toNat).reverse = n := by
    rw [← digitsValue_zero, digitsValue_map, Nat.ofDigitChars_ten_toDigits]
  have hint := IsInteger.plain (grouped_of_isDigit Nat.toDigits_ne_nil hdigits)
  rwa [hvalue, ← hlist] at hint

end ObjectFlow.Text
