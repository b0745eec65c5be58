import Mathlib.Data.Int.Bitwise
import Mathlib.Data.Int.ModEq
import ObjectFlow.Proofs.Words
/-!
# Folding is machine arithmetic

Operations are folded on integers of any size, whose bits go on for ever, and the
result is wrapped to 32 bits. On words this is the arithmetic of a machine in two's
complement. What only depends on the last 32 bits may as well be wrapped before.
-/

namespace ObjectFlow

/-! ## Wrapping -/

/-- The signed value of the last 32 bits of an integer. -/
def wrap (n : Int) : Int := if n % 2 ^ 32 < 2 ^ 31 then n % 2 ^ 32 else n % 2 ^ 32 - 2 ^ 32

/-- The integer is the signed value of a word. -/
def InWord (n : Int) : Prop := -2 ^ 31 ≤ n ∧ n < 2 ^ 31

instance (n : Int) : Decidable (InWord n) := inferInstanceAs (Decidable (_ ∧ _))

theorem toInt_ofInt (n : Int) : (Int32.ofInt n).toInt = wrap n := by
  have hsize : ((Int32.size : Nat) : Int) = 2 ^ 32 := rfl
  rw [Int32.toInt_ofInt, Int.bmod_def, wrap, hsize]
  split <;> split <;> omega

theorem inWord_toInt (w : Int32) : InWord w.toInt := ⟨w.le_toInt, w.toInt_lt⟩

theorem wrap_of_inWord {n : Int} (h : InWord n) : wrap n = n := by
  rw [← toInt_ofInt]
  exact Int32.toInt_ofInt_of_le h.1 h.2

theorem Word.exists_of_inWord {n : Int} (h : InWord n) :
    ∃ w : Int32, w.toInt = n ∧ w.toBitVec = BitVec.ofInt 32 n := by
  refine ⟨Int32.ofInt n, ?_, Int32.toBitVec_ofInt n⟩
  rw [toInt_ofInt, wrap_of_inWord h]

theorem ofInt_wrap (n : Int) : Int32.ofInt (wrap n) = Int32.ofInt n := by
  rw [← toInt_ofInt, Int32.ofInt_toInt]

theorem wrap_emod (n : Int) : wrap n % 2 ^ 32 = n % 2 ^ 32 := by
  unfold wrap
  split <;> omega

/-- The count of a shift is in the last five bits. -/
theorem shiftCount_wrap (n : Int) : shiftCount (wrap n) = shiftCount n := by
  have h := wrap_emod n
  unfold shiftCount
  omega

/-! ## On integers -/

def integerOfBool (b : Bool) : Int := if b then 1 else 0

/-- The operation on integers, of which negative ones have infinitely many leading ones. Nothing
divides by zero. -/
def BinaryOp.onIntegers (op : BinaryOp) (a b : Int) : Option Int :=
  match op with
  | .add => some (a + b)
  | .sub => some (a - b)
  | .mul => some (a * b)
  | .div => if b = 0 then none else some (a.tdiv b)
  | .rem => if b = 0 then none else some (a.tmod b)
  | .and => some (a.land b)
  | .or => some (a.lor b)
  | .xor => some (a.xor b)
  | .shl => some (a <<< shiftCount b)
  | .shr => some (a >>> shiftCount b)
  | .ushr => some (a.land (2 ^ 32 - 1) >>> shiftCount b)
  | .eq => some (integerOfBool (decide (a = b)))
  | .ne => some (integerOfBool (decide (a ≠ b)))
  | .lt => some (integerOfBool (decide (a < b)))
  | .le => some (integerOfBool (decide (a ≤ b)))
  | .gt => some (integerOfBool (decide (b < a)))
  | .ge => some (integerOfBool (decide (b ≤ a)))

namespace Word

/-- The bits of a word are the first bits of the integer. -/
theorem getLsbD_ofInt (n : Int) (i : Nat) :
    (BitVec.ofInt 32 n).getLsbD i = (decide (i < 32) && n.testBit i) := by
  cases n with
  | ofNat m =>
    rw [Int.ofNat_eq_natCast, BitVec.ofInt_natCast, BitVec.getLsbD_ofNat]
    rfl
  | negSucc m =>
    rw [BitVec.ofInt_negSucc_eq_not_ofNat, BitVec.getLsbD_not, BitVec.getLsbD_ofNat]
    cases decide (i < 32) <;> rfl

theorem ofInt_eq_of_bits {n : Int} {w : Int32}
    (h : ∀ i < 32, n.testBit i = w.toBitVec.getLsbD i) : Int32.ofInt n = w := by
  apply Int32.toBitVec.inj
  rw [Int32.toBitVec_ofInt]
  apply BitVec.eq_of_getLsbD_eq
  intro i hi
  rw [getLsbD_ofInt, decide_eq_true hi, Bool.true_and]
  exact h i hi

theorem getLsbD_toBitVec_ofInt (n : Int) {i : Nat} (hi : i < 32) :
    (Int32.ofInt n).toBitVec.getLsbD i = n.testBit i := by
  rw [Int32.toBitVec_ofInt, getLsbD_ofInt, decide_eq_true hi, Bool.true_and]

theorem ofInt_land (a b : Int) : Int32.ofInt (a.land b) = Int32.ofInt a &&& Int32.ofInt b := by
  refine ofInt_eq_of_bits fun i hi => ?_
  rw [Int32.toBitVec_and, BitVec.getLsbD_and, getLsbD_toBitVec_ofInt a hi,
    getLsbD_toBitVec_ofInt b hi, Int.testBit_land]

theorem ofInt_lor (a b : Int) : Int32.ofInt (a.lor b) = Int32.ofInt a ||| Int32.ofInt b := by
  refine ofInt_eq_of_bits fun i hi => ?_
  rw [Int32.toBitVec_or, BitVec.getLsbD_or, getLsbD_toBitVec_ofInt a hi,
    getLsbD_toBitVec_ofInt b hi, Int.testBit_lor]

theorem ofInt_xor (a b : Int) : Int32.ofInt (a.xor b) = Int32.ofInt a ^^^ Int32.ofInt b := by
  refine ofInt_eq_of_bits fun i hi => ?_
  rw [Int32.toBitVec_xor, BitVec.getLsbD_xor, getLsbD_toBitVec_ofInt a hi,
    getLsbD_toBitVec_ofInt b hi, Int.testBit_lxor]

theorem ldiff_le (m n : Nat) : m.ldiff n ≤ m := by
  have h : m.ldiff n &&& m = m.ldiff n := by
    apply Nat.eq_of_testBit_eq
    intro i
    rw [Nat.testBit_and, Nat.testBit_ldiff]
    cases m.testBit i <;> simp
  rw [← h]
  exact Nat.and_le_right

/-- What is masked by a number lies between zero and the number. -/
theorem land_natCast_le (a : Int) (m : Nat) : 0 ≤ a.land m ∧ a.land m ≤ m := by
  cases a with
  | ofNat k => exact ⟨Int.natCast_nonneg _, Int.ofNat_le.2 Nat.and_le_right⟩
  | negSucc k => exact ⟨Int.natCast_nonneg _, Int.ofNat_le.2 (ldiff_le m k)⟩

/-- The last 32 bits of an integer, as a number. -/
theorem land_mask (a : Int) : a.land (2 ^ 32 - 1) = a % 2 ^ 32 := by
  have hword : BitVec.ofInt 32 (a.land (2 ^ 32 - 1)) = BitVec.ofInt 32 a := by
    have h := congrArg Int32.toBitVec (ofInt_land a (2 ^ 32 - 1))
    rw [Int32.toBitVec_and] at h
    simp only [Int32.toBitVec_ofInt] at h
    rw [h]
    exact BitVec.and_allOnes
  have hmod : a.land (2 ^ 32 - 1) % 2 ^ 32 = a % 2 ^ 32 := by
    have h := congrArg BitVec.toNat hword
    simp only [BitVec.toNat_ofInt] at h
    omega
  obtain ⟨hpos, hle⟩ : 0 ≤ a.land (2 ^ 32 - 1) ∧ a.land (2 ^ 32 - 1) ≤ ((2 ^ 32 - 1 : Nat) : Int) :=
    land_natCast_le a (2 ^ 32 - 1)
  omega

theorem shiftFactor_eq (places : Nat) : shiftFactor places = ((2 ^ places : Nat) : Int) := rfl

theorem integerOfBool_word (b : Bool) : Int32.ofInt (integerOfBool b) = wordOfBool b := by
  cases b <;> rfl

end Word

/-- Operations are folded on integers, and the result is wrapped. -/
theorem BinaryOp.fold_eq_onIntegers (op : BinaryOp) (a b : Int) :
    op.fold a b = (op.onIntegers a b).map Int32.ofInt := by
  cases op with
  | add | sub | mul => rfl
  | and => exact congrArg some (Word.ofInt_land a b).symm
  | or => exact congrArg some (Word.ofInt_lor a b).symm
  | xor => exact congrArg some (Word.ofInt_xor a b).symm
  | shl =>
    rw [fold, onIntegers, Option.map_some, Word.shiftFactor_eq, Int.shiftLeft_eq]
    norm_cast
  | shr => rw [fold, onIntegers, Option.map_some, Word.shiftFactor_eq, Int.shiftRight_eq_div_pow]
  | ushr =>
    rw [fold, onIntegers, Option.map_some, Word.shiftFactor_eq, Word.shiftFactor_eq,
      Int.shiftRight_eq_div_pow, Word.land_mask]
    norm_cast
  | div | rem =>
    simp only [fold, onIntegers]
    split <;> rfl
  | eq | ne | lt | le | gt | ge => exact congrArg some (Word.integerOfBool_word _).symm

/-! ## On the bits of a word -/

def bitsOfBool (b : Bool) : BitVec 32 := if b then 1 else 0

/-- The operation as a machine computes it on words of 32 bits. A division truncates, and a shift
counts by the last five bits. -/
def BinaryOp.onBits (op : BinaryOp) (a b : BitVec 32) : BitVec 32 :=
  match op with
  | .add => a + b
  | .sub => a - b
  | .mul => a * b
  | .div => a.sdiv b
  | .rem => a.srem b
  | .and => a &&& b
  | .or => a ||| b
  | .xor => a ^^^ b
  | .shl => a <<< (b.toNat % 32)
  | .shr => a.sshiftRight (b.toNat % 32)
  | .ushr => a >>> (b.toNat % 32)
  | .eq => bitsOfBool (decide (a = b))
  | .ne => bitsOfBool (decide (a ≠ b))
  | .lt => bitsOfBool (a.slt b)
  | .le => bitsOfBool (a.sle b)
  | .gt => bitsOfBool (b.slt a)
  | .ge => bitsOfBool (b.sle a)

theorem Word.smod_count (b : Int32) : (b.toBitVec.smod 32).toNat = b.toBitVec.toNat % 32 := by
  rw [Word.toNat_smod, ← Word.toNat_mod]
  rfl

theorem Word.wordOfBool_bits (b : Bool) : wordOfBool b = .ofBitVec (bitsOfBool b) := by
  cases b <;> rfl

theorem BinaryOp.onWords_eq_onBits (op : BinaryOp) (a b : Int32)
    (h : op = .div ∨ op = .rem → b ≠ 0) :
    op.onWords a b = some (.ofBitVec (op.onBits a.toBitVec b.toBitVec)) := by
  cases op with
  | add | sub | mul | and | or | xor => rfl
  | div => exact if_neg (h (.inl rfl))
  | rem => exact if_neg (h (.inr rfl))
  | shl =>
    refine congrArg some (Int32.toBitVec.inj ?_)
    rw [Int32.toBitVec_shiftLeft, BitVec.shiftLeft_eq', Word.smod_count]
    rfl
  | shr =>
    refine congrArg some (Int32.toBitVec.inj ?_)
    rw [Int32.toBitVec_shiftRight, BitVec.sshiftRight_eq', Word.smod_count]
    rfl
  | ushr =>
    refine congrArg some (Int32.toBitVec.inj ?_)
    rw [UInt32.toBitVec_toInt32, UInt32.toBitVec_shiftRight, BitVec.ushiftRight_eq',
      BitVec.toNat_umod]
    rfl
  | eq | ne =>
    refine congrArg some ((Word.wordOfBool_bits _).trans ?_)
    simp only [onBits, Int32.toBitVec_inj, ne_eq]
  | lt | gt =>
    refine congrArg some ((Word.wordOfBool_bits _).trans ?_)
    simp only [onBits, Int32.lt_iff_toBitVec_slt, Bool.decide_eq_true]
  | le | ge =>
    refine congrArg some ((Word.wordOfBool_bits _).trans ?_)
    simp only [onBits, Int32.le_iff_toBitVec_sle, Bool.decide_eq_true]

/-! ## Division -/

/-- A quotient truncates toward zero. Only the smallest word has no opposite. -/
theorem Word.toInt_div (a b : Int32) : (a / b).toInt =
    if a.toInt = -2 ^ 31 ∧ b.toInt = -1 then -2 ^ 31 else a.toInt.tdiv b.toInt := by
  split
  · rename_i h
    obtain rfl : a = Int32.minValue := Int32.toInt_inj.1 h.1
    obtain rfl : b = -1 := Int32.toInt_inj.1 h.2
    decide
  · rename_i h
    by_cases ha : a = Int32.minValue
    · refine Int32.toInt_div_of_ne_right a b fun hb => h ?_
      rw [ha, hb]
      decide
    · exact Int32.toInt_div_of_ne_left a b ha

/-- A quotient and a remainder make up the dividend, to 32 bits. -/
theorem Word.div_mul_add_mod (a b : Int32) :
    (a / b).toInt * b.toInt + (a % b).toInt ≡ a.toInt [ZMOD 2 ^ 32] := by
  have hquot : (a / b).toInt ≡ a.toInt.tdiv b.toInt [ZMOD 2 ^ 32] := by
    rw [← Word.ofInt_tdiv, toInt_ofInt]
    exact wrap_emod _
  calc (a / b).toInt * b.toInt + (a % b).toInt
      ≡ a.toInt.tdiv b.toInt * b.toInt + a.toInt.tmod b.toInt [ZMOD 2 ^ 32] := by
        rw [Int32.toInt_mod]
        exact (hquot.mul_right _).add_right _
    _ = a.toInt := Int.tdiv_mul_add_tmod _ _

/-! ## What is folded -/

/-- The last 32 bits of the operands decide those of the result. -/
def BinaryOp.isModular : BinaryOp → Bool
  | .add | .sub | .mul | .and | .or | .xor | .shl | .ushr => true
  | _ => false

theorem BinaryOp.fold_wrap {op : BinaryOp} (h : op.isModular) (a b : Int) :
    op.fold a b = op.fold (wrap a) (wrap b) := by
  cases op with
  | add => simp only [fold, Int32.ofInt_add, ofInt_wrap]
  | sub => simp only [fold, Int32.ofInt_sub, ofInt_wrap]
  | mul => simp only [fold, Int32.ofInt_mul, ofInt_wrap]
  | and | or | xor => simp only [fold, ofInt_wrap]
  | shl => simp only [fold, Int32.ofInt_mul, ofInt_wrap, shiftCount_wrap]
  | ushr =>
    have hfactor : shiftFactor 32 = 2 ^ 32 := rfl
    simp only [fold, hfactor, wrap_emod, shiftCount_wrap]
  | _ => cases h

/-- On words, folding gives the signed value of what a machine computes; a quotient truncates, the
smallest word divided by -1 is itself, and a remainder has the sign of the dividend. Operations
that the last 32 bits decide may have their operands wrapped, and every result is that of the
operation on integers, wrapped. -/
theorem BinaryOp.folds_as_machine (op : BinaryOp) (a b : Int) :
    (InWord a → InWord b → (op = .div ∨ op = .rem → b ≠ 0) →
      ∃ w, op.fold a b = some w ∧ w.toInt = (op.onBits (.ofInt 32 a) (.ofInt 32 b)).toInt) ∧
    (InWord a → InWord b → b ≠ 0 →
      ∃ q r, div.fold a b = some q ∧ rem.fold a b = some r ∧
        q.toInt = (if a = -2 ^ 31 ∧ b = -1 then -2 ^ 31 else a.tdiv b) ∧ r.toInt = a.tmod b ∧
        q.toInt * b + r.toInt ≡ a [ZMOD 2 ^ 32]) ∧
    (op.isModular → op.fold a b = op.fold (wrap a) (wrap b)) ∧
    op.fold a b = (op.onIntegers a b).map Int32.ofInt := by
  refine ⟨fun ha hb hz => ?_, fun ha hb hz => ?_, fun h => fold_wrap h a b,
    fold_eq_onIntegers op a b⟩
  · obtain ⟨x, rfl, hx⟩ := Word.exists_of_inWord ha
    obtain ⟨y, rfl, hy⟩ := Word.exists_of_inWord hb
    have hy0 : op = .div ∨ op = .rem → y ≠ 0 := fun hop hy0 => hz hop (by rw [hy0]; rfl)
    rw [← hx, ← hy, fold_eq_onWords, onWords_eq_onBits op x y hy0]
    exact ⟨_, rfl, rfl⟩
  · obtain ⟨x, rfl, -⟩ := Word.exists_of_inWord ha
    obtain ⟨y, rfl, -⟩ := Word.exists_of_inWord hb
    have hy0 : y ≠ 0 := fun hy0 => hz (by rw [hy0]; rfl)
    rw [fold_eq_onWords, fold_eq_onWords]
    exact ⟨x / y, x % y, if_neg hy0, if_neg hy0, Word.toInt_div x y, Int32.toInt_mod x y,
      Word.div_mul_add_mod x y⟩

/-- The smallest word, divided by -1 and shifted by -1, which counts as 31. -/
theorem BinaryOp.folds_as_machine_smallest :
    (InWord (-2 ^ 31) ∧ InWord (-1) ∧ (-1 : Int) ≠ 0 ∧ ushr.isModular) ∧
    (∃ w, ushr.fold (-2 ^ 31) (-1) = some w ∧ w.toInt = 1) ∧
    (∃ q r, div.fold (-2 ^ 31) (-1) = some q ∧ rem.fold (-2 ^ 31) (-1) = some r ∧
      q.toInt = -2 ^ 31 ∧ r.toInt = 0 ∧ q.toInt * -1 + r.toInt ≡ -2 ^ 31 [ZMOD 2 ^ 32]) ∧
    ushr.fold (-2 ^ 31) (-1) = ushr.fold (wrap (-2 ^ 31)) (wrap (-1)) := by
  have hmin : InWord (-2 ^ 31) := by decide
  have hone : InWord (-1) := by decide
  obtain ⟨hword, hdiv, hwrap, -⟩ := folds_as_machine ushr (-2 ^ 31) (-1)
  exact ⟨⟨hmin, hone, by decide, rfl⟩, hword hmin hone (by decide), hdiv hmin hone (by decide),
    hwrap rfl⟩

end ObjectFlow
