import ObjectFlow.Constants.Value
/-!
# Operations on words

The analysis folds constants as unbounded integers and wraps the result. A
machine computes on words of 32 bits. Both give the same word, and both give
nothing exactly if the divisor is zero.
-/

namespace ObjectFlow

/-- The operation as a machine computes it. -/
def BinaryOp.onWords (op : BinaryOp) (a b : Int32) : Option Int32 :=
  match op with
  | .add => some (a + b)
  | .sub => some (a - b)
  | .mul => some (a * b)
  | .div => if b = 0 then none else some (a / b)
  | .rem => if b = 0 then none else some (a % b)
  | .and => some (a &&& b)
  | .or => some (a ||| b)
  | .xor => some (a ^^^ b)
  | .shl => some (a <<< b)
  | .shr => some (a >>> b)
  | .ushr => some (a.toUInt32 >>> b.toUInt32).toInt32
  | .eq => some (wordOfBool (decide (a = b)))
  | .ne => some (wordOfBool (decide (a ≠ b)))
  | .lt => some (wordOfBool (decide (a < b)))
  | .le => some (wordOfBool (decide (a ≤ b)))
  | .gt => some (wordOfBool (decide (b < a)))
  | .ge => some (wordOfBool (decide (b ≤ a)))

namespace Word

variable (a b : Int32)

theorem ofInt_tdiv : Int32.ofInt (a.toInt.tdiv b.toInt) = a / b := by
  apply Int32.toInt_inj.1
  rw [Int32.toInt_div, Int32.toInt_ofInt]

theorem ofInt_tmod : Int32.ofInt (a.toInt.tmod b.toInt) = a % b := by
  have h := Int32.ofInt_tmod (Int32.minValue_le_toInt a) (Int32.toInt_le a)
    (Int32.minValue_le_toInt b) (Int32.toInt_le b)
  rwa [Int32.ofInt_toInt, Int32.ofInt_toInt] at h

theorem toInt_eq_zero : b.toInt = 0 ↔ b = 0 := Int32.toInt_inj (y := 0)

/-! ## Shifts -/

theorem shiftCount_lt (n : Int) : shiftCount n < 32 := by
  unfold shiftCount
  omega

/-- A machine takes the last five bits of the count. -/
theorem toNat_smod : (b.toBitVec.smod 32).toNat = shiftCount b.toInt := by
  have hint : (b.toBitVec.smod 32).toInt = shiftCount b.toInt := by
    rw [BitVec.toInt_smod]
    show b.toInt.fmod 32 = _
    rw [Int.fmod_eq_emod_of_nonneg _ (by decide)]
    unfold shiftCount
    omega
  have hlt := shiftCount_lt b.toInt
  rw [BitVec.toInt_eq_toNat_cond] at hint
  split at hint <;> omega

theorem toNat_mod : b.toUInt32.toNat % 32 = shiftCount b.toInt := by
  have hb : b.toInt = (b.toUInt32.toNat : Int).bmod (2 ^ 32) := BitVec.toInt_eq_toNat_bmod _
  have hlt := b.toUInt32.toNat_lt
  unfold shiftCount
  rw [hb, Int.bmod_def]
  split <;> omega

theorem ofInt_shiftFactor (places : Nat) :
    BitVec.ofInt 32 (shiftFactor places) = BitVec.twoPow 32 places := by
  apply BitVec.eq_of_toNat_eq
  unfold shiftFactor
  rw [Int.ofNat_eq_natCast, BitVec.ofInt_natCast, BitVec.toNat_ofNat, BitVec.toNat_twoPow]
  rfl

theorem ofInt_shl : Int32.ofInt (a.toInt * shiftFactor (shiftCount b.toInt)) = a <<< b := by
  apply Int32.toBitVec.inj
  rw [Int32.toBitVec_ofInt, BitVec.ofInt_mul, ofInt_shiftFactor, Int32.toBitVec_shiftLeft,
    BitVec.shiftLeft_eq', toNat_smod, BitVec.shiftLeft_eq_mul_twoPow]
  congr 1
  exact BitVec.ofInt_toInt

theorem ofInt_shr : Int32.ofInt (a.toInt / shiftFactor (shiftCount b.toInt)) = a >>> b := by
  have hint : (a >>> b).toInt = a.toInt / shiftFactor (shiftCount b.toInt) := by
    show (a >>> b).toBitVec.toInt = _
    rw [Int32.toBitVec_shiftRight, BitVec.toInt_sshiftRight', toNat_smod,
      Int.shiftRight_eq_div_pow]
    rfl
  rw [← hint, Int32.ofInt_toInt]

theorem toInt_emod : a.toInt % shiftFactor 32 = (a.toUInt32.toNat : Int) := by
  have ha : a.toInt = (a.toUInt32.toNat : Int).bmod (2 ^ 32) := BitVec.toInt_eq_toNat_bmod _
  have hlt := a.toUInt32.toNat_lt
  have hfactor : shiftFactor 32 = 4294967296 := rfl
  rw [ha, hfactor, Int.bmod_def]
  split <;> omega

theorem ofInt_ushr : Int32.ofInt (a.toInt % shiftFactor 32 / shiftFactor (shiftCount b.toInt)) =
    (a.toUInt32 >>> b.toUInt32).toInt32 := by
  have hquot : (a.toUInt32.toNat : Int) / shiftFactor (shiftCount b.toInt) =
      ((a.toUInt32 >>> b.toUInt32).toNat : Int) := by
    rw [UInt32.toNat_shiftRight, toNat_mod, Nat.shiftRight_eq_div_pow, Int.natCast_ediv]
    rfl
  rw [toInt_emod, hquot]
  apply Int32.toBitVec.inj
  rw [Int32.toBitVec_ofInt, BitVec.ofInt_natCast, UInt32.toBitVec_toInt32]
  show BitVec.ofNat 32 (a.toUInt32 >>> b.toUInt32).toBitVec.toNat = _
  rw [BitVec.ofNat_toNat, BitVec.setWidth_eq]

end Word

theorem BinaryOp.fold_eq_onWords (op : BinaryOp) (a b : Int32) :
    op.fold a.toInt b.toInt = op.onWords a b := by
  cases op with
  | add => simp [fold, onWords]
  | sub => simp [fold, onWords]
  | mul => simp [fold, onWords]
  | div => simp [fold, onWords, Word.toInt_eq_zero, Word.ofInt_tdiv]
  | rem => simp [fold, onWords, Word.toInt_eq_zero, Word.ofInt_tmod]
  | and => simp [fold, onWords]
  | or => simp [fold, onWords]
  | xor => simp [fold, onWords]
  | shl => exact congrArg some (Word.ofInt_shl a b)
  | shr => exact congrArg some (Word.ofInt_shr a b)
  | ushr => exact congrArg some (Word.ofInt_ushr a b)
  | eq => simp [fold, onWords, Int32.toInt_inj]
  | ne => simp [fold, onWords, Int32.toInt_inj]
  | lt => simp [fold, onWords, Int32.lt_iff_toInt_lt]
  | le => simp [fold, onWords, Int32.le_iff_toInt_le]
  | gt => simp [fold, onWords, Int32.lt_iff_toInt_lt]
  | ge => simp [fold, onWords, Int32.le_iff_toInt_le]

end ObjectFlow
