/-!
# Values of binary floating point numbers

A finite number is `m · 2 ^ q` up to its sign. All that follows about its
decimal text is arithmetic on natural numbers: a positive value is a fraction,
and `decimalExponent` says how many digits stand before its point.
-/

namespace ObjectFlow.Decimal

def powerOfTwo (n : Nat) : Nat := Nat.pow 2 n

def powerOfTen (n : Nat) : Nat := Nat.pow 10 n

/-- What the bits of a number stand for, its sign apart. -/
inductive Magnitude where
  | finite (m : Nat) (q : Int)
  | infinite
  | notANumber
deriving DecidableEq, Repr

/-- The sign bit of a number. -/
def isNegative (bits : UInt64) : Bool := bits.toNat / powerOfTwo 63 == 1

/-- The magnitude of a number of 64 bits. -/
def magnitude (bits : UInt64) : Magnitude :=
  let exponent : Nat := bits.toNat / powerOfTwo 52 % powerOfTwo 11
  let fraction : Nat := bits.toNat % powerOfTwo 52
  if exponent = 2047 then
    if fraction = 0 then .infinite else .notANumber
  else if exponent = 0 then .finite fraction (-1074)
  else .finite (powerOfTwo 52 + fraction) (exponent - 1075)

/-- A fraction of natural numbers. -/
structure Ratio where
  num : Nat
  den : Nat

/-- `m · 2 ^ q` as a fraction. -/
def Ratio.binary (m : Nat) (q : Int) : Ratio := ⟨m * powerOfTwo q.toNat, powerOfTwo (-q).toNat⟩

/-- The fraction divided by `10 ^ e`. -/
def Ratio.shift (r : Ratio) (e : Int) : Ratio :=
  ⟨r.num * powerOfTen (-e).toNat, r.den * powerOfTen e.toNat⟩

/-- The quotient rounded to the nearest number, a tie to the even one. -/
def Ratio.round (r : Ratio) : Nat :=
  let d := r.num / r.den
  let rest := 2 * (r.num % r.den)
  if rest < r.den then d else if r.den < rest then d + 1 else d + d % 2

/-- The least `k` with `r < 10 ^ k`, for a positive fraction. -/
def decimalExponent (r : Ratio) : Int :=
  if r.den ≤ r.num then (Nat.toDigits 10 (r.num / r.den)).length
  else
    let zeros := (List.range 400).find? fun j => decide (r.den ≤ r.num * powerOfTen (j + 1))
    Int.negOfNat (zeros.getD 0)

/-- A decimal number in scientific form: its digits, the first before the point, and the power
of ten. -/
structure Scientific where
  digits : List Char
  exponent : Int

/-- The digits without zeros at the end, the first digit apart. -/
def Scientific.trimmed (s : Scientific) : Scientific :=
  match s.digits with
  | [] => s
  | d :: ds => { s with digits := d :: (ds.reverse.dropWhile (· = '0')).reverse }

/-- Digits with a point after the first `n`, which are filled up with zeros. -/
def pointAfter (n : Nat) (ds : List Char) : List Char :=
  let whole := ds.take n ++ List.replicate (n - ds.length) '0'
  match ds.drop n with
  | [] => whole
  | rest => whole ++ '.' :: rest

/-- Positional text of a number: no exponent, and a point only before further digits. -/
def Scientific.positional (s : Scientific) : List Char :=
  if s.exponent < 0 then
    '0' :: '.' :: (List.replicate (-s.exponent - 1).toNat '0' ++ s.digits)
  else pointAfter (s.exponent.toNat + 1) s.digits

/-- Text with an exponent of at least two digits and a sign. -/
def Scientific.exponential (s : Scientific) : List Char :=
  let e := (toString s.exponent.natAbs).toList
  pointAfter 1 s.digits ++ 'e' :: (if s.exponent < 0 then '-' else '+') ::
    (List.replicate (2 - e.length) '0' ++ e)

end ObjectFlow.Decimal
