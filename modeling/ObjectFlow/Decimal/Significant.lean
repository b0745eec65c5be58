import ObjectFlow.Decimal.Binary64
/-!
# A number to a few significant digits

The value is rounded to the given number of digits, a tie to the even digit.
Trailing zeros are dropped. The text is positional unless the exponent is below
-4 or leaves no place for the point among the digits.
-/

namespace ObjectFlow.Decimal

/-- A positive fraction to `p` digits. -/
def roundTo (p : Nat) (r : Ratio) : Scientific :=
  let k := decimalExponent r
  let d := (r.shift (k - p)).round
  let ds := Nat.toDigits 10 d
  ⟨ds, k - p + (ds.length - 1)⟩

/-- The text of a magnitude to `p` significant digits. -/
def significantText (p : Nat) (v : Magnitude) : List Char :=
  match v with
  | .notANumber => "nan".toList
  | .infinite => "inf".toList
  | .finite 0 _ => ['0']
  | .finite m q =>
    let s := (roundTo p (.binary m q)).trimmed
    if -4 ≤ s.exponent ∧ s.exponent < p then s.positional else s.exponential

/-- Text filled up with spaces on the left. -/
def padLeft (width : Nat) (cs : List Char) : List Char :=
  List.replicate (width - cs.length) ' ' ++ cs

/-- A number to `p` significant digits, right-aligned in `width` places. A number that is none
has no sign. -/
def significant (width p : Nat) (bits : UInt64) : String :=
  let v := magnitude bits
  let cs := significantText p v
  String.ofList (padLeft width (if isNegative bits && v ≠ .notANumber then '-' :: cs else cs))

end ObjectFlow.Decimal
