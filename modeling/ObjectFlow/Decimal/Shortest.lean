import ObjectFlow.Decimal.Binary64
/-!
# The shortest decimal that reads back

For 1, 2, … 17 digits the two neighbours of the value on that decimal grid are
tried; the first grid with a point that still rounds to the value wins, and of
two such points the nearer one.
-/

namespace ObjectFlow.Decimal

/-- The reals that round to a number, by their ends, which belong to it if the last bit is
zero. -/
structure Interval where
  low : Ratio
  high : Ratio
  closed : Bool

/-- The reals that round to `m · 2 ^ q`. Below a power of two the numbers lie closer. -/
def roundingInterval (m : Nat) (q : Int) : Interval where
  low :=
    if m = powerOfTwo 52 ∧ -1074 < q then .binary (4 * m - 1) (q - 2)
    else .binary (2 * m - 1) (q - 1)
  high := .binary (2 * m + 1) (q - 1)
  closed := m % 2 == 0

/-- `d · 10 ^ e` lies in the interval. -/
def Interval.contains (i : Interval) (d : Nat) (e : Int) : Bool :=
  let low := i.low.shift e
  let high := i.high.shift e
  if i.closed then decide (low.num ≤ d * low.den) && decide (d * high.den ≤ high.num)
  else decide (low.num < d * low.den) && decide (d * high.den < high.num)

/-- The point of a grid that stands for a number, if one does. -/
def pointOnGrid? (i : Interval) (r : Ratio) (e : Int) : Option Nat :=
  let s := r.shift e
  let d := s.num / s.den
  let nearest := s.round
  let other := if nearest = d then d + 1 else d
  if i.contains nearest e then some nearest
  else if i.contains other e then some other
  else none

/-- The shortest digits of a positive number. -/
def shortest (m : Nat) (q : Int) : Scientific :=
  let r := Ratio.binary m q
  let k := decimalExponent r
  let i := roundingInterval m q
  let found := (List.range 17).findSome? fun (n : Nat) =>
    let e := k - ((n : Int) + 1)
    (pointOnGrid? i r e).map fun d => (d, e)
  match found with
  | none => ⟨['0'], 0⟩
  | some (d, e) =>
    let ds := Nat.toDigits 10 d
    Scientific.trimmed ⟨ds, e + (ds.length - 1)⟩

/-- The shortest text of a number: positional from 10⁻⁴ to below 10¹⁶ with at least one decimal
place, with an exponent beyond. -/
def shortestText (bits : UInt64) : String :=
  let sign := if isNegative bits then "-" else ""
  match magnitude bits with
  | .notANumber => "nan"
  | .infinite => sign ++ "inf"
  | .finite 0 _ => sign ++ "0.0"
  | .finite m q =>
    let s := shortest m q
    if -4 ≤ s.exponent ∧ s.exponent < 16 then
      let cs := s.positional
      sign ++ String.ofList (if cs.contains '.' then cs else cs ++ ['.', '0'])
    else sign ++ String.ofList s.exponential

end ObjectFlow.Decimal
