import ObjectFlow.Text.Blank
import ObjectFlow.Text.Digit
/-!
# Reading integers

An integer is written with decimal digits of any script. Blanks may stand around
it, one sign before it, and single underscores between its digits.
-/

namespace ObjectFlow.Text

/-- The digits of a number whose digits may be separated by single underscores. -/
def groupedDigits? : List Char → Option (List Nat)
  | [] => none
  | [c] => (digitValue? c).map fun d => [d]
  | c :: '_' :: cs => do
    let d ← digitValue? c
    let ds ← groupedDigits? cs
    some (d :: ds)
  | c :: d :: cs => do
    let v ← digitValue? c
    let ds ← groupedDigits? (d :: cs)
    some (v :: ds)

def readNat? (cs : List Char) : Option Nat := (groupedDigits? cs).map (digitsValue 0)

/-- The integer that a text denotes. -/
def readInt? (s : String) : Option Int :=
  match trimWhere isNumberBlank s.toList with
  | '+' :: cs => (readNat? cs).map Int.ofNat
  | '-' :: cs => (readNat? cs).map fun n => -Int.ofNat n
  | cs => (readNat? cs).map Int.ofNat

end ObjectFlow.Text
