import ObjectFlow.Text.Integer
/-!
# Decimal numerals

A numeral is a sign, digits before and after a point, and a power of ten; each
part but the digits may be missing. Its value is the nearest number of 64 bits.
-/

namespace ObjectFlow.Decimal

structure Numeral where
  negative : Bool
  whole : List Nat
  places : Option (List Nat)
  exponent : Option Int
deriving DecidableEq

/-- The digits that a text begins with, and the rest. -/
def takeDigits : List Char → List Nat × List Char
  | [] => ([], [])
  | c :: cs =>
    match Text.digitValue? c with
    | some d =>
      let r := takeDigits cs
      (d :: r.1, r.2)
    | none => ([], c :: cs)

/-- A sign, if the text begins with one. -/
def takeSign : List Char → Bool × List Char
  | '-' :: cs => (true, cs)
  | '+' :: cs => (false, cs)
  | cs => (false, cs)

/-- The point and the digits behind it. -/
def takePlaces : List Char → Option (List Nat) × List Char
  | '.' :: cs =>
    let r := takeDigits cs
    (some r.1, r.2)
  | cs => (none, cs)

/-- The power of ten. A letter without digits behind it is none. -/
def takeExponent (cs : List Char) : Option Int × List Char :=
  match cs with
  | c :: rest =>
    if c = 'e' ∨ c = 'E' then
      let (negative, rest) := takeSign rest
      match takeDigits rest with
      | ([], _) => (none, cs)
      | (ds, rest) =>
        let n : Int := Text.digitsValue 0 ds
        (some (if negative then -n else n), rest)
    else (none, cs)
  | [] => (none, [])

namespace Numeral

/-- The numeral that a text begins with, and the rest. -/
def take (cs : List Char) : Numeral × List Char :=
  let (negative, cs) := takeSign cs
  let (whole, cs) := takeDigits cs
  let (places, cs) := takePlaces cs
  let (exponent, cs) := takeExponent cs
  (⟨negative, whole, places, exponent⟩, cs)

/-- There is a digit before the power of ten. -/
def hasDigits (n : Numeral) : Bool := !n.whole.isEmpty || !(n.places.getD []).isEmpty

/-- Neither a point nor a power of ten is written. -/
def isInteger (n : Numeral) : Bool := n.places.isNone && n.exponent.isNone

def toInt (n : Numeral) : Int :=
  let v : Int := Text.digitsValue 0 n.whole
  if n.negative then -v else v

/-- The nearest number of 64 bits. -/
def toFloat (n : Numeral) : Float :=
  let places := n.places.getD []
  let digits := Text.digitsValue 0 (n.whole ++ places)
  let e := n.exponent.getD 0 - places.length
  let x := Float.ofScientific digits (decide (e < 0)) e.natAbs
  if n.negative then -x else x

end Numeral

/-- The nearest number of 64 bits to an integer. -/
def ofInt (n : Int) : Float :=
  Numeral.toFloat ⟨decide (n < 0), [n.natAbs], none, none⟩

/-- A text without the underscores between its digits. There is none if an underscore stands
elsewhere. -/
def joinDigits : List Char → Option (List Char)
  | [] => some []
  | '_' :: _ => none
  | c :: '_' :: d :: cs =>
    if Text.isDigit c ∧ Text.isDigit d then (joinDigits (d :: cs)).map (c :: ·) else none
  | c :: cs => (joinDigits cs).map (c :: ·)

/-- The number that a name stands for, if it stands for one that has no digits. -/
def ofName? (cs : List Char) : Option Float :=
  match String.ofList (cs.map Char.toLower) with
  | "inf" | "infinity" => some (1.0 / 0.0)
  | "nan" => some (0.0 / 0.0)
  | _ => none

/-- The number that a text denotes, blanks around it apart. -/
def readReal? (s : String) : Option Float := do
  let cs ← joinDigits (Text.trimWhere Text.isNumberBlank s.toList)
  match Numeral.take cs with
  | (n, []) => if n.hasDigits then some n.toFloat else none
  | _ =>
    let (negative, name) := takeSign cs
    let x ← ofName? name
    some (if negative then -x else x)

end ObjectFlow.Decimal
