import ObjectFlow.Decimal.Numeral
import ObjectFlow.Text.Term
/-!
# Terms as JSON

Atoms are written as JSON's own, lists as arrays and records as objects, whose
entries keep their order. What is not plain ASCII is written as escapes. Reading
goes over tokens.
-/

namespace ObjectFlow.Json

inductive Token where
  | openList | closeList
  | openRecord | closeRecord
  | comma | colon
  | atom (a : Atom)
deriving DecidableEq

/-! ## Reading text -/

def hexValue (c : Char) : Nat :=
  let n := c.toNat
  if n < 0x3A then n - 0x30 else if n < 0x47 then n - 0x37 else n - 0x57

def hexNumber (cs : List Char) : Nat := cs.foldl (fun n c => n * 16 + hexValue c) 0

/-- The character that a letter behind a backslash stands for. -/
def unescape : Char → Char
  | 'b' => '\x08'
  | 'f' => '\x0c'
  | 'n' => '\n'
  | 'r' => '\r'
  | 't' => '\t'
  | c => c

/-- The code units of a text up to its closing quote, and what follows. A character beyond 16 bits
may be written as two escapes. -/
def readUnits : List Char → Option (List Nat × List Char)
  | [] => none
  | '\x22' :: cs => some ([], cs)
  | '\\' :: 'u' :: a :: b :: c :: d :: cs =>
    (readUnits cs).map fun r => (hexNumber [a, b, c, d] :: r.1, r.2)
  | '\\' :: c :: cs => (readUnits cs).map fun r => ((unescape c).toNat :: r.1, r.2)
  | c :: cs => (readUnits cs).map fun r => (c.toNat :: r.1, r.2)

/-- The characters of code units, of which two may belong together. -/
def joinUnits : List Nat → List Char
  | [] => []
  | [u] => [Char.ofNat u]
  | u :: v :: us =>
    if 0xD800 ≤ u ∧ u < 0xDC00 ∧ 0xDC00 ≤ v ∧ v < 0xE000 then
      Char.ofNat (0x10000 + (u - 0xD800) * 0x400 + (v - 0xDC00)) :: joinUnits us
    else Char.ofNat u :: joinUnits (v :: us)

/-! ## Reading tokens -/

def readNumber? (cs : List Char) : Option (Atom × List Char) :=
  let (n, rest) := Decimal.Numeral.take cs
  if n.hasDigits then
    some (if n.isInteger then .int n.toInt else .real n.toFloat.toBits, rest)
  else none

/-- The atom that a text begins with, and the rest. -/
def readAtom? : List Char → Option (Atom × List Char)
  | '\x22' :: cs => (readUnits cs).map fun r => (.text (String.ofList (joinUnits r.1)), r.2)
  | 'n' :: 'u' :: 'l' :: 'l' :: cs => some (.null, cs)
  | 't' :: 'r' :: 'u' :: 'e' :: cs => some (.bool true, cs)
  | 'f' :: 'a' :: 'l' :: 's' :: 'e' :: cs => some (.bool false, cs)
  | cs => readNumber? cs

def mark? : Char → Option Token
  | '[' => some .openList
  | ']' => some .closeList
  | '\x7b' => some .openRecord
  | '\x7d' => some .closeRecord
  | ',' => some .comma
  | ':' => some .colon
  | _ => none

def isSpace (c : Char) : Bool := c = ' ' || c = '\t' || c = '\n' || c = '\r'

/-- The tokens of a text, at most `n` more than those in `found`, which are listed last first. -/
def readTokens (found : List Token) : Nat → List Char → Option (List Token)
  | _, [] => some found.reverse
  | 0, _ :: _ => none
  | n + 1, c :: cs =>
    if isSpace c then readTokens found n cs
    else match mark? c with
      | some t => readTokens (t :: found) n cs
      | none =>
        match readAtom? (c :: cs) with
        | some (a, rest) => readTokens (.atom a :: found) n rest
        | none => none

def tokens? (s : String) : Option (List Token) := readTokens [] s.length s.toList

/-! ## Reading terms -/

mutual
/-- The term that tokens begin with, and the rest. The bound counts tokens. -/
def readTerm : Nat → List Token → Option (Term × List Token)
  | _, .atom a :: ts => some (.atom a, ts)
  | _, .openList :: .closeList :: ts => some (.list [], ts)
  | _, .openRecord :: .closeRecord :: ts => some (.record [], ts)
  | n + 1, .openList :: ts => readItems [] n ts
  | n + 1, .openRecord :: ts => readEntries [] n ts
  | _, _ => none

/-- The items of a list behind those found, which are listed last first. -/
def readItems (found : List Term) : Nat → List Token → Option (Term × List Token)
  | 0, _ => none
  | n + 1, ts =>
    match readTerm n ts with
    | some (t, .comma :: ts) => readItems (t :: found) n ts
    | some (t, .closeList :: ts) => some (.list (t :: found).reverse, ts)
    | _ => none

def readEntries (found : List (String × Term)) : Nat → List Token → Option (Term × List Token)
  | n + 1, .atom (.text k) :: .colon :: ts =>
    match readTerm n ts with
    | some (t, .comma :: ts) => readEntries ((k, t) :: found) n ts
    | some (t, .closeRecord :: ts) => some (.record ((k, t) :: found).reverse, ts)
    | _ => none
  | _, _ => none
end

/-- The term of a text. -/
def read? (s : String) : Option Term := do
  let ts ← tokens? s
  match readTerm ts.length ts with
  | some (t, []) => some t
  | _ => none

/-! ## Writing -/

def escapeUnit (n : Nat) : List Char := '\\' :: 'u' :: Text.hexDigits 4 n

def escape (c : Char) : List Char :=
  let n := c.toNat
  if c = '\x22' ∨ c = '\\' then ['\\', c]
  else if 0x20 ≤ n ∧ n < 0x7F then [c]
  else if n < 0x10000 then escapeUnit n
  else escapeUnit (0xD800 + (n - 0x10000) / 0x400) ++ escapeUnit (0xDC00 + (n - 0x10000) % 0x400)

def writeText (s : String) : String :=
  String.ofList ('\x22' :: (s.toList.flatMap escape ++ ['\x22']))

def writeAtom : Atom → String
  | .null => "null"
  | .bool true => "true"
  | .bool false => "false"
  | .int n => toString n
  | .real bits => Decimal.shortestText bits
  | .text s => writeText s

def array (parts : List String) : String := "[" ++ ",".intercalate parts ++ "]"

mutual
/-- The text of a term. A term of a kind is written as the array of its kind and its fields. -/
def write : Term → String
  | .atom a => writeAtom a
  | .list items => array (writeAll items)
  | .record entries => "\x7b" ++ ",".intercalate (writeEntries entries) ++ "\x7d"
  | .node kind fields => array (writeText kind :: writeAll fields)

def writeAll : List Term → List String
  | [] => []
  | t :: ts => write t :: writeAll ts

def writeEntries : List (String × Term) → List String
  | [] => []
  | (k, t) :: es => (writeText k ++ ":" ++ write t) :: writeEntries es
end

end ObjectFlow.Json
