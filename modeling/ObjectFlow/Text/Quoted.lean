import ObjectFlow.Text.Printable
/-!
# Quoted text

Text in messages stands between single quotes, or between double quotes if it
holds a single quote and no double one. The backslash, the quote in use and all
that cannot be printed are written as escapes.
-/

namespace ObjectFlow.Text

/-- The last `n` hexadecimal digits of a number. -/
def hexDigits : Nat → Nat → List Char
  | 0, _ => []
  | n + 1, c => hexDigits n (c / 16) ++ [Nat.digitChar (c % 16)]

/-- A character by its code point, in the least of three widths that holds it. -/
def escapeCode (c : Char) : List Char :=
  let n := c.toNat
  if n < 0x100 then '\\' :: 'x' :: hexDigits 2 n
  else if n < 0x10000 then '\\' :: 'u' :: hexDigits 4 n
  else '\\' :: 'U' :: hexDigits 8 n

/-- A character between quotes of the given kind. -/
def escapeChar (quote : Char) (c : Char) : List Char :=
  if c = '\\' || c = quote then ['\\', c]
  else if c = '\n' then ['\\', 'n']
  else if c = '\r' then ['\\', 'r']
  else if c = '\t' then ['\\', 't']
  else if isPrintable c then [c]
  else escapeCode c

/-- The quote that a text stands between. -/
def quoteFor (cs : List Char) : Char :=
  if cs.contains '\x27' && !cs.contains '\x22' then '\x22' else '\x27'

/-- A text between quotes. -/
def quoted (s : String) : String :=
  let cs := s.toList
  let q := quoteFor cs
  String.ofList (q :: (cs.flatMap (escapeChar q) ++ [q]))

end ObjectFlow.Text
