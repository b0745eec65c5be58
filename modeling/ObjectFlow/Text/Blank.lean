/-!
# Blank characters

The characters that count as space around an option: the separators of Unicode,
the line and paragraph ends, and the controls that separate fields and lines.
Around a number the four separators of files, groups, records and units do not
count.
-/

namespace ObjectFlow.Text

def isBlank (c : Char) : Bool :=
  let n := c.toNat
  (0x09 ≤ n && n ≤ 0x0D) || (0x1C ≤ n && n ≤ 0x20) || n == 0x85 || n == 0xA0 || n == 0x1680 ||
  (0x2000 ≤ n && n ≤ 0x200A) || n == 0x2028 || n == 0x2029 || n == 0x202F || n == 0x205F ||
  n == 0x3000

/-- The four controls that separate files, groups, records and units. -/
def isDataSeparator (c : Char) : Bool := 0x1C ≤ c.toNat && c.toNat ≤ 0x1F

/-- The blanks that may stand around a number. -/
def isNumberBlank (c : Char) : Bool := isBlank c && !isDataSeparator c

/-- The text from the first to the last character that fails a test. -/
def trimWhere (p : Char → Bool) (cs : List Char) : List Char :=
  ((cs.dropWhile p).reverse.dropWhile p).reverse

/-- The text between the first and the last character that is not blank. -/
def trim (cs : List Char) : List Char := trimWhere isBlank cs

end ObjectFlow.Text
