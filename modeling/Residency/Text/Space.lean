/-
Residency/Text/Space.lean

White space.  Two classes differ only in the four information separators U+001C to
U+001F: they never end a word, but they are removed at the ends of a value.  Blanks, the
white space inside a line, are the space and the tab alone.
-/
namespace Residency.Text

/-- The characters that Unicode calls white space. -/
def isSpace (c : Char) : Bool :=
  let n := c.toNat
  (9 ≤ n && n ≤ 13) || n == 32 || n == 0x85 || n == 0xA0 || n == 0x1680 ||
  (0x2000 ≤ n && n ≤ 0x200A) || n == 0x2028 || n == 0x2029 || n == 0x202F ||
  n == 0x205F || n == 0x3000

/-- What is removed at both ends of a value: white space and the information separators. -/
def isOuterSpace (c : Char) : Bool :=
  isSpace c || (0x1C ≤ c.toNat && c.toNat ≤ 0x1F)

/-- The white space that may stand inside a line. -/
def isBlank (c : Char) : Bool :=
  c == ' ' || c == '\t'

/-- `cs` without the characters of class `p` at either end. -/
def trimBy (p : Char → Bool) (cs : List Char) : List Char :=
  ((cs.dropWhile p).reverse.dropWhile p).reverse

/-- `cs` without its outer white space. -/
def trim (cs : List Char) : List Char :=
  trimBy isOuterSpace cs

/-- `cs` from its first character that is not a blank. -/
def skipBlanks (cs : List Char) : List Char :=
  cs.dropWhile isBlank

end Residency.Text
