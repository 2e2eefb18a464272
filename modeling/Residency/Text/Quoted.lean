/-
Residency/Text/Quoted.lean

Quoted text: how a message shows a text that came from outside.  The text stands between
quotation marks, single ones unless it holds a single mark and no double one.  The
backslash and the chosen mark are escaped, line ends and tabs have their short forms, and
every other character that is not printable is given by its code point in two, four or
eight hexadecimal places.
-/
import Residency.Text.Numeral
import Residency.Text.Printable

namespace Residency.Text

/-- The mark that encloses `cs`. -/
def quoteMark (cs : List Char) : Char :=
  if cs.contains '\'' && !cs.contains '"' then '"' else '\''

/-- `c` given by its code point. -/
def codePointForm (c : Char) : List Char :=
  let n := c.toNat
  if n < 0x100 then '\\' :: 'x' :: (numeral 16 2 n).toList
  else if n < 0x10000 then '\\' :: 'u' :: (numeral 16 4 n).toList
  else '\\' :: 'U' :: (numeral 16 8 n).toList

/-- `c` as it stands between two marks. -/
def quotedForm (mark c : Char) : List Char :=
  if c = mark || c = '\\' then ['\\', c]
  else if c = '\n' then ['\\', 'n']
  else if c = '\r' then ['\\', 'r']
  else if c = '\t' then ['\\', 't']
  else if isPrintable c then [c]
  else codePointForm c

/-- The quoted form of a text. -/
def quoted (s : String) : String :=
  let mark := quoteMark s.toList
  String.ofList (mark :: s.toList.flatMap (quotedForm mark) ++ [mark])

end Residency.Text
