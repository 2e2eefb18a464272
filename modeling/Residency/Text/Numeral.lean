/-
Residency/Text/Numeral.lean

Numerals: how an integer is written in a message.  A numeral is a sign, zeros up to a
given width, and the digits; the sign counts towards the width, so that a column of
addresses lines up also when one of them is negative.

`hex8` is the form of an address in every message, `hex` the short form used inside the
text of a state, `counted` the form of a count and `decimal` that of all other numbers.
A decimal numeral has 4300 digits at most; a number that needs more cannot be written.
-/
import Residency.Text.Phrase

namespace Residency.Text

/-- The numeral of `n` to `base`, filled with zeros after the sign up to `width` characters. -/
def numeral (base width : Nat) (n : Int) : String :=
  let sign := if n < 0 then ['-'] else []
  let digits := Nat.toDigits base n.natAbs
  String.ofList (sign ++ List.replicate (width - sign.length - digits.length) '0' ++ digits)

/-- The longest decimal numeral that is read or written, in digits. -/
def maxDecimalDigits : Nat := 4300

/-- Is the number short enough to be written in decimal? -/
def isWritable (n : Int) : Bool :=
  (Nat.toDigits 10 n.natAbs).length ≤ maxDecimalDigits

/-- A plain decimal numeral, if the number is short enough. -/
def decimal (n : Int) : Phrase :=
  if isWritable n then Phrase.ofString (numeral 10 0 n) else Phrase.unwritable

/-- The decimal numeral of a number of things at hand, which is short. -/
def counted (n : Nat) : String :=
  numeral 10 0 n

/-- A hexadecimal numeral without fill. -/
def hex (n : Int) : String :=
  "0x" ++ numeral 16 0 n

/-- A hexadecimal numeral of at least eight places: the form of an address. -/
def hex8 (n : Int) : String :=
  "0x" ++ numeral 16 8 n

end Residency.Text
