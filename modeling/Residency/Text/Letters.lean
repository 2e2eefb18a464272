/-
Residency/Text/Letters.lean

Letter case, as far as comparison with words of ASCII letters needs it.  A character whose
upper-case form is made of ASCII letters is replaced by that form; every other character
stands for itself.  Outside ASCII the former are the dotless i, the long s, the sharp s and
the Latin ligatures, so `upper` equals a given ASCII word exactly if the full upper-case
form of the text does.  The same holds of `lower`, with the Kelvin sign as the only
character beyond ASCII.
-/
namespace Residency.Text

/-- The upper-case form of `c`, where that is made of ASCII letters. -/
def upperForm (c : Char) : List Char :=
  if 'a' ≤ c && c ≤ 'z' then [c.toUpper]
  else match c.toNat with
    | 0xDF => ['S', 'S']
    | 0x131 => ['I']
    | 0x17F => ['S']
    | 0xFB00 => ['F', 'F']
    | 0xFB01 => ['F', 'I']
    | 0xFB02 => ['F', 'L']
    | 0xFB03 => ['F', 'F', 'I']
    | 0xFB04 => ['F', 'F', 'L']
    | 0xFB05 => ['S', 'T']
    | 0xFB06 => ['S', 'T']
    | _ => [c]

/-- The lower-case form of `c`, where that is an ASCII letter. -/
def lowerForm (c : Char) : Char :=
  if 'A' ≤ c && c ≤ 'Z' then c.toLower
  else if c.toNat == 0x212A then 'k'
  else c

/-- `cs` with every letter in upper case, for comparison with ASCII words. -/
def upper (cs : List Char) : List Char :=
  cs.flatMap upperForm

/-- `cs` with every letter in lower case, for comparison with ASCII words. -/
def lower (cs : List Char) : List Char :=
  cs.map lowerForm

end Residency.Text
