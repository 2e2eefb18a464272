/-
Residency/Text/Integer.lean

Integer literals: an optional sign followed by decimal digits, or by a base mark (`0x`,
`0o` or `0b`, in either case) and digits to that base.  One underscore may stand between
two digits and after a base mark.  White space at both ends is ignored.  A decimal literal
other than zero does not start with 0, and it has at most `maxDecimalDigits` digits.

Decimal digits of every script are read by their value, and white space outside ASCII like
the space, so `plainForm` is applied before anything else is looked at.
-/
import Residency.Text.Numeral
import Residency.Text.Space

namespace Residency.Text

/-- The zeros of the decimal digits beyond ASCII; the other nine digits follow each. -/
def digitZeros : List Nat := [
  0x660, 0x6F0, 0x7C0, 0x966, 0x9E6, 0xA66, 0xAE6, 0xB66, 0xBE6, 0xC66, 0xCE6, 0xD66, 0xDE6,
  0xE50, 0xED0, 0xF20, 0x1040, 0x1090, 0x17E0, 0x1810, 0x1946, 0x19D0, 0x1A80, 0x1A90, 0x1B50,
  0x1BB0, 0x1C40, 0x1C50, 0xA620, 0xA8D0, 0xA900, 0xA9D0, 0xA9F0, 0xAA50, 0xABF0, 0xFF10,
  0x104A0, 0x10D30, 0x11066, 0x110F0, 0x11136, 0x111D0, 0x112F0, 0x11450, 0x114D0, 0x11650,
  0x116C0, 0x11730, 0x118E0, 0x11950, 0x11C50, 0x11D50, 0x11DA0, 0x16A60, 0x16AC0, 0x16B50,
  0x1D7CE, 0x1D7D8, 0x1D7E2, 0x1D7EC, 0x1D7F6, 0x1E140, 0x1E2F0, 0x1E950, 0x1FBF0
]

/-- The value of a decimal digit beyond ASCII. -/
def foreignDigit? (c : Char) : Option Nat :=
  (digitZeros.find? fun z => z ≤ c.toNat && c.toNat < z + 10).map (c.toNat - ·)

/-- The ASCII character that `c` is read as in a literal, and `?` where there is none. -/
def plainForm (c : Char) : Char :=
  if c.toNat < 0x7F then c
  else if isSpace c then ' '
  else match foreignDigit? c with
    | some d => Char.ofNat ('0'.toNat + d)
    | none => '?'

/-- The value of `c` as a digit to `base`. -/
def digit? (base : Nat) (c : Char) : Option Nat :=
  let value :=
    if '0' ≤ c && c ≤ '9' then some (c.toNat - '0'.toNat)
    else if 'a' ≤ c && c ≤ 'z' then some (c.toNat - 'a'.toNat + 10)
    else if 'A' ≤ c && c ≤ 'Z' then some (c.toNat - 'A'.toNat + 10)
    else none
  value.filter (· < base)

/-- The digits of a literal to `base`, with at most one underscore between two of them. -/
def digitRun? (base : Nat) : List Char → Option (List Nat)
  | [] => none
  | [c] => (digit? base c).map ([·])
  | c :: '_' :: cs => do
    let d ← digit? base c
    let ds ← digitRun? base cs
    return d :: ds
  | c :: cs => do
    let d ← digit? base c
    let ds ← digitRun? base cs
    return d :: ds

/-- The number that a list of digits to `base` denotes. -/
def ofDigits (base : Nat) (ds : List Nat) : Nat :=
  ds.foldl (fun n d => n * base + d) 0

/-- The base that a mark after a leading zero announces. -/
def baseOfMark? (c : Char) : Option Nat :=
  if c = 'x' || c = 'X' then some 16
  else if c = 'o' || c = 'O' then some 8
  else if c = 'b' || c = 'B' then some 2
  else none

/-- Reads a decimal literal without sign. -/
def decimal? (cs : List Char) : Option Nat := do
  let ds ← digitRun? 10 cs
  if maxDecimalDigits < ds.length then none
  else if ds.head? = some 0 && ds.any (· ≠ 0) then none
  else return ofDigits 10 ds

/-- Reads the digits after a base mark. -/
def marked? (base : Nat) (cs : List Char) : Option Nat :=
  let body := match cs with
    | '_' :: rest => rest
    | _ => cs
  (digitRun? base body).map (ofDigits base)

/-- Reads a literal without sign. -/
def magnitude? : List Char → Option Nat
  | '0' :: mark :: cs =>
    match baseOfMark? mark with
    | some base => marked? base cs
    | none => decimal? ('0' :: mark :: cs)
  | cs => decimal? cs

/-- Reads a literal with its sign. -/
def signed? : List Char → Option Int
  | '-' :: cs => (magnitude? cs).map fun n => -(n : Int)
  | '+' :: cs => (magnitude? cs).map fun n => (n : Int)
  | cs => (magnitude? cs).map fun n => (n : Int)

/-- The space and the five control characters that move the print position. -/
def isLiteralSpace (c : Char) : Bool :=
  c == ' ' || (9 ≤ c.toNat && c.toNat ≤ 13)

/-- Reads an integer literal. -/
def integer? (s : String) : Option Int :=
  signed? (trimBy isLiteralSpace (s.toList.map plainForm))

end Residency.Text
