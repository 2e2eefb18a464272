/-
Residency/Text/Lines.lean

Lines of a text.  A line is what stands before a line feed; a text that does not end in
one is read as if it did, so the empty text has no lines.  Lines are numbered from 1.

`readLines` applies a reader to each line in turn and stops at the first line that the
reader refuses, naming its number.
-/
namespace Residency.Text

/-- The lines of a text, without their line feeds. -/
def lines : List Char → List (List Char)
  | [] => []
  | c :: cs =>
    if c = '\n' then [] :: lines cs
    else match lines cs with
      | [] => [[c]]
      | l :: ls => (c :: l) :: ls

/-- What ends a line besides the line feed: nothing, or a carriage return. -/
def isLineEnd (cs : List Char) : Bool :=
  cs == [] || cs == ['\r']

/-- Reads lines numbered from `first`; the number of the first refused line is the error. -/
def readLines {α : Type} (read? : List Char → Option α) (first : Nat) :
    List (List Char) → Except Nat (List (Nat × α))
  | [] => .ok []
  | l :: ls =>
    match read? l with
    | none => .error first
    | some a => (readLines read? (first + 1) ls).map ((first, a) :: ·)

end Residency.Text
