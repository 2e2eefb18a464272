/-
Residency/FunctionTable/Listing.lean

Function listings: the text form of a function table.  A listing has a statement on each
line, apart from blank lines and comments, which start with `#`.  There are two formats:

    0x00001000  main  120          address, name and size
    00001000 <main>:               address and name; the function ends where the next starts

A listing uses one of them throughout.  The name `END_TAG` closes the listing: it is no
function, and what follows it is not read, apart from its form.

A line is read from left to right without going back: `Statement.read?` tries the first
format, then the second, and the line is accepted if only blanks and a comment follow.
-/
import Residency.Text.Integer
import Residency.Text.Lines
import Residency.FunctionTable.Basic

namespace Residency

open Text (counted quoted isBlank isSpace skipBlanks isLineEnd digit? ofDigits)

/-- A function of a listing. -/
structure ListedFunction where
  address : Int
  size : Int
  name : String
deriving DecidableEq, Repr

/-- What a line of a listing states. -/
inductive Statement where
  /-- A function with the digits of its size. -/
  | sized (address : Nat) (name : List Char) (size : List Char)
  /-- The start of a function. -/
  | start (address : Nat) (name : List Char)
deriving DecidableEq, Repr

namespace Statement

/-! ### Characters -/

/-- A hexadecimal digit. -/
def isHexDigit (c : Char) : Bool :=
  (digit? 16 c).isSome

/-- A decimal digit. -/
def isDecimalDigit (c : Char) : Bool :=
  (digit? 10 c).isSome

/-- The number that digits to `base` denote. -/
def valueOf (base : Nat) (cs : List Char) : Nat :=
  ofDigits base (cs.filterMap (digit? base))

/-- A character of a name in the format with sizes. -/
def isNameChar (c : Char) : Bool :=
  !isSpace c && c != '<' && c != '>' && c != '#'

/-- A character of a name between angle brackets. -/
def isBracketedChar (c : Char) : Bool :=
  c != '<' && c != '>' && c != '\n'

/-! ### Parts of a statement, each with what follows it -/

/-- One or more characters of a class. -/
def many1? (p : Char → Bool) (cs : List Char) : Option (List Char × List Char) :=
  let word := cs.takeWhile p
  if word.isEmpty then none else some (word, cs.dropWhile p)

/-- Hexadecimal digits after `0x`. -/
def markedHex? : List Char → Option (Nat × List Char)
  | '0' :: mark :: cs =>
    if mark = 'x' || mark = 'X' then
      (many1? isHexDigit cs).map fun (ds, rest) => (valueOf 16 ds, rest)
    else none
  | _ => none

/-- Hexadecimal digits, with or without `0x`. -/
def bareHex? (cs : List Char) : Option (Nat × List Char) :=
  match markedHex? cs with
  | some r => some r
  | none => (many1? isHexDigit cs).map fun (ds, rest) => (valueOf 16 ds, rest)

/-- One or more blanks. -/
def separator? (cs : List Char) : Option (List Char) :=
  (many1? isBlank cs).map (·.2)

/-- A statement with a size. -/
def sized? (cs : List Char) : Option (Statement × List Char) := do
  let (address, cs) ← markedHex? cs
  let cs ← separator? cs
  let (name, cs) ← many1? isNameChar cs
  let cs ← separator? cs
  let (size, cs) ← many1? isDecimalDigit cs
  return (sized address name size, cs)

/-- A statement without size. -/
def start? (cs : List Char) : Option (Statement × List Char) := do
  let (address, cs) ← bareHex? cs
  match skipBlanks cs with
  | '<' :: cs =>
    let (name, cs) ← many1? isBracketedChar cs
    match cs with
    | '>' :: ':' :: cs => return (start address (Text.trim name), cs)
    | _ => none
  | _ => none

/-- A statement in either format. -/
def read? (cs : List Char) : Option (Statement × List Char) :=
  match sized? cs with
  | some r => some r
  | none => start? cs

/-- Does the rest of a line hold nothing but blanks and a comment? -/
def closes (cs : List Char) : Bool :=
  let rest := skipBlanks cs
  isLineEnd rest || rest.head? == some '#'

/-- The statement of a line, if it has one; nothing at all if the line is malformed. -/
def ofLine? (cs : List Char) : Option (Option Statement) :=
  let body := skipBlanks cs
  match read? body with
  | some (s, rest) => if closes rest then some (some s) else none
  | none => if closes body then some none else none

/-- The name in a statement. -/
def name : Statement → List Char
  | sized _ n _ => n
  | start _ n => n

/-- The address in a statement. -/
def address : Statement → Nat
  | sized a _ _ => a
  | start a _ => a

/-- Is the statement in the format with sizes? -/
def isSized : Statement → Bool
  | sized _ _ _ => true
  | start _ _ => false

/-- The number of digits of a size that is too long to be read. -/
def longNumeral? : Statement → Option Nat
  | sized _ _ size => if Text.maxDecimalDigits < size.length then some size.length else none
  | start _ _ => none

end Statement

namespace Listing

/-- The name that closes a listing. -/
def endTag : List Char :=
  "END_TAG".toList

/-- The statements of a listing with the numbers of their lines. -/
def statements (source text : String) : Except Fault (List (Nat × Statement)) :=
  match Text.readLines Statement.ofLine? 1 (Text.lines text.toList) with
  | .error line => .error (.malformedFunction source line)
  | .ok ls => .ok (ls.filterMap fun (line, s) => s.map fun s => (line, s))

/-- The functions up to the end tag, from statements with sizes. -/
def sizedFunctions (source : String) : List (Nat × Statement) → Except Fault (List ListedFunction)
  | (line, .sized address name digits) :: rest =>
    if name = endTag then .ok []
    else
      let size := Statement.valueOf 10 digits
      if size = 0 then .error (.emptyFunction source line (String.ofList name))
      else (sizedFunctions source rest).map (⟨address, size, String.ofList name⟩ :: ·)
  | _ => .ok []

/-- The functions up to the end tag, from statements without sizes: each ends where the next
one starts, and the last one is not listed. -/
def boundedFunctions (source : String) :
    List (Nat × Statement) → Except Fault (List ListedFunction)
  | (line, s) :: next :: rest =>
    if s.name = endTag then .ok []
    else
      let size : Int := next.2.address - s.address
      if size ≤ 0 then .error (.unboundedFunction source line (String.ofList s.name))
      else (boundedFunctions source (next :: rest)).map
        (⟨s.address, size, String.ofList s.name⟩ :: ·)
  | _ => .ok []

/-- Reports a listing without sizes that does not end in the end tag. -/
def reportOpenEnd (source : String) (ss : List (Nat × Statement)) : Analysis Unit :=
  match ss.getLast? with
  | none => pure ()
  | some (_, s) =>
    if s.name = endTag then pure ()
    else Analysis.note .warning .functionTable (source ++ ": last function " ++
      quoted (String.ofList s.name) ++ " has no END_TAG, its size is unknown")

/-- The functions of a listing. -/
def parse (text source : String) : Analysis (List ListedFunction) := do
  let ss ← Analysis.ofExcept (statements source text)
  match ss.findSome? fun (_, s) => s.longNumeral? with
  | some digits => Analysis.fail (.longNumeral source digits)
  | none =>
    if ss.all fun (_, s) => s.isSized then
      Analysis.ofExcept (sizedFunctions source ss)
    else if ss.any fun (_, s) => s.isSized then
      Analysis.fail (.mixedFormats source)
    else do
      let fs ← Analysis.ofExcept (boundedFunctions source ss)
      reportOpenEnd source ss
      return fs

end Listing

namespace FunctionTable

/-- Registers the functions of a list in order. -/
def addAll (t : FunctionTable) (fs : List ListedFunction) : Analysis FunctionTable :=
  Analysis.follow (fun t f => t.add f.address f.size (some f.name)) t fs

/-- The table of a listing. -/
def ofText (text : String) (blockSize : Int) (source : String) : Analysis FunctionTable := do
  let t ← Analysis.ofExcept (empty blockSize)
  let fs ← Listing.parse text source
  let t ← t.addAll fs
  Analysis.note .debug .functionTable
    ("loaded " ++ counted t.size ++ " functions from " ++ source)
  return t

end FunctionTable

end Residency
