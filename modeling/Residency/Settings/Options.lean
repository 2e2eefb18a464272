/-
Residency/Settings/Options.lean

Options: the text form of settings.  An option is a key and a value on one line,

    ns.memory_size = 1024     # a comment

where the key may carry a namespace, which is dropped.  Other lines are blank or hold a
comment, which starts with `#`, or with `!` where no option precedes it.  A value ends at
`#`; its outer white space is dropped.

Options are kept in the order in which their keys occur first, each with its last value.
Values are texts; this module also reads them as integers and truth values.
-/
import Residency.Analysis
import Residency.Text.Integer
import Residency.Text.Letters
import Residency.Text.Lines

namespace Residency

open Text (counted quoted skipBlanks isLineEnd)

/-- Keys with their values. -/
abbrev Options := List (String × String)

namespace Options

/-- The value of a key; an option that is not given has the empty value. -/
def value (o : Options) (key : String) : String :=
  (o.lookup key).getD ""

/-- Is the key given? -/
def has (o : Options) (key : String) : Bool :=
  o.any fun p => p.1 == key

/-- Gives a key a value: in its place if it is given already, otherwise at the end. -/
def put (o : Options) (key value : String) : Options :=
  if o.has key then o.map fun p => if p.1 = key then (key, value) else p
  else o ++ [(key, value)]

/-- The options of a list of pairs, of which later ones win. -/
def ofPairs (ps : List (String × String)) : Options :=
  ps.foldl (fun o p => put o p.1 p.2) []

/-! ### Lines -/

/-- The first character of a key. -/
def isKeyStart (c : Char) : Bool :=
  ('a' ≤ c && c ≤ 'z') || ('A' ≤ c && c ≤ 'Z') || c == '_'

/-- A character of a key. -/
def isKeyChar (c : Char) : Bool :=
  isKeyStart c || ('0' ≤ c && c ≤ '9') || c == '.' || c == '-'

/-- A character of a value. -/
def isValueChar (c : Char) : Bool :=
  c != '#' && c != '\r' && c != '\n'

/-- The part of a key after its last dot. -/
def localName (key : List Char) : List Char :=
  (key.reverse.takeWhile (· != '.')).reverse

/-- An option at the head of `cs`, and what follows it. -/
def option? (cs : List Char) : Option ((List Char × List Char) × List Char) :=
  if cs.head?.any isKeyStart then
    match skipBlanks (cs.dropWhile isKeyChar) with
    | '=' :: rest =>
      let body := skipBlanks rest
      some ((cs.takeWhile isKeyChar, body.takeWhile isValueChar), body.dropWhile isValueChar)
    | _ => none
  else none

/-- Does the rest of a line hold nothing but blanks and a comment? -/
def closes (cs : List Char) : Bool :=
  let rest := skipBlanks cs
  isLineEnd rest || rest.head? == some '#' || rest.head? == some '!'

/-- The option of a line, if it has one, as key and value; nothing at all if the line is
malformed. -/
def ofLine? (cs : List Char) : Option (Option (List Char × List Char)) :=
  let body := skipBlanks cs
  match option? body with
  | some ((key, value), rest) =>
    if closes rest then some (some (localName key, Text.trim value)) else none
  | none => if closes body then some none else none

/-- The options of a text with the numbers of their lines. -/
def located (source text : String) : Except Fault (List (Nat × String × String)) :=
  match Text.readLines ofLine? 1 (Text.lines text.toList) with
  | .error line => .error (.malformedOption source line)
  | .ok ls => .ok (ls.filterMap fun (line, o) =>
      o.map fun (key, value) => (line, String.ofList key, String.ofList value))

/-- Gives a key a value and reports it if the key was given before. -/
def give (source : String) (o : Options) (entry : Nat × String × String) : Analysis Options := do
  let (line, key, value) := entry
  if o.has key then
    Analysis.note .warning .settings (source ++ ":" ++ counted line ++ ": " ++ key ++
      " given twice, using " ++ quoted value)
  return o.put key value

/-- The options of a text. -/
def parse (text source : String) : Analysis Options := do
  let entries ← Analysis.ofExcept (located source text)
  Analysis.follow (give source) [] entries

/-! ### Values -/

/-- The value of an option that must be given. -/
def mandatory (o : Options) (key : String) : Except Fault String :=
  if o.value key = "" then .error (.missingOption key) else .ok (o.value key)

/-- Reads a value as an integer. -/
def integer (key text : String) : Except Fault Int :=
  match Text.integer? text with
  | some n => .ok n
  | none => .error (.notInteger key text)

/-- The words for yes. -/
def yesWords : List String :=
  ["1", "true", "yes", "on"]

/-- The words for no. -/
def noWords : List String :=
  ["0", "false", "no", "off"]

/-- Reads a value as a truth value. -/
def boolean (key text : String) : Except Fault Bool :=
  let word := String.ofList (Text.lower (Text.trim text.toList))
  if word ∈ yesWords then .ok true
  else if word ∈ noWords then .ok false
  else .error (.notBoolean key text)

/-- The value of an option that is read by `read` if it is given, and `default` otherwise. -/
def orDefault {α : Type} (o : Options) (key : String) (default : α)
    (read : String → Except Fault α) : Except Fault α :=
  if o.value key = "" then .ok default else read (o.value key)

end Options

end Residency
