/-
Residency/Text/File.lean

Text files.  A file is its bytes, if it exists; its text is the strict UTF-8 reading of
them, in which a carriage return, alone or before a line feed, is a line feed.  A byte
order mark is a character like any other.
-/
namespace Residency.Text

/-- Why a file has no text. -/
inductive FileError where
  /-- There is no such file. -/
  | missing
  /-- The bytes are not UTF-8. -/
  | notUtf8
deriving DecidableEq, Repr

/-- Every line end written as a line feed. -/
def unifyLineEnds : List Char → List Char
  | [] => []
  | '\r' :: '\n' :: cs => '\n' :: unifyLineEnds cs
  | c :: cs => (if c = '\r' then '\n' else c) :: unifyLineEnds cs

/-- The text of a file with the given bytes. -/
def fileText (bytes : Option ByteArray) : Except FileError String :=
  match bytes with
  | none => .error .missing
  | some b =>
    match String.fromUTF8? b with
    | none => .error .notUtf8
    | some s => .ok (String.ofList (unifyLineEnds s.toList))

end Residency.Text
