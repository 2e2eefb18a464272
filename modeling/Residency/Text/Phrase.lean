/-
Residency/Text/Phrase.lean

Phrases: texts that are put together from pieces of which some may be impossible to write.
A piece that cannot be written spoils the phrase it stands in.  A plain text is a phrase
that can always be written, so `++` mixes the two.

`text?_append` says what a phrase reads.
-/
namespace Residency.Text

/-- A text, unless a piece of it cannot be written. -/
structure Phrase where
  text? : Option String
deriving DecidableEq, Repr

namespace Phrase

/-- A plain text. -/
def ofString (s : String) : Phrase :=
  ⟨some s⟩

/-- Something that cannot be written. -/
def unwritable : Phrase :=
  ⟨none⟩

instance : Coe String Phrase := ⟨ofString⟩

/-- One phrase after the other. -/
def append : Phrase → Phrase → Phrase
  | ⟨some s⟩, ⟨some t⟩ => ⟨some (s ++ t)⟩
  | _, _ => unwritable

instance : Append Phrase := ⟨append⟩

/-- Phrases one after the other. -/
def join (ps : List Phrase) : Phrase :=
  ps.foldl (· ++ ·) (ofString "")

/-- Phrases one after the other with a text between each two. -/
def separated (between : String) : List Phrase → Phrase
  | [] => ofString ""
  | p :: ps => ps.foldl (fun done q => done ++ ofString between ++ q) p

@[simp] theorem text?_ofString (s : String) : (ofString s).text? = some s := rfl

@[simp] theorem text?_unwritable : unwritable.text? = none := rfl

/-- Phrases are written one after the other, if both can be written. -/
theorem text?_append (p q : Phrase) :
    (p ++ q).text? = p.text?.bind fun s => q.text?.map fun t => s ++ t := by
  obtain ⟨p⟩ := p
  obtain ⟨q⟩ := q
  cases p <;> cases q <;> rfl

end Phrase

end Residency.Text
