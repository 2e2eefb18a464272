/-
Residency/EntrySet.lean

Entry sets: the abstract contents of a memory.  An entry is an address with its age, where
age 0 is the most recently used place; in a direct-mapped memory the slot takes the place
of the age.  A set is a list of entries, in general in ascending order of age and without
repeated addresses; the operations are defined on every list, and the two joins detect
repeated addresses where their result would depend on the choice of an entry.

`joinMust` keeps what both sets hold, at the larger age; `joinMay` keeps what
either set holds, at the smaller age.
-/
import Residency.Fault
import Residency.Sorting

namespace Residency

open Text (Phrase decimal hex hex8)

/-- The two sets of an abstract state. -/
inductive SetKind where
  /-- What is resident on every path. -/
  | must
  /-- What is resident on some path. -/
  | may
deriving DecidableEq, Repr

namespace SetKind

/-- The word for a set inside a sentence. -/
def word : SetKind → String
  | must => "must"
  | may => "may"

/-- The name of a set. -/
def title : SetKind → String
  | must => "MUST"
  | may => "MAY"

end SetKind

/-- An address with its age or slot. -/
structure Entry where
  address : Int
  age : Int
deriving DecidableEq, Repr

namespace Entry

/-- Entries are ordered by age, and by address within one age. -/
def le (e f : Entry) : Bool :=
  e.age < f.age || (e.age == f.age && e.address ≤ f.address)

/-- An entry as a programmer sees it. -/
def describe (e : Entry) : Phrase :=
  "MemoryEntry(" ++ hex8 e.address ++ ", " ++ decimal e.age ++ ")"

/-- An entry inside the text of a state. -/
def short (e : Entry) : Phrase :=
  hex e.address ++ ":" ++ decimal e.age

/-- An entry inside the text of a set. -/
def text (e : Entry) : Phrase :=
  "(" ++ hex8 e.address ++ " " ++ decimal e.age ++ ")"

/-- An entry of the given size inside the text of a set: the bytes it occupies, and the size. -/
def rangeText (size : Int) (e : Entry) : Phrase :=
  "(" ++ hex8 e.address ++ " " ++ decimal e.age ++ "-" ++ decimal (e.age + size) ++ "/" ++
    decimal size ++ ")"

end Entry

/-- Entries in order. -/
abbrev EntrySet := List Entry

namespace EntrySet

/-! ### Looking up -/

/-- Does the set hold the address? -/
def holds (s : EntrySet) (address : Int) : Bool :=
  s.any fun e => e.address == address

/-- The first entry for the address. -/
def entry? (s : EntrySet) (address : Int) : Option Entry :=
  s.find? fun e => e.address == address

/-- The entries for all other addresses. -/
def without (s : EntrySet) (address : Int) : EntrySet :=
  s.filter fun e => e.address != address

/-- The entries in ascending order. -/
def sorted (s : EntrySet) : EntrySet :=
  sortBy Entry.le s

/-! ### Addresses -/

/-- The members of a list where they occur first. -/
def firstSeen : List Int → List Int
  | [] => []
  | a :: as => a :: (firstSeen as).filter (· != a)

/-- The addresses of a set, entry by entry. -/
def addresses (s : EntrySet) : List Int :=
  s.map fun e => e.address

/-- The addresses of two sets, each once: those of the first set first. -/
def jointAddresses (s t : EntrySet) : List Int :=
  firstSeen (s.addresses ++ t.addresses)

/-- The addresses of a set in ascending order, each once. -/
def distinctAddresses (s : EntrySet) : List Int :=
  sortBy (fun a b => a ≤ b) (firstSeen s.addresses)

/-- One entry for each address in ascending order of addresses; of several the last counts. -/
def agesByAddress (s : EntrySet) : EntrySet :=
  s.distinctAddresses.filterMap fun a => EntrySet.entry? s.reverse a

/-! ### Repeated addresses -/

/-- The first address of `s` that is in `seen` or occurs in `s` before. -/
def repeatAfter? (seen : List Int) : EntrySet → Option Int
  | [] => none
  | e :: s => if e.address ∈ seen then some e.address else repeatAfter? (e.address :: seen) s

/-- The first address that occurs for the second time. -/
def firstRepeat? (s : EntrySet) : Option Int :=
  repeatAfter? [] s

/-- Refuses a set that holds an address twice. -/
def refuseRepeats (s : EntrySet) : Except Fault Unit :=
  match s.firstRepeat? with
  | none => .ok ()
  | some a => refuse (.duplicateAddress a)

/-- The ages of a set by address: the set itself, if it holds no address twice. -/
def ages (s : EntrySet) : Except Fault EntrySet := do
  s.refuseRepeats
  return s

/-! ### Joins -/

/-- The entries of `s` that `t` holds too, each at the larger age. -/
def common (s t : EntrySet) : EntrySet :=
  s.filterMap fun e => (t.entry? e.address).map fun f => ⟨e.address, max e.age f.age⟩

/-- The entries of `s`, at the smaller age where `t` holds them too, and what only `t` holds. -/
def merged (s t : EntrySet) : EntrySet :=
  s.map (fun e => match t.entry? e.address with
    | none => e
    | some f => ⟨e.address, min f.age e.age⟩) ++
  t.filter fun f => !s.holds f.address

/-- What both sets hold, at the larger age.  The second set must not repeat an address. -/
def joinMust (s t : EntrySet) : Except Fault EntrySet := do
  t.refuseRepeats
  return (common s t).sorted

/-- What either set holds, at the smaller age.  Neither set may repeat an address. -/
def joinMay (s t : EntrySet) : Except Fault EntrySet := do
  s.refuseRepeats
  t.refuseRepeats
  return (merged s t).sorted

/-! ### Text -/

/-- The entries of a set one after the other. -/
def text (s : EntrySet) : Phrase :=
  Phrase.join (s.map Entry.text)

/-- The entries of a set with the bytes they occupy. -/
def rangeText (size : Int → Int) (s : EntrySet) : Phrase :=
  Phrase.join (s.map fun e => e.rangeText (size e.address))

/-- A list of addresses. -/
def addressesText (as : List Int) : String :=
  String.join (as.map fun a => "(" ++ hex8 a ++ ")")

end EntrySet

end Residency
