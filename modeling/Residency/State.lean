/-
Residency/State.lean

Abstract states: the two entry sets of a program point, and the capacity of the memory in
lines or bytes.  A capacity of 0 stands for a state that was not made for a memory yet; it
takes over the capacity of the memory that uses it.
-/
import Residency.EntrySet
import Residency.Usage

namespace Residency

open Text (Phrase decimal)

/-- What is known about the contents of a memory at a program point. -/
structure State where
  must : EntrySet
  may : EntrySet
  capacity : Int
deriving DecidableEq, Repr

namespace State

/-- Nothing is resident. -/
def blank (capacity : Int) : State :=
  ⟨[], [], capacity⟩

/-- The set of the given kind. -/
def entries (s : State) : SetKind → EntrySet
  | .must => s.must
  | .may => s.may

/-- Is nothing resident? -/
def isEmpty (s : State) : Bool :=
  s.must.isEmpty && s.may.isEmpty

/-- The entries of both sets, MUST first. -/
def allEntries (s : State) : List Entry :=
  s.must ++ s.may

/-- The number of entries in both sets. -/
def size (s : State) : Nat :=
  s.must.length + s.may.length

/-- The capacity of the state, or that of the memory if the state has none. -/
def capacityOr (s : State) (capacity : Int) : Int :=
  if s.capacity = 0 then capacity else s.capacity

/-- A state as a programmer sees it. -/
def describe (s : State) : Phrase :=
  "AbstractMemoryState(must=[" ++ Phrase.separated ", " (s.must.map Entry.short) ++ "], may=[" ++
    Phrase.separated ", " (s.may.map Entry.short) ++ "], capacity=" ++ decimal s.capacity ++ ")"

/-! ### Usage -/

/-- The estimated bytes of a state: its header, and two words for each entry. -/
def bytes (s : State) : Int :=
  56 + 8 * s.size

/-- The usage of producing a state: one state, made of two sets. -/
def usage (s : State) : Usage :=
  Usage.oneState 2 s.bytes s.size

end State

end Residency
