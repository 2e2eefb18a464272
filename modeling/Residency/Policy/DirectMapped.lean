/-
Residency/Policy/DirectMapped.lean

A direct-mapped cache.  Each address has one slot, given by the number of its line, and the
slot stands where other memories have the age.  An access evicts whatever has the slot of
the address and loads the address there.  On a single path both sets are the contents of
the cache; a join keeps in MUST the addresses of both states and in MAY those of either.

Line offsets have a number of bits that is not negative if the cache comes from a geometry.
A cache that was given a negative number has no slots: everything that asks for one fails,
and only the join of states without entries does not.
-/
import Residency.Analysis
import Residency.State

namespace Residency

open Text (decimal hex8)

/-- A direct-mapped cache: the number of slots, and the bits of an offset in a line. -/
structure DirectMapped where
  lines : Int
  lineBits : Int
deriving DecidableEq, Repr

namespace DirectMapped

/-- A cache has lines. -/
def make (lines lineBits : Int) : Except Fault DirectMapped :=
  if lines = 0 then refuse .noDirectMappedLine else .ok ⟨lines, lineBits⟩

/-- The slot of an address, where the cache has slots. -/
def slot (c : DirectMapped) (address : Int) : Int :=
  (address >>> c.lineBits.toNat).fmod c.lines

/-- Refuses a cache without slots. -/
def requireSlots (c : DirectMapped) : Except Fault Unit :=
  if c.lineBits < 0 then refuse .negativeLineBits else .ok ()

/-- The slot of an address, or what is wrong with the cache. -/
def slotOf (c : DirectMapped) (address : Int) : Except Fault Int := do
  c.requireSlots
  return c.slot address

/-- The entry of an address in its slot. -/
def slotEntry (c : DirectMapped) (address : Int) : Entry :=
  ⟨address, c.slot address⟩

/-! ### One set -/

/-- The entries that have the slot of `address`. -/
def occupants (c : DirectMapped) (s : EntrySet) (address : Int) : EntrySet :=
  s.filter fun e => e.age == c.slot address

/-- A set after an access. -/
def accessed (c : DirectMapped) (s : EntrySet) (address : Int) : EntrySet :=
  EntrySet.sorted (s.filter (fun e => e.age != c.slot address) ++ [c.slotEntry address])

/-- A state after an access. -/
def step (c : DirectMapped) (s : State) (address : Int) : State :=
  ⟨c.accessed s.must address, c.accessed s.may address, s.capacityOr c.lines⟩

/-- The join of two states. -/
def merge (c : DirectMapped) (s t : State) : State where
  must := EntrySet.sorted ((s.must.filter fun e => t.must.holds e.address).map fun e =>
    c.slotEntry e.address)
  may := EntrySet.sorted ((s.may.jointAddresses t.may).map c.slotEntry)
  capacity := s.capacityOr c.lines

/-! ### The journal -/

/-- Reports what an access evicts from a set, apart from the address itself. -/
def reportAccess (c : DirectMapped) (s : EntrySet) (address : Int) : Analysis Unit :=
  let others := (c.occupants s address).addresses.filter (· != address)
  if others.isEmpty then pure ()
  else Analysis.note .debug .directMapped ("slot " ++ decimal (c.slot address) ++
    ": evicting " ++ EntrySet.addressesText others ++ " for " ++ hex8 address)

/-- Reports a set. -/
def reportSet (kind : SetKind) (s : EntrySet) : Analysis Unit :=
  Analysis.noteInDetail .directMapped ("Abstract " ++ kind.title ++ " cache lines are: ") s.text

/-! ### Transfer functions -/

/-- The effect of an access. -/
def access (c : DirectMapped) (s : State) (address : Int) : Analysis State := do
  Analysis.ofExcept c.requireSlots
  c.reportAccess s.must address
  c.reportAccess s.may address
  Analysis.count (c.step s address).usage
  return c.step s address

/-- The join of two states, with its result in the journal. -/
def joinTwo (c : DirectMapped) (s t : State) : Analysis State := do
  if !(c.merge s t).isEmpty then
    Analysis.ofExcept c.requireSlots
  reportSet .must (c.merge s t).must
  reportSet .may (c.merge s t).may
  return c.merge s t

end DirectMapped

end Residency
