/-
Residency/Concrete.lean

Concrete memories: the addresses that a memory holds after a history of accesses, starting
empty.  Abstract states speak about these contents, MUST from below and MAY from above.

Contents are listed with the most recently used address first.  A fully associative cache
keeps as many of them as it has lines.  A scratchpad lays whole functions out from the top,
drops those whose bytes leave it, and never loads one that is larger than itself.  In a
direct-mapped cache the last access to a slot wins.
-/
import Residency.Policy.Basic

namespace Residency

/-- The contents of a memory, most recently used first. -/
abbrev Contents := List Int

namespace Contents

/-- The address in front of all others. -/
def moveToFront (address : Int) (contents : Contents) : Contents :=
  address :: contents.filter (· != address)

/-- The addresses of a history, ordered by their last access. -/
def recent (history : List Int) : Contents :=
  history.foldl (fun contents address => contents.moveToFront address) []

/-- Addresses of the given sizes one after the other, each with the first byte it occupies. -/
def laidOut (size : Int → Int) (top : Int) : Contents → List Entry
  | [] => []
  | a :: rest => ⟨a, top⟩ :: laidOut size (top + size a) rest

end Contents

namespace LruCache

/-- The contents after an access. -/
def load (c : LruCache) (contents : Contents) (address : Int) : Contents :=
  (contents.moveToFront address).take c.lines.toNat

end LruCache

namespace DirectMapped

/-- The contents after an access. -/
def load (c : DirectMapped) (contents : Contents) (address : Int) : Contents :=
  address :: contents.filter fun b => c.slot b != c.slot address

end DirectMapped

namespace Scratchpad

/-- The bytes of a function in whole blocks of the scratchpad; none for an address without
function. -/
def bytesOf (p : Scratchpad) (address : Int) : Int :=
  match p.functions.function? address with
  | some f => roundUp (roundUp f.size p.functions.blockSize) p.geometry.blockSize
  | none => 0

/-- Do the bytes of a function lie inside the scratchpad? -/
def fits (p : Scratchpad) (e : Entry) : Bool :=
  e.age + p.bytesOf e.address ≤ p.capacity

/-- The contents after an access. -/
def load (p : Scratchpad) (contents : Contents) (address : Int) : Contents :=
  if p.bytesOf address > p.capacity then contents
  else (((contents.moveToFront address).laidOut p.bytesOf 0).filter p.fits).map fun e =>
    e.address

end Scratchpad

namespace Policy

/-- The contents after an access. -/
def load : Policy → Contents → Int → Contents
  | lruCache c => c.load
  | directMapped c => c.load
  | scratchpad p => p.load

/-- The contents after a history, starting empty. -/
def contents (p : Policy) (history : List Int) : Contents :=
  history.foldl p.load []

end Policy

end Residency
