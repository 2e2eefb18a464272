/-
Residency/Memory/ScratchpadGeometry.lean

The geometry of a dynamic instruction scratchpad: whole blocks, in which functions are
loaded as a whole.  A function that is larger than the scratchpad is either never loaded or
a fault, as the user chooses.  Like a `CacheGeometry`, a `ScratchpadGeometry` exists only
for numbers that make sense.
-/
import Residency.Analysis
import Residency.Memory.Rounding

namespace Residency

open Text (decimal)

/-- A scratchpad of `capacity` bytes in blocks of `blockSize` bytes. -/
structure ScratchpadGeometry where
  capacity : Int
  blockSize : Int
  /-- Are functions that are larger than the scratchpad left outside? -/
  ignoreOutsized : Bool
  policy : PolicyKind
  capacity_pos : 0 < capacity
  blockSize_pos : 0 < blockSize
  aligned : capacity.fmod blockSize = 0

namespace ScratchpadGeometry

/-- The number of blocks. -/
def blockCount (g : ScratchpadGeometry) : Int :=
  g.capacity.fdiv g.blockSize

/-- Builds a geometry, looking at the size, the block size and then at their ratio. -/
def check (capacity blockSize : Int) (ignoreOutsized : Bool) (policy : PolicyKind) :
    Except Fault ScratchpadGeometry :=
  if hc : capacity ≤ 0 then refuse (.scratchpadSize capacity)
  else if hb : blockSize ≤ 0 then refuse (.scratchpadBlock blockSize)
  else if hm : capacity.fmod blockSize ≠ 0 then refuse (.scratchpadAlignment capacity blockSize)
  else .ok {
    capacity, blockSize, ignoreOutsized, policy
    capacity_pos := Int.lt_of_not_ge hc
    blockSize_pos := Int.lt_of_not_ge hb
    aligned := Decidable.of_not_not hm }

/-- The word for a truth value in the journal. -/
def truthWord (b : Bool) : String :=
  if b then "True" else "False"

/-- Builds a geometry and reports it. -/
def make (capacity blockSize : Int) (ignoreOutsized : Bool) (policy : PolicyKind) :
    Analysis ScratchpadGeometry := do
  let g ← Analysis.ofExcept (check capacity blockSize ignoreOutsized policy)
  Analysis.note .debug .geometry ("disp: " ++ decimal g.capacity ++ " bytes in " ++
    decimal g.blockCount ++ " blocks of " ++ decimal g.blockSize ++
    " bytes, ignore_outsized_functions=" ++ truthWord g.ignoreOutsized)
  return g

end ScratchpadGeometry

end Residency
