/-
Residency/Memory/CacheGeometry.lean

The geometry of an instruction cache: whole lines, each of a power of two of bytes.  A
`CacheGeometry` carries the proof of that, so it exists only for a cache that makes sense;
`CacheGeometry.check` builds one from numbers or says what is wrong with them, looking at
the size, the line size, their ratio and then the numbers that may be given besides.

`linesOfRange` lists the lines that a range of code touches.
-/
import Residency.Analysis
import Residency.Memory.PowerOfTwo
import Residency.Memory.Rounding

namespace Residency

open Text (decimal)

/-- A cache of `lines` lines, each of as many bytes as `lineBits` bits can tell apart. -/
structure CacheGeometry where
  capacity : Int
  lineSize : Int
  lineBits : Nat
  lines : Int
  policy : PolicyKind
  lineSize_eq : lineSize = (1 <<< lineBits : Nat)
  capacity_eq : lines * lineSize = capacity
  lines_pos : 0 < lines

namespace CacheGeometry

/-- The lines make up the capacity. -/
theorem lines_eq {capacity lineSize : Int} (h : capacity.fmod lineSize = 0) :
    capacity.fdiv lineSize * lineSize = capacity := by
  have := Int.mul_fdiv_add_fmod capacity lineSize
  rw [h, Int.add_zero, Int.mul_comm] at this
  exact this

theorem fdiv_pos_of_dvd {capacity lineSize : Int} (hc : 0 < capacity) (hl : 0 < lineSize)
    (h : capacity.fmod lineSize = 0) : 0 < capacity.fdiv lineSize := by
  have hmul := lines_eq h
  refine Int.lt_of_not_ge fun hle => ?_
  have : capacity.fdiv lineSize * lineSize ≤ 0 :=
    Int.mul_nonpos_of_nonpos_of_nonneg hle (Int.le_of_lt hl)
  omega

/-- Builds a geometry.  The bits of a line offset and the number of lines follow from the two
sizes; where they are given they must agree. -/
def check (capacity lineSize : Int) (lineBits lines : Option Int) (policy : PolicyKind) :
    Except Fault CacheGeometry :=
  if hc : capacity ≤ 0 then refuse (.cacheSize capacity)
  else if hl : isPowerOfTwo lineSize = false then refuse (.lineSize lineSize)
  else if hm : capacity.fmod lineSize ≠ 0 then refuse (.cacheAlignment capacity lineSize)
  else
    let bits := lineSize.toNat.log2
    let count := capacity.fdiv lineSize
    if lineBits.any (· != (bits : Int)) then refuse (.lineBits (lineBits.getD bits) lineSize)
    else if lines.any (· != count) then refuse (.lineCount (lines.getD count) capacity lineSize)
    else
      have hpow : isPowerOfTwo lineSize = true := eq_true_of_ne_false hl
      .ok {
        capacity, lineSize, policy
        lineBits := bits
        lines := count
        lineSize_eq := eq_shiftLeft_of_isPowerOfTwo hpow
        capacity_eq := lines_eq (Decidable.of_not_not hm)
        lines_pos := fdiv_pos_of_dvd (Int.lt_of_not_ge hc) (pos_of_isPowerOfTwo hpow)
          (Decidable.of_not_not hm) }

/-- Builds a geometry and reports it. -/
def make (capacity lineSize : Int) (lineBits lines : Option Int) (policy : PolicyKind) :
    Analysis CacheGeometry := do
  let g ← Analysis.ofExcept (check capacity lineSize lineBits lines policy)
  Analysis.note .debug .geometry ("cache: " ++ decimal g.capacity ++ " bytes, " ++
    decimal g.lines ++ " lines of " ++ decimal g.lineSize ++ " bytes, policy " ++ g.policy.word)
  return g

/-- The number of the line that holds an address. -/
def blockOf (g : CacheGeometry) (address : Int) : Int :=
  address >>> g.lineBits

/-- The first address of the line that holds an address. -/
def lineOf (g : CacheGeometry) (address : Int) : Int :=
  alignDown address g.lineSize

end CacheGeometry

/-- Line after line, less remains of a range. -/
theorem toNat_remaining_lt {lineSize address stop : Int} (h : 0 < lineSize)
    (hstop : address < stop) : (stop - (address + lineSize)).toNat < (stop - address).toNat := by
  omega

/-- The addresses from the given one on, a line apart, that are below `stop`. -/
def linesFrom {lineSize : Int} (h : 0 < lineSize) (stop address : Int) : List Int :=
  if address < stop then address :: linesFrom h stop (address + lineSize) else []
termination_by (stop - address).toNat
decreasing_by exact toNat_remaining_lt h ‹address < stop›

/-- The first addresses of the lines from the one that holds `start` to the last one that begins
before `start + size`. -/
def linesOfRange (start size lineSize : Int) : Except Fault (List Int) :=
  if h : isPowerOfTwo lineSize = true then
    .ok (linesFrom (pos_of_isPowerOfTwo h) (start + size) (alignDown start lineSize))
  else refuse (.lineSize lineSize)

end Residency
