/-
Residency/Policy/Scratchpad.lean

A dynamic instruction scratchpad with least-recently-used replacement.  It holds whole
functions of different sizes.  Ages count bytes from the top: a function of size `s` at age
`a` occupies the bytes from `a` to `a + s`, and it is evicted as soon as these leave the
scratchpad.  Sizes are not stored in a state; they are looked up in the function table, and
an address without function stops the analysis.

A miss moves every entry down by the size of the accessed function.  After a hit on a
function `f` an entry `g` that lay above `f` moves down by the size of `f`, one that lay
below stays.  After a join the two may overlap, and then `overlapAge` gives a safe age:

    MUST   max (age g) (size f + max (age f - size g) 0)
    MAY    min (age f) (age g) + size f

A hit cannot push a surely resident function out of the scratchpad if the state is sound;
if it would, the state was not, and the analysis stops.
-/
import Residency.Analysis
import Residency.State
import Residency.FunctionTable.Basic
import Residency.Memory.ScratchpadGeometry

namespace Residency

open Text (decimal hex8)

/-- A scratchpad and the functions of the program. -/
structure Scratchpad where
  geometry : ScratchpadGeometry
  functions : FunctionTable

namespace Scratchpad

/-- The bytes of the scratchpad. -/
def capacity (p : Scratchpad) : Int :=
  p.geometry.capacity

/-- The bytes of a function in whole blocks of the scratchpad. -/
def room (p : Scratchpad) (address : Int) : Analysis Int := do
  let size ← p.functions.roundedSize address
  return roundUp size p.geometry.blockSize

/-! ### Ages -/

/-- Do `sizeG` bytes from `ageG` and `sizeF` bytes from `ageF` have a byte in common? -/
def overlaps (ageF sizeF ageG sizeG : Int) : Bool :=
  ageF < ageG + sizeG && ageG < ageF + sizeF

/-- The age of `g` after a hit on `f`, if the two overlapped. -/
def overlapAge (kind : SetKind) (ageF sizeF ageG sizeG : Int) : Int :=
  match kind with
  | .must => max ageG (sizeF + max (ageF - sizeG) 0)
  | .may => min ageF ageG + sizeF

/-- The age of `g` after a hit on `f`. -/
def agedByHit (kind : SetKind) (ageF sizeF ageG sizeG : Int) : Int :=
  if overlaps ageF sizeF ageG sizeG then overlapAge kind ageF sizeF ageG sizeG
  else if ageG < ageF then ageG + sizeF
  else ageG

/-! ### Text -/

/-- The entries of a set with the bytes they occupy. -/
def setText (p : Scratchpad) (s : EntrySet) : Analysis String := do
  let texts ← Analysis.collect (fun e => do
    let size ← p.room e.address
    let text ← Analysis.write (e.rangeText size)
    return some text) s
  return String.join texts

/-- The bytes of the functions in a set together. -/
def occupied (p : Scratchpad) (s : EntrySet) : Analysis Int :=
  Analysis.follow (fun total e => do
    let size ← p.room e.address
    return total + size) 0 s

/-! ### One set -/

/-- Reports an entry that leaves the scratchpad. -/
def reportEviction (e : Entry) (age size : Int) : Analysis Unit :=
  Analysis.note .debug .scratchpad ("Evicting: " ++ hex8 e.address ++ " with age: " ++
    decimal age ++ " and size: " ++ decimal size)

/-- An entry after a miss on a function of the given size. -/
def shifted (p : Scratchpad) (size : Int) (e : Entry) : Analysis (Option Entry) := do
  let age := e.age + size
  let own ← p.room e.address
  if age + own > p.capacity then
    reportEviction e age own
    return none
  else return some ⟨e.address, age⟩

/-- Another entry after a hit on `f`. -/
def moved (p : Scratchpad) (kind : SetKind) (f : Entry) (sizeF : Int) (e : Entry) :
    Analysis (Option Entry) := do
  let own ← p.room e.address
  let age := agedByHit kind f.age sizeF e.age own
  if age + own > p.capacity then
    match kind with
    | .must => Analysis.fail (.mustOverflow e.address age own p.capacity f.address)
    | .may =>
      reportEviction e age own
      return none
  else return some ⟨e.address, age⟩

/-- The entries that stay after an access to a function of the given size. -/
def survivors (p : Scratchpad) (kind : SetKind) (s : EntrySet) (address size : Int) :
    Analysis EntrySet :=
  match s.entry? address with
  | none => do
    Analysis.note .debug .scratchpad ("adding " ++ hex8 address ++ " to " ++ kind.word ++ " set")
    Analysis.collect (p.shifted size) s
  | some hit => do
    Analysis.note .debug .scratchpad ("disp hit, moving " ++ hex8 address ++ " in " ++ kind.word ++
      " set to front.")
    Analysis.collect (p.moved kind hit size) (s.without address)

/-- Reports a set. -/
def reportSet (p : Scratchpad) (kind : SetKind) (s : EntrySet) : Analysis Unit := do
  let text ← p.setText s
  Analysis.note .debug .scratchpad ("Abstract " ++ kind.title ++ " functions are: " ++ text)

/-- A set after an access to a function of the given size. -/
def accessed (p : Scratchpad) (kind : SetKind) (s : EntrySet) (address size : Int) :
    Analysis EntrySet := do
  let kept ← p.survivors kind s address size
  let result := EntrySet.sorted (kept ++ [⟨address, 0⟩])
  Analysis.inDetail do
    p.reportSet kind result
    let used ← p.occupied result
    Analysis.note .debug .scratchpad ("used size is: " ++ decimal used ++ " memory size is: " ++
      decimal p.capacity ++ " bytes")
  return result

/-! ### Transfer functions -/

/-- An access to a function that is larger than the scratchpad. -/
def outsized (p : Scratchpad) (s : State) (address size : Int) : Analysis State := do
  let complaint := "function: " ++ hex8 address ++ " has size of " ++ decimal size ++
    " bytes, but memory has size of " ++ decimal p.capacity ++ " bytes"
  if p.geometry.ignoreOutsized then
    Analysis.note .warning .scratchpad (complaint ++ " - ignoring it.")
    Analysis.count s.usage
    return s
  else
    Analysis.note .error .scratchpad (complaint ++ "!!")
    Analysis.fail (.outsizedFunction address size p.capacity)

/-- The effect of an access. -/
def access (p : Scratchpad) (s : State) (address : Int) : Analysis State := do
  Analysis.note .debug .scratchpad
    ("Updating memory sets for function address: " ++ hex8 address)
  let size ← p.room address
  if size > p.capacity then p.outsized s address size
  else
    let must ← p.accessed .must s.must address size
    let may ← p.accessed .may s.may address size
    let next : State := ⟨must, may, s.capacityOr p.capacity⟩
    Analysis.count next.usage
    return next

/-- The join of two states. -/
def merge (p : Scratchpad) (s t : State) : Except Fault State := do
  let must ← s.must.joinMust t.must
  let may ← s.may.joinMay t.may
  return ⟨must, may, s.capacityOr p.capacity⟩

/-- The join of two states, with its result in the journal. -/
def joinTwo (p : Scratchpad) (s t : State) : Analysis State := do
  let joined ← Analysis.ofExcept (p.merge s t)
  Analysis.inDetail do
    p.reportSet .must joined.must
    p.reportSet .may joined.may
  return joined

end Scratchpad

end Residency
