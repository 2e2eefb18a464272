/-
Residency/FunctionTable/Basic.lean

Function tables: where the functions of a program start and how many bytes they have.  A
scratchpad loads functions in whole blocks, so the size of interest is the registered size
rounded up to the table's block size.

Registered sizes and the block size are positive and no address is registered twice; the
types carry the proofs.  Registering an address again replaces what was known of it.
-/
import Residency.Analysis
import Residency.Sorting
import Residency.Memory.Rounding

namespace Residency

open Text (Phrase counted decimal hex8)

/-- A function of a program. -/
structure RegisteredFunction where
  address : Int
  size : Int
  name : Option String
  size_pos : 0 < size

/-- The functions of a program by their first address. -/
structure FunctionTable where
  blockSize : Int
  functions : List RegisteredFunction
  blockSize_pos : 0 < blockSize
  nodup : (functions.map fun f => f.address).Nodup

namespace FunctionTable

/-- A table without functions. -/
def empty (blockSize : Int) : Except Fault FunctionTable :=
  if h : 0 < blockSize then .ok ⟨blockSize, [], h, List.nodup_nil⟩
  else refuse (.tableBlock blockSize)

/-- The function that starts at an address. -/
def function? (t : FunctionTable) (address : Int) : Option RegisteredFunction :=
  t.functions.find? fun f => f.address == address

/-- Does a function start at the address? -/
def contains (t : FunctionTable) (address : Int) : Bool :=
  t.functions.any fun f => f.address == address

/-- The number of functions. -/
def size (t : FunctionTable) : Nat :=
  t.functions.length

/-- `fs` with `f` in the place of the function that starts where `f` does, or at the end. -/
def put (f : RegisteredFunction) (fs : List RegisteredFunction) : List RegisteredFunction :=
  if fs.any fun g => g.address == f.address then
    fs.map fun g => if g.address = f.address then f else g
  else fs ++ [f]

/-- Putting a function repeats no address. -/
theorem nodup_put {f : RegisteredFunction} {fs : List RegisteredFunction}
    (h : (fs.map fun g => g.address).Nodup) : ((put f fs).map fun g => g.address).Nodup := by
  rw [put]
  split
  · have : (fs.map fun g => if g.address = f.address then f else g).map (fun g => g.address) =
        fs.map fun g => g.address := by
      rw [List.map_map]
      refine List.map_congr_left fun g _ => ?_
      by_cases hg : g.address = f.address <;> simp [hg]
    rwa [this]
  · rename_i hf
    simp only [List.any_eq_true, beq_iff_eq, not_exists, not_and] at hf
    rw [List.map_append, List.map_singleton, List.nodup_append]
    refine ⟨h, by simp, ?_⟩
    intro a ha b hb
    obtain ⟨g, hg, rfl⟩ := List.mem_map.1 ha
    obtain rfl := List.mem_singleton.1 hb
    exact hf g hg

/-- The table with a function added or replaced. -/
def insert (t : FunctionTable) (f : RegisteredFunction) : FunctionTable :=
  { t with functions := put f t.functions, nodup := nodup_put t.nodup }

/-- Registers a function; a second registration is reported and wins. -/
def add (t : FunctionTable) (address size : Int) (name : Option String) :
    Analysis FunctionTable := do
  if h : 0 < size then
    if t.contains address then
      Analysis.note .warning .functionTable ("function " ++ hex8 address ++
        " registered twice, keeping the new size " ++ decimal size)
    return t.insert ⟨address, size, name, h⟩
  else Analysis.fail (.functionSize address size)

/-- The size of a function as registered. -/
def exactSize (t : FunctionTable) (address : Int) : Analysis Int :=
  match t.function? address with
  | some f => pure f.size
  | none => do
    Analysis.note .error .functionTable
      ("No function found for address " ++ hex8 address ++ " ... stopping.")
    Analysis.fail (.unknownFunction address)

/-- The size of a function in whole blocks. -/
def roundedSize (t : FunctionTable) (address : Int) : Analysis Int := do
  let size ← t.exactSize address
  return roundUp size t.blockSize

/-- The name of a function, if it has one. -/
def label (t : FunctionTable) (address : Int) : Except Fault (Option String) :=
  match t.function? address with
  | some f => .ok f.name
  | none => refuse (.unknownFunction address)

/-- The functions in ascending order of addresses. -/
def ascending (t : FunctionTable) : List RegisteredFunction :=
  sortBy (fun f g => f.address ≤ g.address) t.functions

/-- A table as a programmer sees it. -/
def describe (t : FunctionTable) : Phrase :=
  "FunctionTable(" ++ counted t.size ++ " functions, block_size=" ++ decimal t.blockSize ++ ")"

end FunctionTable

end Residency
