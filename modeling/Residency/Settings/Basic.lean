/-
Residency/Settings/Basic.lean

Settings: the description of the instruction memory for one analysis, as read from options.
The type and the size of the memory must be given; everything else has a default.  Options
that are not about the memory are passed through.

`cacheGeometry` and `scratchpadGeometry` check that the numbers describe a memory.
-/
import Residency.Settings.Options
import Residency.Memory.CacheGeometry
import Residency.Memory.ScratchpadGeometry

namespace Residency

open Text (decimal quoted)

/-- Reads the word for a memory type, in any letter case. -/
def MemoryType.ofText (text : String) : Except Fault MemoryType :=
  let word := String.ofList (Text.upper (Text.trim text.toList))
  match MemoryType.all.find? fun m => m.word == word with
  | some m => .ok m
  | none => .error (.memoryType text)

/-- Reads the word for a policy, in any letter case. -/
def PolicyKind.ofText (text : String) : Except Fault PolicyKind :=
  let word := String.ofList (Text.upper (Text.trim text.toList))
  match PolicyKind.all.find? fun p => p.word == word with
  | some p => .ok p
  | none => .error (.policyKind text)

/-- The description of an instruction memory. -/
structure Settings where
  memory : MemoryType
  /-- The capacity in bytes. -/
  size : Int
  policy : PolicyKind
  /-- The size of a cache line in bytes. -/
  lineSize : Int
  /-- The size of a scratchpad block in bytes. -/
  blockSize : Int
  /-- Are functions that are larger than the scratchpad left outside? -/
  ignoreOutsized : Bool
  /-- The options that are not about the memory. -/
  extra : Options
deriving DecidableEq, Repr

namespace Settings

/-! ### Keys -/

def memoryTypeKey : String := "memory_type"

def policyKey : String := "memory_replacement_policy"

def sizeKey : String := "memory_size"

def lineSizeKey : String := "cache_line_size"

def blockSizeKey : String := "disp_block_size"

def ignoreOutsizedKey : String := "memory_disp_ignore_outsized_functions"

/-- The keys that are about the memory. -/
def ownKeys : List String :=
  [memoryTypeKey, policyKey, sizeKey, lineSizeKey, blockSizeKey, ignoreOutsizedKey]

/-! ### Reading -/

/-- The size of a cache line where none is given. -/
def defaultLineSize : Int := 16

/-- The size of a scratchpad block where none is given. -/
def defaultBlockSize : Int := 4

/-- The options that are not about the memory. -/
def extraOptions (o : Options) : Options :=
  o.filter fun p => !ownKeys.contains p.1

/-- Reads settings from options. -/
def read (o : Options) : Except Fault Settings := do
  let memory ← MemoryType.ofText (← o.mandatory memoryTypeKey)
  let size ← Options.integer sizeKey (← o.mandatory sizeKey)
  let policy ← o.orDefault policyKey .lru PolicyKind.ofText
  let lineSize ← o.orDefault lineSizeKey defaultLineSize (Options.integer lineSizeKey)
  let blockSize ← o.orDefault blockSizeKey defaultBlockSize (Options.integer blockSizeKey)
  let ignoreOutsized ←
    o.orDefault ignoreOutsizedKey false (Options.boolean ignoreOutsizedKey)
  return { memory, size, policy, lineSize, blockSize, ignoreOutsized, extra := extraOptions o }

/-- Reads settings from options and reports what is ignored and what was found. -/
def ofOptions (o : Options) : Analysis Settings := do
  (extraOptions o).forM fun p =>
    Analysis.note .debug .settings ("ignoring unknown option " ++ quoted p.1)
  let s ← Analysis.ofExcept (read o)
  Analysis.note .info .settings ("memory: " ++ s.memory.word ++ " " ++ s.policy.word ++ ", " ++
    decimal s.size ++ " bytes")
  return s

/-- Reads settings from a text. -/
def ofText (text source : String) : Analysis Settings := do
  ofOptions (← Options.parse text source)

/-! ### Geometry -/

/-- The cache that the settings describe. -/
def cacheGeometry (s : Settings) : Analysis CacheGeometry :=
  match s.memory with
  | .cache => CacheGeometry.make s.size s.lineSize none none s.policy
  | type => Analysis.fail (.notCacheSettings type)

/-- The scratchpad that the settings describe. -/
def scratchpadGeometry (s : Settings) : Analysis ScratchpadGeometry :=
  match s.memory with
  | .scratchpad => ScratchpadGeometry.make s.size s.blockSize s.ignoreOutsized s.policy
  | type => Analysis.fail (.notScratchpadSettings type)

end Settings

end Residency
