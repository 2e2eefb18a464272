/-
Residency/Policy/Selection.lean

The choice of a policy for a memory.  There are models for caches with direct mapping or
least-recently-used replacement, and for scratchpads with the latter; a scratchpad needs
the sizes of the functions.
-/
import Residency.Policy.Basic
import Residency.Settings.Basic

namespace Residency

/-- What a policy can be asked for. -/
inductive MemorySource where
  /-- The memory that settings describe. -/
  | settings (s : Settings)
  /-- A cache. -/
  | cache (g : CacheGeometry)
  /-- A scratchpad. -/
  | scratchpad (g : ScratchpadGeometry)
  /-- Something that describes no memory. -/
  | foreign (description : String)

namespace Policy

/-- The policy of a cache. -/
def ofCache (g : CacheGeometry) : Except Fault Policy :=
  match g.policy with
  | .lru => (LruCache.make g.lines).map .lruCache
  | .directMapped => (DirectMapped.make g.lines g.lineBits).map .directMapped
  | kind => .error (.unsupportedPolicy kind .cache)

/-- The policy of a scratchpad. -/
def ofScratchpad (g : ScratchpadGeometry) (functions : Option FunctionTable) :
    Except Fault Policy :=
  match g.policy, functions with
  | .lru, some table => .ok (.scratchpad ⟨g, table⟩)
  | .lru, none => .error .missingFunctionSizes
  | kind, _ => .error (.unsupportedPolicy kind .scratchpad)

/-- The policy of the memory that settings describe. -/
def ofSettings (s : Settings) (functions : Option FunctionTable) : Analysis Policy :=
  match s.memory with
  | .cache => do Analysis.ofExcept (ofCache (← s.cacheGeometry))
  | .scratchpad => do Analysis.ofExcept (ofScratchpad (← s.scratchpadGeometry) functions)

/-- The policy of a memory before it is reported. -/
def ofSource (source : MemorySource) (functions : Option FunctionTable) : Analysis Policy :=
  match source with
  | .settings s => ofSettings s functions
  | .cache g => Analysis.ofExcept (ofCache g)
  | .scratchpad g => Analysis.ofExcept (ofScratchpad g functions)
  | .foreign description => Analysis.fail (.foreignSource description)

/-- Chooses the policy of a memory. -/
def select (source : MemorySource) (functions : Option FunctionTable) : Analysis Policy := do
  let p ← ofSource source functions
  Analysis.note .info .selection ("using " ++ p.describe)
  return p

end Policy

end Residency
