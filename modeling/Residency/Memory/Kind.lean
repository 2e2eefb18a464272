/-
Residency/Memory/Kind.lean

The memories and replacement policies that can be named.  Only some pairs have a model;
the others are known so that asking for them is answered clearly.
-/
namespace Residency

/-- The kind of an on-chip instruction memory. -/
inductive MemoryType where
  /-- An instruction cache. -/
  | cache
  /-- A dynamic instruction scratchpad, which holds whole functions. -/
  | scratchpad
deriving DecidableEq, Repr

/-- The word for a memory type in settings and messages. -/
def MemoryType.word : MemoryType → String
  | .cache => "ICACHE"
  | .scratchpad => "DISP"

/-- All memory types. -/
def MemoryType.all : List MemoryType :=
  [.cache, .scratchpad]

/-- How a memory chooses what to evict. -/
inductive PolicyKind where
  | lru
  | directMapped
  | fifo
  | stack
deriving DecidableEq, Repr

/-- The word for a policy in settings and messages. -/
def PolicyKind.word : PolicyKind → String
  | .lru => "LRU"
  | .directMapped => "DIRECT_MAPPED"
  | .fifo => "FIFO"
  | .stack => "STACK"

/-- All policies. -/
def PolicyKind.all : List PolicyKind :=
  [.lru, .directMapped, .fifo, .stack]

end Residency
