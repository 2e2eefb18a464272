/-
Residency/Policy/Basic.lean

Policies: the models of instruction memories behind one interface.  A policy is a pair of
transfer functions on abstract states, `access` for an access on a single path and `join`
for the meeting of two or more paths.  A join of many states goes from left to right.
-/
import Residency.Policy.LruCache
import Residency.Policy.DirectMapped
import Residency.Policy.Scratchpad

namespace Residency

open Text (Phrase counted decimal)

/-- A memory with its replacement policy. -/
inductive Policy where
  | lruCache (c : LruCache)
  | directMapped (c : DirectMapped)
  | scratchpad (p : Scratchpad)

namespace Policy

/-- The capacity of the memory, in lines or bytes. -/
def capacity : Policy → Int
  | lruCache c => c.lines
  | directMapped c => c.lines
  | scratchpad p => p.capacity

/-- The short name of a policy. -/
def name : Policy → String
  | lruCache _ => "LRU"
  | directMapped _ => "DIRECT_MAPPED"
  | scratchpad _ => "LRU_DISP"

/-- The name of the model of a policy. -/
def model : Policy → String
  | lruCache _ => "LRUCachePolicy"
  | directMapped _ => "DirectMappedPolicy"
  | scratchpad _ => "LRUVariableSizePolicy"

/-- A policy as a programmer sees it. -/
def describe (p : Policy) : Phrase :=
  p.model ++ "(capacity=" ++ decimal p.capacity ++ ")"

/-- The part of the library that a policy reports for. -/
def component : Policy → Component
  | lruCache _ => .lruCache
  | directMapped _ => .directMapped
  | scratchpad _ => .scratchpad

/-- The text of a set. -/
def setText : Policy → EntrySet → Analysis String
  | scratchpad p, s => p.setText s
  | _, s => Analysis.write s.text

/-- The state in which nothing is resident. -/
def initial (p : Policy) : Analysis State := do
  Analysis.count (State.blank p.capacity).usage
  return State.blank p.capacity

/-- The effect of an access. -/
def access : Policy → State → Int → Analysis State
  | lruCache c => c.access
  | directMapped c => c.access
  | scratchpad p => p.access

/-- The effect of accesses in order. -/
def walk (p : Policy) (s : State) (addresses : List Int) : Analysis State :=
  Analysis.follow p.access s addresses

/-- The join of two states by the model. -/
def mergeTwo : Policy → State → State → Analysis State
  | lruCache c => c.joinTwo
  | directMapped c => c.joinTwo
  | scratchpad p => p.joinTwo

/-- Reports the sets of one kind that are to be joined. -/
def reportJoin (p : Policy) (kind : SetKind) (s t : State) : Analysis Unit := do
  let a ← p.setText (s.entries kind)
  let b ← p.setText (t.entries kind)
  Analysis.note .debug p.component ("Joining " ++ kind.word ++ " sets: A " ++ a ++ " B " ++ b)

/-- The join of two states. -/
def joinTwo (p : Policy) (s t : State) : Analysis State := do
  Analysis.inDetail do
    p.reportJoin .must s t
    p.reportJoin .may s t
  p.mergeTwo s t

/-- The join of two or more states, from left to right.  Only its final state is counted. -/
def join (p : Policy) : List State → Analysis State
  | s :: t :: rest => do
    if !rest.isEmpty then
      Analysis.note .debug .policy (counted (rest.length + 2) ++
        " mem sets, folding them pairwise from the left")
    let joined ← Analysis.follow p.joinTwo s (t :: rest)
    Analysis.count joined.usage
    return joined
  | ss => Analysis.fail (.joinArity ss.length)

end Policy

end Residency
