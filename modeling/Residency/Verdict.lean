/-
Residency/Verdict.lean

Verdicts on accesses.  An access is always a hit if MUST holds the address, always a miss
if MAY does not, and not classified otherwise.  In a sequence each access is judged in the
state that the accesses before it leave.
-/
import Residency.Policy.Basic

namespace Residency

open Text (hex8)

/-- What is known about an access. -/
inductive Verdict where
  | alwaysHit
  | alwaysMiss
  | notClassified
deriving DecidableEq, Repr

/-- The words for a verdict. -/
def Verdict.words : Verdict → String
  | alwaysHit => "always hit"
  | alwaysMiss => "always miss"
  | notClassified => "not classified"

/-- The verdict on an access in a state. -/
def State.verdict (s : State) (address : Int) : Verdict :=
  if s.must.holds address then .alwaysHit
  else if s.may.holds address then .notClassified
  else .alwaysMiss

/-- The verdicts on a sequence of accesses, and the state that it leaves. -/
structure Summary where
  accesses : List (Int × Verdict)
  final : State
deriving DecidableEq, Repr

/-- The number of accesses with the given verdict. -/
def Summary.count (s : Summary) (v : Verdict) : Nat :=
  s.accesses.countP fun a => a.2 = v

namespace Policy

/-- Judges one access and carries it out. -/
def judge (p : Policy) (done : Summary) (address : Int) : Analysis Summary := do
  let verdict := done.final.verdict address
  Analysis.note .debug .verdict (hex8 address ++ ": " ++ verdict.words)
  let next ← p.access done.final address
  return ⟨done.accesses ++ [(address, verdict)], next⟩

/-- Judges accesses in order, starting in the given state. -/
def judgeAll (p : Policy) (s : State) (addresses : List Int) : Analysis Summary :=
  Analysis.follow p.judge ⟨[], s⟩ addresses

end Policy

end Residency
