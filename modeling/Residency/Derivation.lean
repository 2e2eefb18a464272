/-
Residency/Derivation.lean

Derivations: how a state comes about from blank states by accesses and joins.  A derivation
does not name a policy, so one derivation can be carried out with several of them.  Its
histories are the sequences of accesses that it merges: an access extends each of them, and
a join takes them together.
-/
import Residency.Policy.Basic

namespace Residency

/-- A way to arrive at a state. -/
inductive Derivation where
  | blank
  | access (d : Derivation) (address : Int)
  | join (d e : Derivation) (rest : List Derivation)

namespace Derivation

mutual

/-- The histories that a derivation merges. -/
def histories : Derivation → List (List Int)
  | blank => [[]]
  | access d address => d.histories.map (· ++ [address])
  | join d e rest => d.histories ++ e.histories ++ historiesOfAll rest

/-- The histories that several derivations merge. -/
def historiesOfAll : List Derivation → List (List Int)
  | [] => []
  | d :: rest => d.histories ++ historiesOfAll rest

end

mutual

/-- Carries out a derivation. -/
def state (p : Policy) : Derivation → Analysis State
  | blank => p.initial
  | access d address => do
    let s ← d.state p
    p.access s address
  | join d e rest => do
    let s ← d.state p
    let t ← e.state p
    let ss ← statesOfAll p rest
    p.join (s :: t :: ss)

/-- Carries out several derivations in order. -/
def statesOfAll (p : Policy) : List Derivation → Analysis (List State)
  | [] => pure []
  | d :: rest => do
    let s ← d.state p
    let ss ← statesOfAll p rest
    return s :: ss

end

/-- The derivation leads to the state. -/
def Yields (d : Derivation) (p : Policy) (s : State) : Prop :=
  ∃ t, (d.state p t).result = .ok s

end Derivation

/-- A state that some derivation leads to. -/
def Policy.Derivable (p : Policy) (s : State) : Prop :=
  ∃ d : Derivation, d.Yields p s

end Residency
