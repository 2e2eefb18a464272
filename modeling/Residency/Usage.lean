/-
Residency/Usage.lean

Usage: how much work and storage an analysis takes.  Each abstract state that is produced
is counted once, with the number of its representations, the bytes it is estimated to
occupy and the addresses it holds.  Counts add up, so the usage of a computation is the
sum of the usage of its parts.
-/
namespace Residency

/-- Counters over the states that were produced. -/
structure Usage where
  /-- The number of states. -/
  states : Int
  /-- The number of sets they consist of. -/
  representations : Int
  /-- The bytes they are estimated to occupy. -/
  bytes : Int
  /-- The addresses they hold. -/
  references : Int
deriving DecidableEq, Repr

namespace Usage

/-- Nothing was produced. -/
def zero : Usage :=
  ⟨0, 0, 0, 0⟩

/-- The usage of two computations together. -/
def add (u v : Usage) : Usage :=
  ⟨u.states + v.states, u.representations + v.representations, u.bytes + v.bytes,
    u.references + v.references⟩

instance : Add Usage := ⟨add⟩

/-- One state with the given counts. -/
def oneState (representations bytes references : Int) : Usage :=
  ⟨1, representations, bytes, references⟩

@[ext] theorem ext {u v : Usage} (h₁ : u.states = v.states)
    (h₂ : u.representations = v.representations) (h₃ : u.bytes = v.bytes)
    (h₄ : u.references = v.references) : u = v := by
  cases u; cases v; simp_all

@[simp] theorem states_add (u v : Usage) : (u + v).states = u.states + v.states := rfl

@[simp] theorem representations_add (u v : Usage) :
    (u + v).representations = u.representations + v.representations := rfl

@[simp] theorem bytes_add (u v : Usage) : (u + v).bytes = u.bytes + v.bytes := rfl

@[simp] theorem references_add (u v : Usage) :
    (u + v).references = u.references + v.references := rfl

@[simp] theorem zero_add (u : Usage) : zero + u = u := by
  ext <;> simp [zero]

@[simp] theorem add_zero (u : Usage) : u + zero = u := by
  ext <;> simp [zero]

theorem add_assoc (u v w : Usage) : u + v + w = u + (v + w) := by
  ext <;> simp [Int.add_assoc]

end Usage

end Residency
