/-
Residency/Sorting.lean

Sorting by insertion.  `sortBy le` is stable, and a list that is sorted already is
traversed once.
-/
namespace Residency

variable {α : Type}

/-- Puts `a` in front of the first member of a list that it is not above. -/
def insertBy (le : α → α → Bool) (a : α) : List α → List α
  | [] => [a]
  | b :: l => if le a b then a :: b :: l else b :: insertBy le a l

/-- The members of a list in ascending order. -/
def sortBy (le : α → α → Bool) (l : List α) : List α :=
  l.foldr (insertBy le) []

@[simp] theorem mem_insertBy {le : α → α → Bool} {a x : α} {l : List α} :
    x ∈ insertBy le a l ↔ x = a ∨ x ∈ l := by
  induction l with
  | nil => simp [insertBy]
  | cons b l ih =>
    rw [insertBy]
    split
    · simp
    · simp only [List.mem_cons, ih]
      constructor <;> rintro (h | h | h) <;> simp [h]

@[simp] theorem mem_sortBy {le : α → α → Bool} {x : α} {l : List α} :
    x ∈ sortBy le l ↔ x ∈ l := by
  induction l with
  | nil => simp [sortBy]
  | cons b l ih =>
    show x ∈ insertBy le b (sortBy le l) ↔ _
    simp [ih]

end Residency
