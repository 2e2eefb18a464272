/-
Residency/Memory/Rounding.lean

Rounding to whole blocks.  `roundUp` goes to the next multiple of a block size, also for
negative numbers; `le_roundUp`, `roundUp_lt` and `dvd_roundUp` say that for a positive block
size it is the least multiple that is not below the given number.
-/
namespace Residency

/-- The least multiple of `block` that is not below `size`, for a positive `block`. -/
def roundUp (size block : Int) : Int :=
  (size + block - 1).fdiv block * block

/-- Rounding up; there are no blocks of size 0. -/
def roundUp? (size block : Int) : Option Int :=
  if block = 0 then none else some (roundUp size block)

/-- The result is a multiple of the block size. -/
theorem dvd_roundUp (size block : Int) : block ∣ roundUp size block :=
  Int.dvd_mul_left _ block

/-- The result is not below the number. -/
theorem le_roundUp {block : Int} (h : 0 < block) (size : Int) : size ≤ roundUp size block := by
  have hdiv := Int.mul_fdiv_add_fmod (size + block - 1) block
  have hmod := Int.fmod_lt_of_pos (size + block - 1) h
  have hcomm := Int.mul_comm block ((size + block - 1).fdiv block)
  unfold roundUp
  omega

/-- The result is less than a block above the number. -/
theorem roundUp_lt {block : Int} (h : 0 < block) (size : Int) :
    roundUp size block < size + block := by
  have hdiv := Int.mul_fdiv_add_fmod (size + block - 1) block
  have hmod := Int.fmod_nonneg_of_pos (size + block - 1) h
  have hcomm := Int.mul_comm block ((size + block - 1).fdiv block)
  unfold roundUp
  omega

end Residency
