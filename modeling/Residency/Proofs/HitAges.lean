/-
Residency/Proofs/HitAges.lean

The rule for hits in a scratchpad as one formula for each set.  The rule looks at whether `g`
overlaps the bytes of the function `f` that is hit, lies above them or lies below.  The pieces
fit together:

    MUST   max (age g) (min (age g + size f) (size f + max (age f - size g) 0))
    MAY    min (age g + size f) (max (age g) (age f + size f))

(`agedByHit_must_eq`, `agedByHit_may_eq`).  In this form the rule is put together from `max`, `min`
and sums, which all preserve the order, so that it does so across the borders of its cases
(`agedByHit_mono`), and the bounds of the new age can be read off.  In particular a hit in MUST
moves no entry further down than a miss would (`Scratchpad.hit_ages`).
-/
import Residency.Proofs.Packing

namespace Residency

namespace Scratchpad

variable {p : Scratchpad} {kind : SetKind} {t : Journal}

section

variable {ageF ageF' sizeF ageG ageG' sizeG : Int}

/-- The new age of a MUST entry on a hit, as a formula in the ages and sizes. -/
theorem agedByHit_must_eq (hageF : 0 ≤ ageF) (hF : 0 < sizeF) (hageG : 0 ≤ ageG) (hG : 0 < sizeG) :
    agedByHit .must ageF sizeF ageG sizeG =
      max ageG (min (ageG + sizeF) (sizeF + max (ageF - sizeG) 0)) := by
  rw [agedByHit]
  split
  · rename_i hover
    rw [overlaps_iff] at hover
    -- `f` begins before the end of `g`, so `g` is not pushed further than by the size of `f`
    have hpush : sizeF + max (ageF - sizeG) 0 ≤ ageG + sizeF := by omega
    rw [min_eq_right hpush]
    rfl
  · rename_i hover
    rw [overlaps_iff] at hover
    split
    · -- above
      have hpush : ageG + sizeF ≤ sizeF + max (ageF - sizeG) 0 := by omega
      rw [min_eq_left hpush, max_eq_right (by omega)]
    · -- below
      have hstay : sizeF + max (ageF - sizeG) 0 ≤ ageG := by omega
      rw [max_eq_left ((min_le_right _ _).trans hstay)]

/-- The new age of a MAY entry on a hit, as a formula in the ages and sizes. -/
theorem agedByHit_may_eq (hF : 0 < sizeF) (hG : 0 < sizeG) :
    agedByHit .may ageF sizeF ageG sizeG = min (ageG + sizeF) (max ageG (ageF + sizeF)) := by
  rw [agedByHit]
  split
  · rename_i hover
    rw [overlaps_iff] at hover
    rw [max_eq_right hover.2.le]
    show min ageF ageG + sizeF = min (ageG + sizeF) (ageF + sizeF)
    omega
  · rename_i hover
    rw [overlaps_iff] at hover
    split
    · -- above
      rw [max_eq_right (by omega), min_eq_left (by omega)]
    · -- below
      rw [max_eq_left (by omega), min_eq_right (by omega)]

/-- Younger functions stay younger, whether they overlap, lie above or lie below. -/
theorem agedByHit_mono (hF : 0 < sizeF) (hG : 0 < sizeG) (hageF : 0 ≤ ageF') (hageG : 0 ≤ ageG')
    (hleF : ageF' ≤ ageF) (hleG : ageG' ≤ ageG) (kind : SetKind) :
    agedByHit kind ageF' sizeF ageG' sizeG ≤ agedByHit kind ageF sizeF ageG sizeG := by
  cases kind with
  | must =>
    rw [agedByHit_must_eq hageF hF hageG hG,
      agedByHit_must_eq (hageF.trans hleF) hF (hageG.trans hleG) hG]
    exact max_le_max hleG (min_le_min (by omega) (by omega))
  | may =>
    rw [agedByHit_may_eq hF hG, agedByHit_may_eq hF hG]
    exact min_le_min (by omega) (max_le_max hleG (by omega))

/-- No entry comes to lie on `f` or further up than it was, and none moves by more than `f` has
bytes. -/
theorem agedByHit_bounds (hageF : 0 ≤ ageF) (hF : 0 < sizeF) (hageG : 0 ≤ ageG) (hG : 0 < sizeG)
    (kind : SetKind) : max ageG sizeF ≤ agedByHit kind ageF sizeF ageG sizeG ∧
      agedByHit kind ageF sizeF ageG sizeG ≤ ageG + sizeF := by
  cases kind with
  | must =>
    rw [agedByHit_must_eq hageF hF hageG hG]
    omega
  | may =>
    rw [agedByHit_may_eq hF hG]
    omega

end

/-! ### Entries that stay -/

section

variable {e e' f : Entry} {sizeF : Int}

/-- An entry is placed if and only if it ends within the memory. -/
theorem placed_eq_some_iff {age : Int} : p.placed age e = some e' ↔
    e'.age + p.bytesOf e.address ≤ p.capacity ∧ e' = ⟨e.address, age⟩ := by
  rw [placed, Option.ite_none_right_eq_some, Option.some.injEq]
  constructor
  · rintro ⟨hfit, rfl⟩
    exact ⟨hfit, rfl⟩
  · rintro ⟨hfit, rfl⟩
    exact ⟨hfit, rfl⟩

/-- On a hit an entry stays exactly if it still fits, at the age that the hit gives it. -/
theorem moved_eq_some_iff : (p.moved kind f sizeF e t).result = .ok (some e') ↔
    0 < p.bytesOf e.address ∧ e'.age + p.bytesOf e.address ≤ p.capacity ∧
      e' = ⟨e.address, agedByHit kind f.age sizeF e.age (p.bytesOf e.address)⟩ := by
  constructor
  · intro h
    obtain ⟨hplaced, hpos⟩ := moved_eq_ok h
    exact ⟨hpos, placed_eq_some_iff.1 hplaced.symm⟩
  · rintro ⟨hpos, hfit, rfl⟩
    refine Analysis.result_bind_eq_ok.2 ⟨_, room_of_pos hpos t, ?_⟩
    dsimp only at hfit ⊢
    rw [if_neg (Int.not_lt.2 hfit)]
    rfl

/-- On a miss an entry stays exactly if it still fits behind the new function. -/
theorem shifted_eq_some_iff : (p.shifted sizeF e t).result = .ok (some e') ↔
    0 < p.bytesOf e.address ∧ e'.age + p.bytesOf e.address ≤ p.capacity ∧
      e' = ⟨e.address, e.age + sizeF⟩ := by
  constructor
  · intro h
    obtain ⟨hplaced, hpos⟩ := shifted_eq_ok h
    exact ⟨hpos, placed_eq_some_iff.1 hplaced.symm⟩
  · rintro ⟨hpos, hfit, rfl⟩
    refine Analysis.result_bind_eq_ok.2 ⟨_, room_of_pos hpos t, ?_⟩
    dsimp only at hfit ⊢
    rw [if_neg (Int.not_lt.2 hfit)]
    rfl

end

/-- **Hits in closed form.**  For all ages and all sizes of the function `f` that is hit and of
another function `g`, the new age of `g` is one formula in each set.  It preserves the order of
both ages, it lies between the old age or the size of `f`, whichever is larger, and the age after
a miss.  It is the age at which a scratchpad keeps the entry, and in MUST an entry that a miss
would keep is kept by a hit, no further down. -/
theorem hit_ages (ageF sizeF ageG sizeG : Int) (hageF : 0 ≤ ageF) (hsizeF : 1 ≤ sizeF)
    (hageG : 0 ≤ ageG) (hsizeG : 1 ≤ sizeG) :
    agedByHit .must ageF sizeF ageG sizeG =
      max ageG (min (ageG + sizeF) (sizeF + max (ageF - sizeG) 0)) ∧
    agedByHit .may ageF sizeF ageG sizeG = min (ageG + sizeF) (max ageG (ageF + sizeF)) ∧
    (∀ kind, ∀ ageF' ≥ ageF, ∀ ageG' ≥ ageG,
      agedByHit kind ageF sizeF ageG sizeG ≤ agedByHit kind ageF' sizeF ageG' sizeG) ∧
    (∀ kind, max ageG sizeF ≤ agedByHit kind ageF sizeF ageG sizeG ∧
      agedByHit kind ageF sizeF ageG sizeG ≤ ageG + sizeF) ∧
    ∀ (p : Scratchpad) (t : Journal) (a b : Int), p.bytesOf b = sizeG →
      (∀ kind e, (p.moved kind ⟨a, ageF⟩ sizeF ⟨b, ageG⟩ t).result = .ok (some e) ↔
        e = ⟨b, agedByHit kind ageF sizeF ageG sizeG⟩ ∧ e.age + sizeG ≤ p.capacity) ∧
      ∀ e, (p.shifted sizeF ⟨b, ageG⟩ t).result = .ok (some e) →
        ∃ e', (p.moved .must ⟨a, ageF⟩ sizeF ⟨b, ageG⟩ t).result = .ok (some e') ∧
          e'.age ≤ e.age := by
  have hF : 0 < sizeF := hsizeF
  have hG : 0 < sizeG := hsizeG
  have hbounds := agedByHit_bounds hageF hF hageG hG
  refine ⟨agedByHit_must_eq hageF hF hageG hG, agedByHit_may_eq hF hG, ?_, hbounds, ?_⟩
  · intro kind ageF' hF' ageG' hG'
    exact agedByHit_mono hF hG hageF hageG hF' hG' kind
  · rintro p t a b rfl
    have hmoved : ∀ kind e, (p.moved kind ⟨a, ageF⟩ sizeF ⟨b, ageG⟩ t).result = .ok (some e) ↔
        e = ⟨b, agedByHit kind ageF sizeF ageG (p.bytesOf b)⟩ ∧
          e.age + p.bytesOf b ≤ p.capacity := by
      intro kind e
      rw [moved_eq_some_iff]
      exact ⟨fun h => ⟨h.2.2, h.2.1⟩, fun h => ⟨hG, h.2, h.1⟩⟩
    refine ⟨hmoved, fun e he => ?_⟩
    obtain ⟨-, hfit, rfl⟩ := shifted_eq_some_iff.1 he
    have hle := (hbounds .must).2
    refine ⟨_, (hmoved .must _).2 ⟨rfl, ?_⟩, hle⟩
    exact (Int.add_le_add_right hle _).trans hfit

-- The two functions overlap, as they may after a join.  The hit moves `g` from 4 to 12 in MUST and
-- to 16 in MAY, where a miss would have moved it as well.
theorem hit_ages_overlapping :
    overlaps 8 12 4 12 = true ∧
    agedByHit .must 8 12 4 12 = max 4 (min (4 + 12) (12 + max (8 - 12) 0)) ∧
    agedByHit .may 8 12 4 12 = min (4 + 12) (max 4 (8 + 12)) ∧
    agedByHit .must 8 12 4 12 = 12 ∧ agedByHit .may 8 12 4 12 = 16 := by
  obtain ⟨hmust, hmay, -⟩ := hit_ages 8 12 4 12 (by decide) (by decide) (by decide) (by decide)
  exact ⟨rfl, hmust, hmay, hmust, hmay⟩

end Scratchpad

end Residency
