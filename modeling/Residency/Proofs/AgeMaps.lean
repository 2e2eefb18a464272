/-
Residency/Proofs/AgeMaps.lean

Sets of entries as maps from addresses to ages.  An address that a set does not hold counts
as infinitely old there (`EntrySet.ageOf`), so that ages and absence are in one linear
order:

    s.Within t   ↔   t.ageOf a ≤ s.ageOf a for all a
    joins        MUST   max (s.ageOf a) (t.ageOf a)
                 MAY    min (s.ageOf a) (t.ageOf a)

An access gives each address its new age as long as the address fits there, and `⊤`
otherwise (`upTo`).
-/
import Mathlib.Order.WithBot
import Residency.Proofs.RegularStates

namespace Residency

/-- An age up to the last one that is left, and `⊤` beyond. -/
def upTo (last : Int) : WithTop Int → WithTop Int
  | ⊤ => ⊤
  | (x : Int) => if x ≤ last then x else ⊤

section

variable {last last' x : Int}

theorem upTo_of_le (h : x ≤ last) : upTo last x = x :=
  if_pos h

theorem upTo_of_lt (h : last < x) : upTo last x = ⊤ :=
  if_neg (Int.not_le.2 h)

/-- Only an age within the bound is kept. -/
theorem upTo_eq_coe_iff {k : WithTop Int} : upTo last k = x ↔ k = x ∧ x ≤ last := by
  cases k with
  | top => simp [upTo]
  | coe k =>
    by_cases hk : k ≤ last
    · rw [upTo_of_le hk, WithTop.coe_inj]
      omega
    · rw [upTo_of_lt (Int.not_le.1 hk), WithTop.coe_inj]
      exact ⟨fun h => absurd h WithTop.top_ne_coe, fun h => absurd h.2 (by omega)⟩

/-- An age that is lost was beyond the bound. -/
theorem lt_of_upTo_eq_top (h : upTo last x = ⊤) : last < x := by
  by_contra hle
  rw [upTo_of_le (Int.not_lt.1 hle)] at h
  exact WithTop.coe_ne_top h

/-- Cutting off keeps the order of ages. -/
theorem monotone_upTo (last : Int) : Monotone (upTo last) := by
  intro x y hxy
  cases y with
  | top => exact le_top
  | coe y =>
    cases x with
    | top => exact absurd (top_le_iff.1 hxy) (WithTop.coe_ne_top)
    | coe x =>
      have hle := WithTop.coe_le_coe.1 hxy
      by_cases hy : y ≤ last
      · rw [upTo_of_le hy, upTo_of_le (hle.trans hy)]
        exact hxy
      · rw [upTo_of_lt (Int.not_le.1 hy)]
        exact le_top

/-- Of two bounds only the smaller one counts. -/
theorem upTo_upTo (h : last ≤ last') (x : WithTop Int) :
    upTo last (upTo last' x) = upTo last x := by
  cases x with
  | top => rfl
  | coe x =>
    by_cases hx : x ≤ last'
    · rw [upTo_of_le hx]
    · rw [upTo_of_lt (Int.not_le.1 hx), upTo_of_lt (by omega)]
      rfl

end

namespace EntrySet

variable {s t : EntrySet} {a b x : Int} {e : Entry} {kind : SetKind}

/-- The age of an address in a set, `⊤` if the set does not hold it. -/
def ageOf (s : EntrySet) (a : Int) : WithTop Int :=
  (s.entry? a).elim ⊤ fun e => e.age

/-! ### Entries -/

/-- An address has no age if and only if it is not in the set. -/
theorem ageOf_eq_top_iff : s.ageOf a = ⊤ ↔ a ∉ s.addresses := by
  rw [← entry?_eq_none_iff, ageOf]
  cases s.entry? a with
  | none => simp
  | some e => simp

/-- In a distinct set an address has the age of its entry. -/
theorem ageOf_eq_coe_iff (hs : s.Distinct) : s.ageOf a = x ↔ (⟨a, x⟩ : Entry) ∈ s := by
  rw [ageOf]
  cases h : s.entry? a with
  | none =>
    have hnot : (⟨a, x⟩ : Entry) ∉ s := fun hmem =>
      entry?_eq_none_iff.1 h (address_mem_addresses hmem)
    simp [hnot]
  | some e =>
    obtain rfl := entry?_address h
    show ((e.age : Int) : WithTop Int) = x ↔ _
    rw [WithTop.coe_inj]
    constructor
    · rintro rfl
      exact entry?_mem h
    · intro hmem
      rw [hs.eq_of_address (entry?_mem h) hmem rfl]

theorem entry?_of_ageOf_eq_top (h : s.ageOf a = ⊤) : s.entry? a = none :=
  entry?_eq_none_iff.2 (ageOf_eq_top_iff.1 h)

theorem exists_entry?_of_ageOf (h : s.ageOf a = x) : ∃ e, s.entry? a = some e ∧ e.age = x := by
  rw [ageOf] at h
  cases hentry : s.entry? a with
  | none =>
    rw [hentry] at h
    exact absurd h WithTop.top_ne_coe
  | some e =>
    rw [hentry] at h
    exact ⟨e, rfl, WithTop.coe_inj.1 h⟩

/-- A distinct set is given by the ages of its addresses. -/
theorem mem_iff_ageOf (hs : s.Distinct) : e ∈ s ↔ s.ageOf e.address = e.age :=
  (ageOf_eq_coe_iff hs).symm

/-- Sorting changes no age. -/
theorem ageOf_sorted (hs : s.Distinct) (a : Int) : s.sorted.ageOf a = s.ageOf a := by
  cases h : s.ageOf a with
  | top =>
    rw [ageOf_eq_top_iff, addresses_sorted]
    exact ageOf_eq_top_iff.1 h
  | coe x =>
    rw [ageOf_eq_coe_iff (distinct_sorted.2 hs), mem_sorted]
    exact (ageOf_eq_coe_iff hs).1 h

/-! ### Joins -/

/-- Where a set lies within another, the other has no larger age at any address. -/
theorem Within.ageOf_le (h : s.Within t) (hs : s.Distinct) (ht : t.Distinct) (a : Int) :
    t.ageOf a ≤ s.ageOf a := by
  cases hx : s.ageOf a with
  | top => exact le_top
  | coe x =>
    obtain ⟨⟨b, y⟩, hf, rfl, hle⟩ := h ⟨a, x⟩ ((ageOf_eq_coe_iff hs).1 hx)
    rw [(ageOf_eq_coe_iff ht).2 hf]
    exact WithTop.coe_le_coe.2 hle

/-- The age of an address in a join, from its ages in the two sets. -/
def joinedAge : SetKind → WithTop Int → WithTop Int → WithTop Int
  | .must => max
  | .may => min

/-- A monotone change of ages can be made before a join or after it. -/
theorem map_joinedAge {f : WithTop Int → WithTop Int} (hf : Monotone f) (kind : SetKind)
    (x y : WithTop Int) : f (joinedAge kind x y) = joinedAge kind (f x) (f y) := by
  cases kind with
  | must => exact hf.map_max
  | may => exact hf.map_min

/-- A join invents no ages: each comes from one of the sets. -/
theorem ageOf_eq_or_of_mem_joined (hs : s.Distinct) (ht : t.Distinct)
    (hx : (⟨a, x⟩ : Entry) ∈ joined kind s t) : s.ageOf a = x ∨ t.ageOf a = x := by
  rw [ageOf_eq_coe_iff hs, ageOf_eq_coe_iff ht]
  exact mem_or_mem_of_mem_joined hx

/-- Joining sets joins their ages, address by address. -/
theorem ageOf_joined (kind : SetKind) (hs : s.Distinct) (ht : t.Distinct) (a : Int) :
    (joined kind s t).ageOf a = joinedAge kind (s.ageOf a) (t.ageOf a) := by
  have hd := distinct_joined kind hs ht
  cases kind with
  | must =>
    show (common s t).ageOf a = max (s.ageOf a) (t.ageOf a)
    apply le_antisymm
    · cases h : (common s t).ageOf a with
      | top =>
        -- One of the two sets lacks the address.
        have hnot := ageOf_eq_top_iff.1 h
        rw [mem_addresses_common, not_and_or, ← ageOf_eq_top_iff, ← ageOf_eq_top_iff] at hnot
        rcases hnot with hs | ht
        · rw [hs]
          exact le_max_left _ _
        · rw [ht]
          exact le_max_right _ _
      | coe x =>
        have hmem : (⟨a, x⟩ : Entry) ∈ joined .must s t := (ageOf_eq_coe_iff hd).1 h
        rcases ageOf_eq_or_of_mem_joined hs ht hmem with hs | ht
        · exact hs ▸ le_max_left _ _
        · exact ht ▸ le_max_right _ _
    · apply max_le
      · exact (common_within_left s t).ageOf_le hd hs a
      · exact (common_within_right s t).ageOf_le hd ht a
  | may =>
    show (merged s t).ageOf a = min (s.ageOf a) (t.ageOf a)
    apply le_antisymm
    · apply le_min
      · exact (within_merged_left s t).ageOf_le hs hd a
      · exact (within_merged_right s ht).ageOf_le ht hd a
    · cases h : (merged s t).ageOf a with
      | top => exact le_top
      | coe x =>
        have hmem : (⟨a, x⟩ : Entry) ∈ joined .may s t := (ageOf_eq_coe_iff hd).1 h
        rcases ageOf_eq_or_of_mem_joined hs ht hmem with hs | ht
        · exact hs ▸ min_le_left _ _
        · exact ht ▸ min_le_right _ _

/-! ### Accesses -/

section

variable {size : Int → Int} {room : Int} {age : Entry → Int}

/-- The address that is accessed is the youngest. -/
theorem ageOf_reloaded_self (hs : s.Distinct) :
    (reloaded size room age s a).ageOf a = (0 : Int) :=
  (ageOf_eq_coe_iff (distinct_reloaded hs)).2 (mem_reloaded.2 (.inl rfl))

theorem ageOf_reloaded_of_top (hb : b ≠ a) (h : s.ageOf b = ⊤) :
    (reloaded size room age s a).ageOf b = ⊤ := by
  rw [ageOf_eq_top_iff] at h ⊢
  intro hmem
  obtain ⟨e, he, heb⟩ := mem_addresses.1 hmem
  rcases mem_reloaded.1 he with rfl | ⟨f, hf, -, -, rfl⟩
  · exact hb heb.symm
  · exact h (mem_addresses.2 ⟨f, hf, heb⟩)

/-- The other addresses age as the model says and are dropped where they no longer fit. -/
theorem ageOf_reloaded_of_coe (hs : s.Distinct) (hb : b ≠ a) (h : s.ageOf b = x) :
    (reloaded size room age s a).ageOf b = upTo (room - size b) (age ⟨b, x⟩) := by
  have hmem := (ageOf_eq_coe_iff hs).1 h
  by_cases hfit : age ⟨b, x⟩ + size b ≤ room
  · rw [upTo_of_le (by omega), ageOf_eq_coe_iff (distinct_reloaded hs), mem_reloaded]
    exact .inr ⟨⟨b, x⟩, hmem, hb, hfit, rfl⟩
  · rw [upTo_of_lt (by omega), ageOf_eq_top_iff]
    intro hmem'
    obtain ⟨e, he, heb⟩ := mem_addresses.1 hmem'
    rcases mem_reloaded.1 he with rfl | ⟨f, hf, -, hf', rfl⟩
    · exact hb heb.symm
    · -- The address has one entry only, and that one did not fit.
      obtain rfl : f = ⟨b, x⟩ := hs.eq_of_address hf hmem heb
      exact hfit hf'

end

end EntrySet

/-! ### Joins of regular states -/

/-- On regular states the join of a policy joins ages address by address, in both sets. -/
theorem Policy.ageOf_joinTwo {p : Policy} {t : Journal} {s u joined : State}
    (hs : s.Regular p) (hu : u.Regular p) (h : (p.joinTwo s u t).result = .ok joined)
    (kind : SetKind) (a : Int) : (joined.entries kind).ageOf a =
      EntrySet.joinedAge kind ((s.entries kind).ageOf a) ((u.entries kind).ageOf a) := by
  rw [(joinTwo_cases hs hu h).1, EntrySet.ageOf_sorted, EntrySet.ageOf_joined]
  · exact hs.distinct kind
  · exact hu.distinct kind
  · exact EntrySet.distinct_joined kind (hs.distinct kind) (hu.distinct kind)

end Residency
