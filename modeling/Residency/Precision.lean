/-
Residency/Precision.lean

The precision order on states.  A state is at least as precise as another if it promises at
least as much: whatever the other has in MUST it has there too and no older, and whatever
it has in MAY the other has there too and no older.
-/
import Residency.State

namespace Residency

namespace EntrySet

/-- Every entry of `s` is in `t`, at the same age or a smaller one. -/
def Within (s t : EntrySet) : Prop :=
  ∀ e ∈ s, ∃ f ∈ t, f.address = e.address ∧ f.age ≤ e.age

/-- No address occurs twice. -/
def Distinct (s : EntrySet) : Prop :=
  s.addresses.Nodup

instance (s : EntrySet) : Decidable s.Distinct :=
  inferInstanceAs (Decidable s.addresses.Nodup)

/-- Each entry is in front of those that follow it. -/
def Ascending (s : EntrySet) : Prop :=
  s.Pairwise fun e f => e.age < f.age ∨ (e.age = f.age ∧ e.address < f.address)

theorem Within.refl (s : EntrySet) : s.Within s :=
  fun e he => ⟨e, he, rfl, Int.le_refl _⟩

theorem Within.trans {s t u : EntrySet} (h : s.Within t) (h' : t.Within u) : s.Within u := by
  intro e he
  obtain ⟨f, hf, hfe, hle⟩ := h e he
  obtain ⟨g, hg, hgf, hle'⟩ := h' f hf
  exact ⟨g, hg, hgf.trans hfe, Int.le_trans hle' hle⟩

end EntrySet

namespace State

/-- At least as precise as another state. -/
def Precise (s t : State) : Prop :=
  t.must.Within s.must ∧ s.may.Within t.may

theorem Precise.refl (s : State) : s.Precise s :=
  ⟨EntrySet.Within.refl _, EntrySet.Within.refl _⟩

theorem Precise.trans {s t u : State} (h : s.Precise t) (h' : t.Precise u) : s.Precise u :=
  ⟨h'.1.trans h.1, h.2.trans h'.2⟩

end State

end Residency
