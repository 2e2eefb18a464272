/-
Residency/Proofs/Layout.lean

The layout of a memory with least-recently-used replacement.  Laying contents out one after
the other gives every address its age, the total size of what was used more recently:

    laidOut size 0 [a, b, c]  =  ⟨a, 0⟩, ⟨b, size a⟩, ⟨c, size a + size b⟩

With size 1 everywhere ages are positions in a cache, with the sizes of functions they are
bytes of a scratchpad, so both memories share the theory of this file.

An access moves its address to the front.  `Resettled` says where another address goes: it
is pushed by the size of the accessed address if that came after it or was not there, and
it keeps its place if the accessed address came before it.  `mem_laidOut_moveToFront` says
that this is all that happens.  Cutting a layout where the memory ends commutes with laying
out (`laidOut_fitting`, `laidOut_take`), because what lies behind an address that does not
fit does not fit either.
-/
import Mathlib.Algebra.Order.BigOperators.Group.List
import Mathlib.Algebra.Ring.Int.Defs
import Residency.Concrete
import Residency.Proofs.EntrySets

namespace Residency

namespace Contents

variable {size : Int → Int} {top room a : Int} {c : Contents} {e : Entry}

/-! ### Laying out -/

/-- Laying out keeps the addresses in their order. -/
theorem addresses_laidOut (size : Int → Int) (top : Int) (c : Contents) :
    EntrySet.addresses (c.laidOut size top) = c := by
  induction c generalizing top with
  | nil => rfl
  | cons a c ih =>
    show a :: EntrySet.addresses (laidOut size (top + size a) c) = a :: c
    rw [ih]

/-- A layout of different addresses is distinct. -/
theorem distinct_laidOut (size : Int → Int) (top : Int) (hc : c.Nodup) :
    EntrySet.Distinct (c.laidOut size top) := by
  rw [EntrySet.Distinct, addresses_laidOut]
  exact hc

/-- What comes behind starts where the first part ends. -/
theorem laidOut_append (size : Int → Int) (top : Int) (c d : Contents) :
    laidOut size top (c ++ d) =
      laidOut size top c ++ laidOut size (top + (c.map size).sum) d := by
  induction c generalizing top with
  | nil => simp [laidOut]
  | cons a c ih =>
    rw [List.cons_append, laidOut, laidOut, ih, List.map_cons, List.sum_cons, Int.add_assoc]
    rfl

/-- A layout that starts later is the same layout moved down. -/
theorem laidOut_add (size : Int → Int) (top k : Int) (c : Contents) :
    laidOut size (top + k) c = (laidOut size top c).map fun e => ⟨e.address, e.age + k⟩ := by
  induction c generalizing top with
  | nil => rfl
  | cons a c ih =>
    rw [laidOut, laidOut, List.map_cons, ← ih, Int.add_right_comm]

/-- No entry starts before the layout. -/
theorem le_age_of_mem_laidOut (hsize : ∀ x, 0 ≤ size x) (he : e ∈ c.laidOut size top) :
    top ≤ e.age := by
  induction c generalizing top with
  | nil => cases he
  | cons a c ih =>
    rcases List.mem_cons.1 he with rfl | he
    · exact Int.le_refl _
    · have := ih he
      have := hsize a
      omega

/-- No entry ends behind the layout. -/
theorem age_add_le_of_mem_laidOut (hsize : ∀ x, 0 ≤ size x) (he : e ∈ c.laidOut size top) :
    e.age + size e.address ≤ top + (c.map size).sum := by
  induction c generalizing top with
  | nil => cases he
  | cons a c ih =>
    rw [List.map_cons, List.sum_cons]
    rcases List.mem_cons.1 he with rfl | he
    · have hsum : 0 ≤ (c.map size).sum := by
        refine List.sum_nonneg fun x hx => ?_
        obtain ⟨y, -, rfl⟩ := List.mem_map.1 hx
        exact hsize y
      show top + size a ≤ _
      omega
    · have := ih he
      omega

/-- The age of an address is the total size of the more recent ones. -/
theorem mem_laidOut_iff : e ∈ c.laidOut size top ↔
    ∃ newer older, c = newer ++ e.address :: older ∧ e.age = top + (newer.map size).sum := by
  constructor
  · intro he
    induction c generalizing top with
    | nil => cases he
    | cons a c ih =>
      rcases List.mem_cons.1 he with rfl | he
      · exact ⟨[], c, rfl, by simp⟩
      · obtain ⟨newer, older, hc, hage⟩ := ih he
        refine ⟨a :: newer, older, by rw [hc, List.cons_append], ?_⟩
        rw [hage, List.map_cons, List.sum_cons, Int.add_assoc]
  · rintro ⟨newer, older, hc, hage⟩
    rw [hc, laidOut_append]
    refine List.mem_append_right _ (List.mem_cons.2 (.inl ?_))
    rw [← hage]

/-! ### Moving to the front -/

/-- Moving an address to the front repeats none. -/
theorem nodup_moveToFront (a : Int) (hc : c.Nodup) : (c.moveToFront a).Nodup := by
  rw [moveToFront, List.nodup_cons]
  exact ⟨by simp, hc.filter _⟩

theorem filter_ne_eq_self (h : a ∉ c) : c.filter (· != a) = c := by
  rw [List.filter_eq_self]
  intro b hb
  rw [bne_iff_ne]
  rintro rfl
  exact h hb

/-- Where the address of `f` goes when `a` moves to the front of the layout `l`. -/
inductive Resettled (size : Int → Int) (l : List Entry) (a : Int) (f : Entry) : Int → Prop
  /-- `a` is not there, or it comes after `f`. -/
  | pushed (h : ∀ g ∈ l, g.address = a → f.age + size f.address ≤ g.age) :
      Resettled size l a f (f.age + size a)
  /-- `a` comes before `f`. -/
  | kept {g : Entry} (hg : g ∈ l) (ha : g.address = a) (h : g.age + size a ≤ f.age) :
      Resettled size l a f f.age

/-- The layout around the address that is accessed, before and after the access. -/
theorem laidOut_around (size : Int → Int) {newer older : Contents}
    (hc : (newer ++ a :: older).Nodup) :
    laidOut size 0 (newer ++ a :: older) = laidOut size 0 newer ++
        ⟨a, (newer.map size).sum⟩ :: laidOut size ((newer.map size).sum + size a) older ∧
      laidOut size 0 (moveToFront a (newer ++ a :: older)) =
        ⟨a, 0⟩ :: ((laidOut size 0 newer).map fun e => ⟨e.address, e.age + size a⟩) ++
          laidOut size ((newer.map size).sum + size a) older := by
  obtain ⟨-, hold, hdis⟩ := List.nodup_append.1 hc
  have hn : a ∉ newer := fun h => hdis a h a List.mem_cons_self rfl
  have ho : a ∉ older := (List.nodup_cons.1 hold).1
  constructor
  · rw [laidOut_append, laidOut, Int.zero_add]
  · have hfilter : (newer ++ a :: older).filter (· != a) = newer ++ older := by
      rw [List.filter_append, List.filter_cons_of_neg (by simp), filter_ne_eq_self hn,
        filter_ne_eq_self ho]
    rw [moveToFront, hfilter, laidOut, laidOut_append, laidOut_add size 0, List.cons_append,
      Int.zero_add, Int.add_comm (size a)]

/-- Where an address goes is determined. -/
theorem Resettled.unique (hsize : ∀ x, 0 ≤ size x) {l : List Entry} {f : Entry} {j k : Int}
    (hj : Resettled size l a f j) (hk : Resettled size l a f k) : j = k := by
  have hf := hsize f.address
  have ha := hsize a
  cases hj with
  | pushed h =>
    cases hk with
    | pushed => rfl
    | kept hg hga hle =>
      have := h _ hg hga
      omega
  | kept hg hga hle =>
    cases hk with
    | pushed h =>
      have := h _ hg hga
      omega
    | kept => rfl

/-- Every other address goes somewhere, and there it is laid out. -/
theorem exists_resettled (hsize : ∀ x, 0 ≤ size x) (hc : c.Nodup) {f : Entry}
    (hf : f ∈ c.laidOut size 0) (hfa : f.address ≠ a) :
    ∃ k, Resettled size (c.laidOut size 0) a f k ∧
      ⟨f.address, k⟩ ∈ (c.moveToFront a).laidOut size 0 := by
  by_cases ha : a ∈ c
  · obtain ⟨newer, older, rfl⟩ := List.append_of_mem ha
    have hd := distinct_laidOut size 0 hc
    obtain ⟨hbefore, hafter⟩ := laidOut_around size hc
    rw [hbefore] at hf hd ⊢
    rw [hafter]
    have hacc : (⟨a, (newer.map size).sum⟩ : Entry) ∈ laidOut size 0 newer ++
        ⟨a, (newer.map size).sum⟩ :: laidOut size ((newer.map size).sum + size a) older :=
      List.mem_append_right _ List.mem_cons_self
    rcases List.mem_append.1 hf with hf | hf
    · -- `f` is more recent than `a`, whose only entry starts behind it
      refine ⟨_, .pushed fun g hg hga => ?_, List.mem_append_left _ (List.mem_cons_of_mem _
        (List.mem_map.2 ⟨f, hf, rfl⟩))⟩
      have hend := age_add_le_of_mem_laidOut hsize hf
      rw [hd.eq_of_address hg hacc hga]
      show f.age + size f.address ≤ (newer.map size).sum
      omega
    · rcases List.mem_cons.1 hf with rfl | hf
      · exact absurd rfl hfa
      · exact ⟨_, .kept hacc rfl (le_age_of_mem_laidOut hsize hf), List.mem_append_right _ hf⟩
  · refine ⟨_, .pushed fun g hg hga => absurd ?_ ha, ?_⟩
    · rw [← hga, ← addresses_laidOut size 0 c]
      exact EntrySet.address_mem_addresses hg
    · rw [moveToFront, filter_ne_eq_self ha, laidOut, laidOut_add]
      exact List.mem_cons_of_mem _ (List.mem_map.2 ⟨f, hf, rfl⟩)

/-- After an access the layout has the address at the front and the others where they go. -/
theorem mem_laidOut_moveToFront (hsize : ∀ x, 0 ≤ size x) (hc : c.Nodup) :
    e ∈ (c.moveToFront a).laidOut size 0 ↔ e = ⟨a, 0⟩ ∨
      ∃ f ∈ c.laidOut size 0, f.address = e.address ∧ f.address ≠ a ∧
        Resettled size (c.laidOut size 0) a f e.age := by
  have hd := distinct_laidOut size 0 (nodup_moveToFront a hc)
  have hfront : (⟨a, 0⟩ : Entry) ∈ (c.moveToFront a).laidOut size 0 := List.mem_cons_self
  constructor
  · intro he
    by_cases hea : e.address = a
    · exact .inl (hd.eq_of_address he hfront hea)
    · have hec : e.address ∈ c := by
        have hmem := EntrySet.address_mem_addresses he
        rw [addresses_laidOut, moveToFront, List.mem_cons, List.mem_filter] at hmem
        exact (hmem.resolve_left hea).1
      rw [← addresses_laidOut size 0 c] at hec
      obtain ⟨f, hf, hfe⟩ := EntrySet.mem_addresses.1 hec
      have hfa : f.address ≠ a := by rw [hfe]; exact hea
      obtain ⟨k, hk, hmem⟩ := exists_resettled hsize hc hf hfa
      have hek : e.age = k := by rw [hd.eq_of_address he hmem hfe.symm]
      exact .inr ⟨f, hf, hfe, hfa, hek ▸ hk⟩
  · rintro (rfl | ⟨f, hf, hfe, hfa, hage⟩)
    · exact hfront
    · obtain ⟨k, hk, hmem⟩ := exists_resettled hsize hc hf hfa
      rw [hk.unique hsize hage, hfe] at hmem
      exact hmem

/-! ### Cutting off -/

/-- What does not fit is followed by nothing that fits. -/
theorem filter_fits_cons (hsize : ∀ x, 0 ≤ size x) :
    (laidOut size top (a :: c)).filter (fun e => e.age + size e.address ≤ room) =
      if top + size a ≤ room then
        ⟨a, top⟩ :: (laidOut size (top + size a) c).filter
          fun e => e.age + size e.address ≤ room
      else [] := by
  rw [laidOut]
  split
  · rename_i hfit
    rw [List.filter_cons_of_pos (by simpa using hfit)]
  · rename_i hfit
    rw [List.filter_cons_of_neg (by simpa using hfit), List.filter_eq_nil_iff]
    intro e he hfits
    have hle := le_age_of_mem_laidOut hsize he
    have hnonneg := hsize e.address
    rw [decide_eq_true_eq] at hfits
    omega

/-- Cutting a layout where the memory ends leaves the layout of what is left. -/
theorem laidOut_fitting (hsize : ∀ x, 0 ≤ size x) (room top : Int) (c : Contents) :
    laidOut size top (((c.laidOut size top).filter
        fun e => e.age + size e.address ≤ room).map fun e => e.address) =
      (c.laidOut size top).filter fun e => e.age + size e.address ≤ room := by
  induction c generalizing top with
  | nil => rfl
  | cons a c ih =>
    rw [filter_fits_cons hsize]
    split
    · rw [List.map_cons, laidOut, ih]
    · rfl

/-- With sizes of 1 the first `n` addresses are those that fit into `n` lines. -/
theorem laidOut_take (n : Nat) (top : Int) (c : Contents) :
    laidOut (fun _ => 1) top (c.take n) =
      (c.laidOut (fun _ => 1) top).filter fun e => e.age + 1 ≤ top + n := by
  induction n generalizing c top with
  | zero =>
    rw [List.take_zero, laidOut, eq_comm, List.filter_eq_nil_iff]
    intro e he hfits
    have hle := le_age_of_mem_laidOut (fun _ => Int.one_nonneg) he
    rw [decide_eq_true_eq] at hfits
    omega
  | succ n ih =>
    cases c with
    | nil => rfl
    | cons a c =>
      rw [List.take_succ_cons, laidOut, laidOut, ih, List.filter_cons_of_pos (by simp)]
      congr 2
      funext e
      rw [Int.add_assoc, Int.add_comm 1, Int.natCast_succ]

end Contents

end Residency
