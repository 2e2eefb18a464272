/-
Residency/Proofs/Ageing.lean

Ageing: how the entries of a set follow the layout of a memory.  After an access to `a` a
set holds `a` at age 0, and every other entry at the age that some rule gives it, as long
as it fits into the memory there (`EntrySet.reloaded`).  The caches and scratchpads of this
library with least-recently-used replacement differ in their rules only.

A rule for MUST is safe if no address that an entry stands for can be resettled to a larger
age than the rule gives, and a rule for MAY if none can be resettled to a smaller one.
`reloaded_within` and `within_reloaded` carry this over to the sets, evictions included: a
MUST entry that fits is in the memory, since its address lies no further down, and a MAY
entry that does not fit stands for an address that is not in the memory any more.
-/
import Mathlib.Data.List.Induction
import Mathlib.Data.Set.Image
import Residency.Proofs.Layout

namespace Residency

namespace EntrySet

variable {size : Int → Int} {room a : Int} {age : Entry → Int} {s : EntrySet} {e : Entry}
  {c : Contents}

/-- A set after an access to `a`, if `age` gives the new ages of the other entries. -/
def reloaded (size : Int → Int) (room : Int) (age : Entry → Int) (s : EntrySet) (a : Int) :
    EntrySet :=
  sorted ((s.without a).filterMap (fun e =>
    if age e + size e.address ≤ room then some ⟨e.address, age e⟩ else none) ++ [⟨a, 0⟩])

/-- The entries after an access: the address at age 0, and the others that still fit. -/
theorem mem_reloaded : e ∈ reloaded size room age s a ↔ e = ⟨a, 0⟩ ∨
    ∃ f ∈ s, f.address ≠ a ∧ age f + size f.address ≤ room ∧ e = ⟨f.address, age f⟩ := by
  rw [reloaded, mem_sorted, List.mem_append, List.mem_singleton, or_comm, List.mem_filterMap]
  refine or_congr_right ?_
  constructor
  · rintro ⟨f, hf, hef⟩
    obtain ⟨hfs, hfa⟩ := mem_without.1 hf
    split at hef
    · exact ⟨f, hfs, hfa, ‹_›, (Option.some.inj hef).symm⟩
    · cases hef
  · rintro ⟨f, hfs, hfa, hfit, rfl⟩
    exact ⟨f, mem_without.2 ⟨hfs, hfa⟩, if_pos hfit⟩

/-- An access to a distinct set repeats no address. -/
theorem distinct_reloaded (hs : s.Distinct) : (reloaded size room age s a).Distinct := by
  rw [reloaded, distinct_sorted]
  have hsub : ∀ s : EntrySet, List.Sublist (addresses (s.filterMap fun e =>
      if age e + size e.address ≤ room then some ⟨e.address, age e⟩ else none)) s.addresses := by
    intro s
    induction s with
    | nil => exact List.Sublist.slnil
    | cons e s ih =>
      rw [List.filterMap_cons]
      split
      · exact ih.cons _
      · rename_i h
        split at h
        · obtain rfl := Option.some.inj h
          exact ih.cons_cons _
        · cases h
  refine distinct_concat (List.Nodup.sublist (hsub _) (hs.of_sublist List.filter_sublist)) ?_
  intro ha
  obtain ⟨e, he, hea⟩ := mem_addresses.1 ((hsub _).subset ha)
  exact (mem_without.1 he).2 hea

/-- A safe rule keeps MUST below the layout. -/
theorem reloaded_within (hsize : ∀ x, 0 ≤ size x) (hc : c.Nodup) (ha : size a ≤ room)
    (hs : s.Within (c.laidOut size 0))
    (hage : ∀ e ∈ s, e.address ≠ a → ∀ f ∈ c.laidOut size 0, f.address = e.address →
      f.age ≤ e.age → ∀ k, Contents.Resettled size (c.laidOut size 0) a f k → k ≤ age e) :
    (reloaded size room age s a).Within
      (((c.moveToFront a).laidOut size 0).filter fun e => e.age + size e.address ≤ room) := by
  intro e he
  rcases mem_reloaded.1 he with rfl | ⟨e, hes, hea, hfit, rfl⟩
  · refine ⟨⟨a, 0⟩, List.mem_filter.2 ⟨List.mem_cons_self, ?_⟩, rfl, Int.le_refl _⟩
    simpa using ha
  · obtain ⟨f, hf, hfe, hle⟩ := hs e hes
    obtain ⟨k, hk, hmem⟩ := Contents.exists_resettled (a := a) hsize hc hf (hfe ▸ hea)
    -- The address lies no further down than its entry says, so it fits where the entry does.
    have hke : k ≤ age e := hage e hes hea f hf hfe hle k hk
    refine ⟨⟨f.address, k⟩, List.mem_filter.2 ⟨hmem, ?_⟩, hfe, hke⟩
    rw [decide_eq_true_eq]
    show k + size f.address ≤ room
    rw [hfe]
    omega

/-- A safe rule keeps MAY above the layout. -/
theorem within_reloaded (hsize : ∀ x, 0 ≤ size x) (hc : c.Nodup)
    (hs : EntrySet.Within (c.laidOut size 0) s)
    (hage : ∀ e ∈ s, ∀ f ∈ c.laidOut size 0, f.address = e.address → e.age ≤ f.age →
      ∀ k, Contents.Resettled size (c.laidOut size 0) a f k → age e ≤ k) :
    EntrySet.Within
      (((c.moveToFront a).laidOut size 0).filter fun e => e.age + size e.address ≤ room)
      (reloaded size room age s a) := by
  intro e he
  obtain ⟨hmem, hfit⟩ := List.mem_filter.1 he
  rw [decide_eq_true_eq] at hfit
  rcases (Contents.mem_laidOut_moveToFront hsize hc).1 hmem with rfl | ⟨f, hf, hfe, hfa, hres⟩
  · exact ⟨⟨a, 0⟩, mem_reloaded.2 (.inl rfl), rfl, Int.le_refl _⟩
  · obtain ⟨g, hg, hgf, hle⟩ := hs f hf
    -- The entry lies no further down than the address, so it stays if the address does.
    have hge : age g ≤ e.age := hage g hg f hf hgf.symm hle e.age hres
    have hga : g.address = e.address := hgf.trans hfe
    refine ⟨⟨g.address, age g⟩, mem_reloaded.2 (.inr ⟨g, hg, ?_, ?_, rfl⟩), hga, hge⟩
    · rw [hgf]
      exact hfa
    · rw [hga]
      omega

end EntrySet

/-! ### States that are right about a memory -/

/-- What a state promises holds of a memory with the given layout. -/
structure State.Covers (s : State) (layout : List Entry) : Prop where
  must : s.must.Within layout
  may : EntrySet.Within layout s.may

namespace State.Covers

variable {s u joined : State} {l : List Entry} {a : Int}

theorem blank (capacity : Int) : (State.blank capacity).Covers [] where
  must := fun _ he => nomatch he
  may := fun _ he => nomatch he

/-- What MUST holds is in every layout that is covered. -/
theorem mem_of_must (h : s.Covers l) (ha : a ∈ s.must.addresses) : a ∈ EntrySet.addresses l :=
  h.must.addresses_subset ha

/-- What is in a layout that is covered is in MAY. -/
theorem mem_may (h : s.Covers l) (ha : a ∈ EntrySet.addresses l) : a ∈ s.may.addresses :=
  h.may.addresses_subset ha

/-- A join covers the layouts of its first state. -/
theorem join_left (h : s.Covers l) (hmust : s.must.joinMust u.must = .ok joined.must)
    (hmay : s.may.joinMay u.may = .ok joined.may) : joined.Covers l := by
  obtain ⟨-, hmust⟩ := EntrySet.joinMust_eq_ok.1 hmust
  obtain ⟨-, -, hmay⟩ := EntrySet.joinMay_eq_ok.1 hmay
  constructor
  · rw [hmust, EntrySet.sorted_within]
    exact (EntrySet.common_within_left _ _).trans h.must
  · rw [hmay, EntrySet.within_sorted]
    exact h.may.trans (EntrySet.within_merged_left _ _)

/-- A join covers the layouts of its second state. -/
theorem join_right (h : u.Covers l) (hmust : s.must.joinMust u.must = .ok joined.must)
    (hmay : s.may.joinMay u.may = .ok joined.may) : joined.Covers l := by
  obtain ⟨-, hmust⟩ := EntrySet.joinMust_eq_ok.1 hmust
  obtain ⟨-, hdistinct, hmay⟩ := EntrySet.joinMay_eq_ok.1 hmay
  constructor
  · rw [hmust, EntrySet.sorted_within]
    exact (EntrySet.common_within_right _ _).trans h.must
  · rw [hmay, EntrySet.within_sorted]
    exact h.may.trans (EntrySet.within_merged_right _ hdistinct)

end State.Covers

/-! ### Histories -/

/-- The contents after one access more come from a load. -/
theorem Policy.contents_concat (p : Policy) (history : List Int) (a : Int) :
    p.contents (history ++ [a]) = p.load (p.contents history) a := by
  rw [contents, List.foldl_append]
  rfl

/-- A memory that never loads an address twice never holds one twice. -/
theorem Policy.nodup_contents {p : Policy}
    (hp : ∀ (contents : Contents) (a : Int), contents.Nodup → (p.load contents a).Nodup)
    (history : List Int) : (p.contents history).Nodup := by
  induction history using List.reverseRecOn with
  | nil => exact List.nodup_nil
  | append_singleton history a ih =>
    rw [contents_concat]
    exact hp _ a ih

/-- What the joins of caches and scratchpads have in common. -/
theorem State.join_eq_ok {s u s' : State} {capacity : Int} :
    (do
      let must ← s.must.joinMust u.must
      let may ← s.may.joinMay u.may
      return ⟨must, may, capacity⟩ : Except Fault State) = .ok s' ↔
    s.must.joinMust u.must = .ok s'.must ∧ s.may.joinMay u.may = .ok s'.may ∧
      s'.capacity = capacity := by
  obtain ⟨must, may, capacity'⟩ := s'
  cases s.must.joinMust u.must with
  | error e => simp [bind, Except.bind]
  | ok must' =>
    cases s.may.joinMay u.may with
    | error e => simp [bind, Except.bind]
    | ok may' => simp [bind, Except.bind, pure, Except.pure, eq_comm]

/-- The ages of a state are right after every history of a set. -/
structure State.Faithful (p : Policy) (size : Int → Int) (H : Set (List Int)) (s : State) :
    Prop where
  distinct : s.may.Distinct
  covers : ∀ h ∈ H, s.Covers ((p.contents h).laidOut size 0)

namespace State.Faithful

variable {p : Policy} {size : Int → Int} {H K : Set (List Int)} {s s' u joined : State} {a : Int}

theorem blank (p : Policy) (size : Int → Int) (capacity : Int) :
    (State.blank capacity).Faithful p size {[]} := by
  refine ⟨List.nodup_nil, ?_⟩
  rintro h rfl
  exact Covers.blank capacity

-- The rules of ageing rely on contents without repetitions, and histories start with such.
theorem access (hs : s.Faithful p size H)
    (hp : ∀ (contents : Contents) (a : Int), contents.Nodup → (p.load contents a).Nodup)
    (hd : s'.may.Distinct)
    (hstep : ∀ contents : Contents, contents.Nodup → s.Covers (contents.laidOut size 0) →
      s'.Covers ((p.load contents a).laidOut size 0)) :
    s'.Faithful p size ((· ++ [a]) '' H) := by
  refine ⟨hd, ?_⟩
  rintro _ ⟨history, hmem, rfl⟩
  show s'.Covers (Contents.laidOut size 0 (p.contents (history ++ [a])))
  rw [Policy.contents_concat]
  apply hstep
  · exact Policy.nodup_contents hp history
  · exact hs.covers history hmem

/-- A join is faithful to the histories of both states. -/
theorem join (hs : s.Faithful p size H) (hu : u.Faithful p size K)
    (hmust : s.must.joinMust u.must = .ok joined.must)
    (hmay : s.may.joinMay u.may = .ok joined.may) : joined.Faithful p size (H ∪ K) := by
  constructor
  · rw [(EntrySet.joinMay_eq_ok.1 hmay).2.2, EntrySet.distinct_sorted]
    exact EntrySet.distinct_merged hs.distinct hu.distinct
  · rintro h (hH | hK)
    · exact (hs.covers h hH).join_left hmust hmay
    · exact (hu.covers h hK).join_right hmust hmay

end State.Faithful

end Residency
