/-
Residency/Proofs/EntrySets.lean

Entry sets as finite maps from addresses to ages.  The order of a set matters for its text
and for equality only; what a set says is which entries it has, and for a set without
repeated addresses (`Distinct`) looking up an address finds the one entry that there is.

The joins are described by the two directions in which they lose precision: what
`joinMust` keeps lies in both sets at a larger age (`common_within_left`,
`common_within_right`), and what either set has lies in `joinMay` at a smaller age
(`within_merged_left`, `within_merged_right`).  Both keep sets distinct.
-/
import Mathlib.Data.List.Sort
import Residency.Precision
import Residency.Proofs.Results

namespace Residency

/-! ### Sorting -/

/-- Sorting is the insertion sort of the library, so its lemmas apply. -/
theorem sortBy_eq_insertionSort {α : Type} (le : α → α → Bool) (l : List α) :
    sortBy le l = l.insertionSort fun a b => le a b = true := by
  have hinsert : ∀ (a : α) (l : List α),
      insertBy le a l = l.orderedInsert (fun a b => le a b = true) a := by
    intro a l
    induction l with
    | nil => rfl
    | cons b l ih => rw [insertBy, List.orderedInsert, ih]
  induction l with
  | nil => rfl
  | cons a l ih =>
    show insertBy le a (sortBy le l) = _
    rw [hinsert, ih, List.insertionSort_cons]

namespace EntrySet

variable {s t u : EntrySet} {e f : Entry} {a : Int}

/-- Sorting keeps the entries and changes only their order. -/
theorem sorted_perm (s : EntrySet) : s.sorted.Perm s := by
  rw [sorted, sortBy_eq_insertionSort]
  exact List.perm_insertionSort _ s

@[simp] theorem mem_sorted : e ∈ s.sorted ↔ e ∈ s :=
  mem_sortBy

/-! ### Looking up -/

theorem mem_addresses : a ∈ s.addresses ↔ ∃ e ∈ s, e.address = a :=
  List.mem_map

theorem address_mem_addresses (h : e ∈ s) : e.address ∈ s.addresses :=
  mem_addresses.2 ⟨e, h, rfl⟩

/-- A set holds an address if and only if one of its entries has it. -/
theorem holds_iff : s.holds a = true ↔ a ∈ s.addresses := by
  simp only [holds, List.any_eq_true, beq_iff_eq, mem_addresses]

/-- A sorted set has the addresses of the set. -/
theorem addresses_sorted (s : EntrySet) : a ∈ s.sorted.addresses ↔ a ∈ s.addresses := by
  simp only [mem_addresses, mem_sorted]

/-- Looking up an address fails exactly where no entry has it. -/
theorem entry?_eq_none_iff : s.entry? a = none ↔ a ∉ s.addresses := by
  simp only [ entry?, List.find?_eq_none, beq_iff_eq, mem_addresses, not_exists, not_and]

theorem entry?_mem (h : s.entry? a = some e) : e ∈ s :=
  List.mem_of_find?_eq_some h

theorem entry?_address (h : s.entry? a = some e) : e.address = a := by
  have := List.find?_some h
  simpa only [beq_iff_eq] using this

/-- Looking up an address of the set finds an entry. -/
theorem exists_entry? (h : a ∈ s.addresses) : ∃ e, s.entry? a = some e := by
  rw [← Option.ne_none_iff_exists']
  intro hnone
  exact entry?_eq_none_iff.1 hnone h

/-- Taking an address out leaves the entries of all other addresses. -/
theorem mem_without : e ∈ s.without a ↔ e ∈ s ∧ e.address ≠ a := by
  simp only [without, List.mem_filter, bne_iff_ne]

theorem without_eq_self (h : a ∉ s.addresses) : s.without a = s := by
  rw [without, List.filter_eq_self]
  intro e he
  rw [bne_iff_ne]
  rintro rfl
  exact h (address_mem_addresses he)

/-! ### Sets without repeated addresses -/

/-- In a set without repeated addresses an address has one entry. -/
theorem Distinct.eq_of_address (hs : s.Distinct) (he : e ∈ s) (hf : f ∈ s)
    (h : e.address = f.address) : e = f :=
  List.inj_on_of_nodup_map hs he hf h

/-- In a set without repeated addresses looking up the address of an entry finds that entry. -/
theorem Distinct.entry?_eq (hs : s.Distinct) (he : e ∈ s) : s.entry? e.address = some e := by
  obtain ⟨f, hf⟩ := exists_entry? (address_mem_addresses he)
  rw [hf, hs.eq_of_address (entry?_mem hf) he (entry?_address hf)]

theorem distinct_sorted : s.sorted.Distinct ↔ s.Distinct :=
  ((sorted_perm s).map _).nodup_iff

theorem Distinct.of_sublist (ht : t.Distinct) (h : s.Sublist t) : s.Distinct :=
  List.Nodup.sublist (h.map _) ht

/-- An entry with a new address can be put at the end. -/
theorem distinct_concat (hs : s.Distinct) (h : e.address ∉ s.addresses) :
    Distinct (s ++ [e]) := by
  rw [Distinct, addresses, List.map_append, List.nodup_append]
  refine ⟨hs, List.nodup_singleton _, ?_⟩
  intro a ha b hb
  obtain rfl : b = e.address := List.mem_singleton.1 hb
  rintro rfl
  exact h ha

/-- The scan for repeats finds none if and only if the addresses differ from each other and from
those it has seen. -/
theorem repeatAfter?_eq_none_iff {seen : List Int} :
    repeatAfter? seen s = none ↔ s.Distinct ∧ ∀ e ∈ s, e.address ∉ seen := by
  induction s generalizing seen with
  | nil => simp [repeatAfter?, Distinct, addresses]
  | cons e s ih =>
    rw [repeatAfter?]
    split
    · rename_i hseen
      simp [hseen]
    · rename_i hseen
      rw [ih, Distinct, Distinct, addresses, addresses, List.map_cons, List.nodup_cons,
        List.mem_map, List.forall_mem_cons]
      constructor
      · rintro ⟨hs, hnot⟩
        refine ⟨⟨?_, hs⟩, hseen, fun f hf hmem => hnot f hf (List.mem_cons_of_mem _ hmem)⟩
        rintro ⟨f, hf, hfe⟩
        exact hnot f hf (hfe ▸ List.mem_cons_self)
      · rintro ⟨⟨he, hs⟩, -, hnot⟩
        refine ⟨hs, fun f hf hmem => ?_⟩
        rcases List.mem_cons.1 hmem with hfe | hmem
        · exact he ⟨f, hf, hfe⟩
        · exact hnot f hf hmem

/-- The check for repeated addresses passes on distinct sets and on no others. -/
theorem refuseRepeats_eq_ok : s.refuseRepeats = .ok () ↔ s.Distinct := by
  have hnone : s.firstRepeat? = none ↔ s.Distinct := by
    rw [firstRepeat?, repeatAfter?_eq_none_iff]
    simp
  rw [← hnone, refuseRepeats]
  cases s.firstRepeat? with
  | none => simp
  | some a => simp [refuse_ne_ok]

/-! ### What lies within a set -/

/-- Whether a set lies within another does not depend on the order of the other. -/
theorem within_sorted : s.Within t.sorted ↔ s.Within t := by
  simp only [Within, mem_sorted]

theorem sorted_within : s.sorted.Within t ↔ s.Within t := by
  simp only [Within, mem_sorted]

/-- A set has no addresses but those of the sets that it lies within. -/
theorem Within.addresses_subset (h : s.Within t) (ha : a ∈ s.addresses) : a ∈ t.addresses := by
  obtain ⟨e, he, rfl⟩ := mem_addresses.1 ha
  obtain ⟨f, hf, hfe, -⟩ := h e he
  exact mem_addresses.2 ⟨f, hf, hfe⟩

/-! ### Joins -/

/-- What two sets have in common has the larger of its two ages. -/
theorem mem_common : e ∈ common s t ↔
    ∃ e' ∈ s, ∃ f, t.entry? e'.address = some f ∧ e = ⟨e'.address, max e'.age f.age⟩ := by
  simp only [common, List.mem_filterMap, Option.map_eq_some_iff]
  constructor
  · rintro ⟨e', he', f, hf, rfl⟩
    exact ⟨e', he', f, hf, rfl⟩
  · rintro ⟨e', he', f, hf, rfl⟩
    exact ⟨e', he', f, hf, rfl⟩

/-- What is in common lies in the first set, at an age that is not larger. -/
theorem common_within_left (s t : EntrySet) : (common s t).Within s := by
  intro e he
  obtain ⟨e', he', f, -, rfl⟩ := mem_common.1 he
  exact ⟨e', he', rfl, Int.le_max_left _ _⟩

/-- What is in common lies in the second set, at an age that is not larger. -/
theorem common_within_right (s t : EntrySet) : (common s t).Within t := by
  intro e he
  obtain ⟨e', -, f, hf, rfl⟩ := mem_common.1 he
  exact ⟨f, entry?_mem hf, entry?_address hf, Int.le_max_right _ _⟩

/-- What the first set has lies in the merged set, at an age that is not larger. -/
theorem within_merged_left (s t : EntrySet) : s.Within (merged s t) := by
  intro e he
  cases hf : t.entry? e.address with
  | none =>
    refine ⟨e, List.mem_append_left _ (List.mem_map.2 ⟨e, he, ?_⟩), rfl, Int.le_refl _⟩
    rw [hf]
  | some f =>
    refine ⟨⟨e.address, min f.age e.age⟩,
      List.mem_append_left _ (List.mem_map.2 ⟨e, he, ?_⟩), rfl, Int.min_le_right _ _⟩
    rw [hf]

/-- What the second set has lies in the merged set, at an age that is not larger. -/
theorem within_merged_right (s : EntrySet) (ht : t.Distinct) : t.Within (merged s t) := by
  intro f hf
  by_cases hs : f.address ∈ s.addresses
  · obtain ⟨e, he, hef⟩ := mem_addresses.1 hs
    refine ⟨⟨e.address, min f.age e.age⟩,
      List.mem_append_left _ (List.mem_map.2 ⟨e, he, ?_⟩), hef, Int.min_le_left _ _⟩
    rw [hef, ht.entry?_eq hf]
  · refine ⟨f, List.mem_append_right _ (List.mem_filter.2 ⟨hf, ?_⟩), rfl, Int.le_refl _⟩
    rw [← holds_iff] at hs
    simpa using hs

/-- The merged set has the addresses of the first set, then those that only the second one has. -/
theorem addresses_merged_eq (s t : EntrySet) :
    (merged s t).addresses =
      s.addresses ++ addresses (t.filter fun f => !s.holds f.address) := by
  rw [addresses, merged, List.map_append, List.map_map]
  congr 1
  refine List.map_congr_left ?_
  intro e _
  rw [Function.comp_apply]
  cases t.entry? e.address <;> rfl

/-- Merging distinct sets repeats no address. -/
theorem distinct_merged (hs : s.Distinct) (ht : t.Distinct) : (merged s t).Distinct := by
  rw [Distinct, addresses_merged_eq, List.nodup_append]
  refine ⟨hs, ht.of_sublist List.filter_sublist, ?_⟩
  intro a ha b hb
  obtain ⟨f, hf, rfl⟩ := mem_addresses.1 hb
  have hfs : f.address ∉ s.addresses := by
    have hnot := (List.mem_filter.1 hf).2
    rw [← holds_iff]
    simpa using hnot
  rintro rfl
  exact hfs ha

/-- The MUST join succeeds where the second set is distinct, and gives what is in common, sorted. -/
theorem joinMust_eq_ok : joinMust s t = .ok u ↔ t.Distinct ∧ u = (common s t).sorted := by
  rw [joinMust, ← refuseRepeats_eq_ok]
  cases t.refuseRepeats with
  | error e => simp [bind, Except.bind]
  | ok => simp [bind, Except.bind, pure, Except.pure, eq_comm]

/-- The MAY join succeeds where both sets are distinct, and gives the merged set, sorted. -/
theorem joinMay_eq_ok :
    joinMay s t = .ok u ↔ s.Distinct ∧ t.Distinct ∧ u = (merged s t).sorted := by
  rw [joinMay, ← refuseRepeats_eq_ok, ← refuseRepeats_eq_ok]
  cases s.refuseRepeats with
  | error e => simp [bind, Except.bind]
  | ok =>
    cases t.refuseRepeats with
    | error e => simp [bind, Except.bind]
    | ok => simp [bind, Except.bind, pure, Except.pure, eq_comm]

end EntrySet

end Residency
