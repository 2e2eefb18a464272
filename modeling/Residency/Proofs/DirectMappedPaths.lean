/-
Residency/Proofs/DirectMappedPaths.lean

The analysis of a direct-mapped cache loses nothing.  In front of every access MUST is the
intersection, and MAY the union, of the contents that the paths to the access leave
(`exact_along_paths`), so its verdicts are not only right but as definite as they can be.

Eviction looks at ages alone.  It finds the right entries because every age is the slot of
its address (`InSlots`), which accesses and joins keep.  What an access does to an address
then depends on no other address, and so it can be done before or after a join.
-/
import Mathlib.Data.List.Induction
import Residency.Proofs.Ageing
import Residency.Proofs.Judging

namespace Residency

namespace EntrySet

theorem mem_firstSeen {a : Int} {as : List Int} : a ∈ firstSeen as ↔ a ∈ as := by
  induction as with
  | nil => rfl
  | cons b as ih =>
    rw [firstSeen, List.mem_cons, List.mem_cons, List.mem_filter, ih]
    by_cases hab : a = b
    · simp [hab]
    · simp [hab]

end EntrySet

namespace DirectMapped

variable {c : DirectMapped} {s u : EntrySet} {a b : Int} {t : Journal}

/-! ### Contents -/

/-- A load puts the address into its slot, and nothing else leaves or enters. -/
theorem mem_load {contents : Contents} :
    b ∈ c.load contents a ↔ b = a ∨ b ∈ contents ∧ c.slot b ≠ c.slot a := by
  simp [load]

/-- The last access to a slot wins: an address is in the cache if and only if it was accessed
and nothing was accessed after it that has its slot. -/
theorem mem_contents {history : List Int} : a ∈ (Policy.directMapped c).contents history ↔
    ∃ earlier later, history = earlier ++ a :: later ∧ ∀ b ∈ later, c.slot b ≠ c.slot a := by
  induction history using List.reverseRecOn with
  | nil => simp [Policy.contents]
  | append_singleton history x ih =>
    rw [Policy.contents_concat]
    show a ∈ c.load _ x ↔ _
    rw [mem_load, ih]
    constructor
    · rintro (rfl | ⟨⟨earlier, later, rfl, hlater⟩, hx⟩)
      · exact ⟨history, [], rfl, fun b hb => absurd hb List.not_mem_nil⟩
      · refine ⟨earlier, later ++ [x], by simp, fun b hb => ?_⟩
        rcases List.mem_append.1 hb with hb | hb
        · exact hlater b hb
        · obtain rfl := List.mem_singleton.1 hb
          exact hx.symm
    · rintro ⟨earlier, later, heq, hlater⟩
      -- Either `a` itself is the last access, or the last access comes after it.
      rcases List.eq_nil_or_concat later with rfl | ⟨later, y, rfl⟩
      · exact .inl (List.append_inj_right' heq rfl |> List.singleton_inj.1).symm
      · rw [List.concat_eq_append, ← List.cons_append, ← List.append_assoc] at heq
        obtain ⟨rfl, hxy⟩ := List.append_inj' heq rfl
        obtain rfl := List.singleton_inj.1 hxy
        refine .inr ⟨⟨earlier, later, rfl, fun b hb => hlater b (by simp [hb])⟩, ?_⟩
        exact (hlater x (by simp)).symm

/-! ### Entries in their slots -/

/-- Every age is the slot of its address. -/
def InSlots (c : DirectMapped) (s : EntrySet) : Prop :=
  ∀ e ∈ s, e.age = c.slot e.address

/-- An access keeps each entry in the slot of its address. -/
theorem inSlots_accessed (hs : c.InSlots s) (a : Int) : c.InSlots (c.accessed s a) := by
  intro e he
  rw [accessed, EntrySet.mem_sorted, List.mem_append, List.mem_singleton] at he
  rcases he with he | rfl
  · exact hs e (List.mem_filter.1 he).1
  · rfl

/-- After an access a set has the address and what it had in other slots. -/
theorem mem_addresses_accessed (hs : c.InSlots s) :
    b ∈ (c.accessed s a).addresses ↔ b = a ∨ b ∈ s.addresses ∧ c.slot b ≠ c.slot a := by
  rw [accessed, EntrySet.addresses_sorted]
  simp only [EntrySet.mem_addresses, List.mem_append, List.mem_filter, List.mem_singleton,
    bne_iff_ne]
  constructor
  · rintro ⟨e, ⟨he, hage⟩ | rfl, rfl⟩
    · rw [hs e he] at hage
      exact .inr ⟨⟨e, he, rfl⟩, hage⟩
    · exact .inl rfl
  · rintro (rfl | ⟨⟨e, he, rfl⟩, hslot⟩)
    · exact ⟨c.slotEntry b, .inr rfl, rfl⟩
    · rw [← hs e he] at hslot
      exact ⟨e, .inl ⟨he, hslot⟩, rfl⟩

/-- MUST of a join has the addresses that both sets have. -/
theorem mem_addresses_merge_must {s u : State} :
    a ∈ (c.merge s u).must.addresses ↔ a ∈ s.must.addresses ∧ a ∈ u.must.addresses := by
  rw [merge, EntrySet.addresses_sorted]
  simp only [EntrySet.mem_addresses, List.mem_map, List.mem_filter, EntrySet.holds_iff]
  constructor
  · rintro ⟨_, ⟨e, ⟨he, hu⟩, rfl⟩, rfl⟩
    exact ⟨⟨e, he, rfl⟩, hu⟩
  · rintro ⟨⟨e, he, rfl⟩, hu⟩
    exact ⟨c.slotEntry e.address, ⟨e, ⟨he, hu⟩, rfl⟩, rfl⟩

/-- MAY of a join has the addresses that either set has. -/
theorem mem_addresses_merge_may {s u : State} :
    a ∈ (c.merge s u).may.addresses ↔ a ∈ s.may.addresses ∨ a ∈ u.may.addresses := by
  rw [merge, EntrySet.addresses_sorted, EntrySet.mem_addresses, ← List.mem_append,
    ← EntrySet.mem_firstSeen]
  constructor
  · rintro ⟨_, he, rfl⟩
    obtain ⟨b, hb, rfl⟩ := List.mem_map.1 he
    exact hb
  · intro ha
    exact ⟨c.slotEntry a, List.mem_map_of_mem ha, rfl⟩

theorem inSlots_merge_must (s u : State) : c.InSlots (c.merge s u).must := by
  intro e he
  obtain ⟨f, -, rfl⟩ := List.mem_map.1 (EntrySet.mem_sorted.1 he)
  rfl

theorem inSlots_merge_may (s u : State) : c.InSlots (c.merge s u).may := by
  intro e he
  obtain ⟨b, -, rfl⟩ := List.mem_map.1 (EntrySet.mem_sorted.1 he)
  rfl

/-! ### Transfer functions -/

/-- An access that succeeds is a step, whatever is reported. -/
theorem eq_step_of_access {s s' : State} (h : (c.access s a t).result = .ok s') :
    s' = c.step s a := by
  obtain ⟨_, -, h⟩ := Analysis.result_bind_eq_ok.1 h
  obtain ⟨_, -, h⟩ := Analysis.result_bind_eq_ok.1 h
  obtain ⟨_, -, h⟩ := Analysis.result_bind_eq_ok.1 h
  exact (Analysis.eq_of_result_bind_pure h).symm

/-- A join that succeeds is a merge, whatever is checked and reported. -/
theorem eq_merge_of_joinTwo {s u s' : State} (h : (c.joinTwo s u t).result = .ok s') :
    s' = c.merge s u := by
  rw [joinTwo] at h
  split at h
  · obtain ⟨_, -, h⟩ := Analysis.result_bind_eq_ok.1 h
    obtain ⟨_, -, h⟩ := Analysis.result_bind_eq_ok.1 h
    exact (Analysis.eq_of_result_bind_pure h).symm
  · obtain ⟨_, -, h⟩ := Analysis.result_bind_eq_ok.1 h
    exact (Analysis.eq_of_result_bind_pure h).symm

/-- MUST is the intersection and MAY the union of the contents after the histories. -/
structure Exact (c : DirectMapped) (H : Set (List Int)) (s : State) : Prop where
  nonempty : H.Nonempty
  mustSlots : c.InSlots s.must
  maySlots : c.InSlots s.may
  must : ∀ a, a ∈ s.must.addresses ↔
    ∀ history ∈ H, a ∈ (Policy.directMapped c).contents history
  may : ∀ a, a ∈ s.may.addresses ↔
    ∃ history ∈ H, a ∈ (Policy.directMapped c).contents history

/-- Where a state is exact, what MUST has MAY has too, since some history ends there. -/
theorem Exact.must_subset_may {H : Set (List Int)} {s : State} (hs : c.Exact H s)
    (ha : a ∈ s.must.addresses) : a ∈ s.may.addresses := by
  obtain ⟨history, hh⟩ := hs.nonempty
  exact (hs.may a).2 ⟨history, hh, (hs.must a).1 ha history hh⟩

theorem Exact.blank (c : DirectMapped) (capacity : Int) :
    c.Exact {[]} (State.blank capacity) where
  nonempty := Set.singleton_nonempty []
  mustSlots := fun _ he => nomatch he
  maySlots := fun _ he => nomatch he
  must := by
    intro a
    simp [State.blank, EntrySet.addresses, Policy.contents]
  may := by
    intro a
    simp [State.blank, EntrySet.addresses, Policy.contents]

/-- A step is exact for the histories that go on with the access. -/
theorem Exact.step {H : Set (List Int)} {s : State} (hs : c.Exact H s) (a : Int) :
    c.Exact ((· ++ [a]) '' H) (c.step s a) where
  nonempty := hs.nonempty.image _
  mustSlots := inSlots_accessed hs.mustSlots a
  maySlots := inSlots_accessed hs.maySlots a
  must := by
    intro b
    show b ∈ (c.accessed s.must a).addresses ↔ _
    rw [mem_addresses_accessed hs.mustSlots, hs.must, Set.forall_mem_image]
    simp only [Policy.contents_concat]
    show _ ↔ ∀ ⦃history⦄, history ∈ H → b ∈ c.load _ a
    simp only [mem_load]
    constructor
    · rintro (rfl | ⟨hb, hslot⟩) history hh
      · exact .inl rfl
      · exact .inr ⟨hb history hh, hslot⟩
    · intro h
      by_cases hba : b = a
      · exact .inl hba
      · -- Without any history nothing would say that `b` has another slot than `a`.
        obtain ⟨history, hh⟩ := hs.nonempty
        have hslot := ((h hh).resolve_left hba).2
        exact .inr ⟨fun history hh => ((h hh).resolve_left hba).1, hslot⟩
  may := by
    intro b
    show b ∈ (c.accessed s.may a).addresses ↔ _
    rw [mem_addresses_accessed hs.maySlots, hs.may, Set.exists_mem_image]
    simp only [Policy.contents_concat]
    show _ ↔ ∃ history ∈ H, b ∈ c.load _ a
    simp only [mem_load]
    constructor
    · rintro (rfl | ⟨⟨history, hh, hb⟩, hslot⟩)
      · obtain ⟨history, hh⟩ := hs.nonempty
        exact ⟨history, hh, .inl rfl⟩
      · exact ⟨history, hh, .inr ⟨hb, hslot⟩⟩
    · rintro ⟨history, hh, rfl | ⟨hb, hslot⟩⟩
      · exact .inl rfl
      · exact .inr ⟨⟨history, hh, hb⟩, hslot⟩

/-- A merge is exact for the histories of both states. -/
theorem Exact.merge {H K : Set (List Int)} {s u : State} (hs : c.Exact H s)
    (hu : c.Exact K u) : c.Exact (H ∪ K) (c.merge s u) where
  nonempty := hs.nonempty.inl
  mustSlots := inSlots_merge_must s u
  maySlots := inSlots_merge_may s u
  must := by
    intro a
    rw [mem_addresses_merge_must, hs.must, hu.must]
    simp only [Set.mem_union, or_imp, forall_and]
  may := by
    intro a
    rw [mem_addresses_merge_may, hs.may, hu.may]
    simp only [Set.mem_union, or_and_right, exists_or]

/-- Every derived state is exact for its histories. -/
theorem tracks_exact (c : DirectMapped) (t : Journal) :
    (Policy.directMapped c).Tracks t c.Exact where
  blank := .blank c _
  access := by
    intro H s s' a hs h
    rw [eq_step_of_access h]
    exact hs.step a
  join := by
    intro H K s u s' hs hu h
    rw [eq_merge_of_joinTwo (Policy.joinTwo_mergeTwo h)]
    exact hs.merge hu

/-- The verdict is a hit if and only if the address is in the cache after every history. -/
theorem Exact.verdict_eq_alwaysHit {H : Set (List Int)} {s : State} (hs : c.Exact H s) :
    s.verdict a = .alwaysHit ↔
      ∀ history ∈ H, a ∈ (Policy.directMapped c).contents history := by
  rw [State.verdict_eq_alwaysHit, hs.must]

/-- The verdict is a miss if and only if the address is in the cache after no history. -/
theorem Exact.verdict_eq_alwaysMiss {H : Set (List Int)} {s : State} (hs : c.Exact H s) :
    s.verdict a = .alwaysMiss ↔
      ∀ history ∈ H, a ∉ (Policy.directMapped c).contents history := by
  rw [State.verdict_eq_alwaysMiss, and_iff_right_of_imp (mt hs.must_subset_may), hs.may]
  simp only [not_exists, not_and]

/-- **The analysis of a direct-mapped cache is exact.**  Wherever a run stops inside a node,
MUST is the intersection and MAY the union of the contents over all forward paths; so an
access is judged to be always a hit if and only if it hits on every path, and always a miss
if and only if it misses on every path. -/
theorem exact_along_paths (c : DirectMapped) (g : Graph) (entry : NodeId)
    (hentry : ∀ m, ¬g.Forward m entry) (a a' : Solver) (hmake : Solver.make g entry = .ok a)
    (t : Journal) (table : StateTable)
    (hrun : (a.run (.directMapped c) g t).result = .ok (a', .ok table)) :
    (∀ n state, (n, state) ∈ table → ∀ i : Nat, ∃ s,
      ((Policy.directMapped c).walk state ((g.accessesOf n).take i) t).result = .ok s ∧
      ∀ x,
        (x ∈ s.must.addresses ↔ ∀ history ∈ g.pathHistories entry n,
          x ∈ (Policy.directMapped c).contents (history ++ (g.accessesOf n).take i)) ∧
        (x ∈ s.may.addresses ↔ ∃ history ∈ g.pathHistories entry n,
          x ∈ (Policy.directMapped c).contents (history ++ (g.accessesOf n).take i))) ∧
    (∃ summaries, (a'.verdicts (.directMapped c) g t).result = .ok (a', .ok summaries) ∧
      (a.verdicts (.directMapped c) g t).result = .ok (a', .ok summaries)) ∧
    ∀ (t' : Journal) (b : Solver) (summaries : List (NodeId × Summary)),
      (a'.verdicts (.directMapped c) g t').result = .ok (b, .ok summaries) →
      summaries.map Prod.fst = table.map Prod.fst ∧
      ∀ n summary, (n, summary) ∈ summaries →
        summary.accesses.map Prod.fst = g.accessesOf n ∧
        ∀ (i : Nat) x v, summary.accesses[i]? = some (x, v) →
          (v = .alwaysHit ↔ ∀ history ∈ g.pathHistories entry n,
            x ∈ (Policy.directMapped c).contents (history ++ (g.accessesOf n).take i)) ∧
          (v = .alwaysMiss ↔ ∀ history ∈ g.pathHistories entry n,
            x ∉ (Policy.directMapped c).contents (history ++ (g.accessesOf n).take i)) := by
  refine ⟨?_, Solver.exists_verdicts hmake hentry hrun, ?_⟩
  · intro n state hn i
    obtain ⟨s, hwalk, hs⟩ := Solver.tracked_of_run (c.tracks_exact t) hmake hentry hrun hn i
    refine ⟨s, hwalk, fun x => ⟨?_, ?_⟩⟩
    · rw [hs.must, Set.forall_mem_image]
    · rw [hs.may, Set.exists_mem_image]
  · intro t' b summaries hverdicts
    obtain ⟨hnodes, hsummaries⟩ :=
      Solver.verdicts_along_paths c.tracks_exact hmake hentry hrun hverdicts
    refine ⟨hnodes, fun n summary hmem => ?_⟩
    obtain ⟨hfst, hjudged⟩ := hsummaries n summary hmem
    refine ⟨hfst, fun i x v hi => ?_⟩
    obtain ⟨s, rfl, hs⟩ := hjudged i x v hi
    constructor
    · rw [hs.verdict_eq_alwaysHit, Set.forall_mem_image]
    · rw [hs.verdict_eq_alwaysMiss, Set.forall_mem_image]

theorem exact_along_paths_diamond : ∃ a a' table state summaries final,
    Solver.make .diamond (.number 0) = .ok a ∧
    (a.run (.directMapped ⟨2, 1⟩) .diamond none).result = .ok (a', .ok table) ∧
    (a'.verdicts (.directMapped ⟨2, 1⟩) .diamond none).result = .ok (a', .ok summaries) ∧
    (.number 3, state) ∈ table ∧
    (.number 3, ⟨[(1, .alwaysHit), (2, .notClassified), (4, .alwaysMiss)], final⟩) ∈ summaries ∧
    (∃ s, ((Policy.directMapped ⟨2, 1⟩).walk state [1] none).result = .ok s ∧ ∀ x,
      (x ∈ s.must.addresses ↔ ∀ history ∈ Graph.diamond.pathHistories (.number 0) (.number 3),
        x ∈ (Policy.directMapped ⟨2, 1⟩).contents (history ++ [1])) ∧
      (x ∈ s.may.addresses ↔ ∃ history ∈ Graph.diamond.pathHistories (.number 0) (.number 3),
        x ∈ (Policy.directMapped ⟨2, 1⟩).contents (history ++ [1]))) ∧
    ¬(∀ history ∈ Graph.diamond.pathHistories (.number 0) (.number 3),
      2 ∈ (Policy.directMapped ⟨2, 1⟩).contents (history ++ [1])) ∧
    ∀ history ∈ Graph.diamond.pathHistories (.number 0) (.number 3),
      4 ∉ (Policy.directMapped ⟨2, 1⟩).contents (history ++ [1, 2]) := by
  refine ⟨_, _, _, _, _, _, rfl, by cbv, by cbv, .tail _ (.tail _ (.tail _ (.head _))),
    .tail _ (.tail _ (.tail _ (.head _))), ?_⟩
  obtain ⟨hstates, -, hverdicts⟩ := exact_along_paths ⟨2, 1⟩ .diamond (.number 0)
    Graph.not_forward_diamond _ _ rfl none _ (by cbv)
  have hnode := (hverdicts none _ _ (by cbv)).2 (.number 3) _
    (.tail _ (.tail _ (.tail _ (.head _))))
  refine ⟨hstates (.number 3) _ (.tail _ (.tail _ (.tail _ (.head _)))) 1, ?_, ?_⟩
  · intro hall
    have hhit := (hnode.2 1 2 .notClassified rfl).1.2 hall
    cases hhit
  · exact (hnode.2 2 4 .alwaysMiss rfl).2.1 rfl

end DirectMapped

end Residency
