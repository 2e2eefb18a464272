/-
Residency/Proofs/LruCacheAges.lean

Ages in a fully associative cache.  The ages of a state bound the positions that addresses
really have: after every history that a derivable state merges, a MUST address is in the
cache no further back than its age says, and an address of the cache is in MAY no further
back than it really is (`LruCache.positions_bounded`).

The two rules differ at the age of the address that is hit.  In MUST that age is an upper
bound, so an entry at the same age was either behind the address, and stays, or in front of
it at a smaller position than its age says, and there is room for it to be pushed.  In MAY
the age is a lower bound, so an entry at the same age may have been in front of the address
and must not stay behind.
-/
import Mathlib.Data.List.Induction
import Residency.Proofs.Ageing
import Residency.Proofs.Derivations

namespace Residency

namespace LruCache

variable {c : LruCache} {kind : SetKind} {s : EntrySet} {a : Int} {contents : Contents}
  {t : Journal}

/-! ### The cache -/

theorem nodup_load (h : contents.Nodup) (a : Int) : (c.load contents a).Nodup :=
  (Contents.nodup_moveToFront a h).sublist (List.take_sublist _ _)

/-- A load moves the address to the front and drops what no longer fits. -/
theorem laidOut_load (hc : 1 ≤ c.lines) (contents : Contents) (a : Int) :
    (c.load contents a).laidOut (fun _ => 1) 0 =
      ((contents.moveToFront a).laidOut (fun _ => 1) 0).filter fun e => e.age + 1 ≤ c.lines := by
  have hlines : (0 : Int) + c.lines.toNat = c.lines := by omega
  rw [load, Contents.laidOut_take, hlines]

/-- With lines of size 1 the age of an address is its position. -/
theorem mem_laidOut_one {e : Entry} :
    e ∈ contents.laidOut (fun _ => 1) 0 ↔
      ∃ k : Nat, contents[k]? = some e.address ∧ e.age = k := by
  rw [Contents.mem_laidOut_iff]
  constructor
  · rintro ⟨newer, older, rfl, hage⟩
    refine ⟨newer.length, ?_, ?_⟩
    · rw [List.getElem?_append_right (Nat.le_refl _), Nat.sub_self, List.getElem?_cons_zero]
    · rw [hage]
      simp
  · rintro ⟨k, hk, hage⟩
    obtain ⟨hlt, hget⟩ := List.getElem?_eq_some_iff.1 hk
    refine ⟨contents.take k, contents.drop (k + 1), ?_, ?_⟩
    · rw [← hget, List.getElem_cons_drop, List.take_append_drop]
    · rw [hage]
      simp
      omega

/-! ### The rules -/

/-- The age of another entry after an access to `a`. -/
def ageAfter (kind : SetKind) (s : EntrySet) (a : Int) (e : Entry) : Int :=
  match s.entry? a with
  | none => e.age + 1
  | some hit => agedByHit kind hit.age e

/-- On a miss every entry ages by one. -/
theorem ageAfter_miss (h : s.entry? a = none) (kind : SetKind) (e : Entry) :
    ageAfter kind s a e = e.age + 1 := by
  rw [ageAfter, h]

/-- On a hit entries age by the rule for hits. -/
theorem ageAfter_hit {hit : Entry} (h : s.entry? a = some hit) (kind : SetKind) (e : Entry) :
    ageAfter kind s a e = agedByHit kind hit.age e := by
  rw [ageAfter, h]

/-- An access to a set is an ageing of the general kind, with sizes of 1. -/
theorem accessed_eq_reloaded (c : LruCache) (kind : SetKind) (s : EntrySet) (a : Int) :
    c.accessed kind s a = s.reloaded (fun _ => 1) c.lines (ageAfter kind s a) a := by
  rw [accessed, EntrySet.reloaded, survivors, aging]
  congr 2
  cases h : s.entry? a with
  | none =>
    rw [EntrySet.without_eq_self (EntrySet.entry?_eq_none_iff.1 h), List.filterMap_map]
    simp only [ageAfter_miss h]
    rfl
  | some hit =>
    rw [List.filterMap_map]
    simp only [ageAfter_hit h]
    rfl

/-- The rule for MUST is safe: nothing is resettled to a larger age. -/
theorem resettled_le_ageAfter (hs : s.Within (contents.laidOut (fun _ => 1) 0)) {e f : Entry}
    (hle : f.age ≤ e.age) {k : Int}
    (hk : Contents.Resettled (fun _ => 1) (contents.laidOut (fun _ => 1) 0) a f k) :
    k ≤ ageAfter .must s a e := by
  cases h : s.entry? a with
  | none =>
    rw [ageAfter_miss h]
    cases hk with
    | pushed => omega
    | kept => omega
  | some hit =>
    -- the address is in the cache, at most at the age of its entry
    obtain ⟨g, hg, hgaddr, hgage⟩ := hs hit (EntrySet.entry?_mem h)
    have hga : g.address = a := hgaddr.trans (EntrySet.entry?_address h)
    simp only [ageAfter_hit h, agedByHit, reduceCtorEq, false_and, or_false]
    cases hk with
    | pushed hbehind =>
      have := hbehind g hg hga
      split <;> omega
    | kept => split <;> omega

/-- The rule for MAY is safe: nothing is resettled to a smaller age. -/
theorem ageAfter_le_resettled (hd : s.Distinct)
    (hs : EntrySet.Within (contents.laidOut (fun _ => 1) 0) s) {e f : Entry}
    (hle : e.age ≤ f.age) {k : Int}
    (hk : Contents.Resettled (fun _ => 1) (contents.laidOut (fun _ => 1) 0) a f k) :
    ageAfter .may s a e ≤ k := by
  cases hk with
  | pushed =>
    cases h : s.entry? a with
    | none =>
      rw [ageAfter_miss h]
      omega
    | some hit =>
      rw [ageAfter_hit h, agedByHit]
      split <;> omega
  | @kept g hg hga hbefore =>
    -- the address is in the cache, so it is in MAY, at least as young
    obtain ⟨hit, hhit, haddr, hage⟩ := hs g hg
    have h : s.entry? a = some hit := by
      rw [← hga, ← haddr]
      exact hd.entry?_eq hhit
    simp only [ageAfter_hit h, agedByHit, true_and]
    split <;> omega

/-! ### Derivable states -/

theorem eq_step_of_access {s s' : State} (h : (c.access s a t).result = .ok s') :
    s' = c.step s a := by
  obtain ⟨_, -, h⟩ := Analysis.result_bind_eq_ok.1 h
  obtain ⟨_, -, h⟩ := Analysis.result_bind_eq_ok.1 h
  exact (Analysis.eq_of_result_bind_pure h).symm

/-- A merge joins both sets, and a state without a capacity takes that of the cache. -/
theorem merge_eq_ok {s u s' : State} : c.merge s u = .ok s' ↔
    s.must.joinMust u.must = .ok s'.must ∧ s.may.joinMay u.may = .ok s'.may ∧
      s'.capacity = s.capacityOr c.lines :=
  State.join_eq_ok

theorem merge_of_joinTwo {s u s' : State} (h : (c.joinTwo s u t).result = .ok s') :
    c.merge s u = .ok s' := by
  obtain ⟨joined, hjoined, h⟩ := Analysis.result_bind_eq_ok.1 h
  obtain ⟨_, -, h⟩ := Analysis.result_bind_eq_ok.1 h
  rw [← Analysis.eq_of_result_bind_pure h]
  exact hjoined

/-- A step covers the cache after the load, if the state covers it before. -/
theorem covers_step (hc : 1 ≤ c.lines) {s : State} (hd : s.may.Distinct)
    (hn : contents.Nodup) (hs : s.Covers (contents.laidOut (fun _ => 1) 0)) (a : Int) :
    (c.step s a).Covers ((c.load contents a).laidOut (fun _ => 1) 0) := by
  have hone : ∀ _ : Int, (0 : Int) ≤ 1 := fun _ => Int.one_nonneg
  rw [laidOut_load hc]
  constructor
  · show (c.accessed .must s.must a).Within _
    rw [accessed_eq_reloaded]
    exact EntrySet.reloaded_within hone hn hc hs.must
      fun e _ _ f _ _ hle k hk => resettled_le_ageAfter hs.must hle hk
  · show EntrySet.Within _ (c.accessed .may s.may a)
    rw [accessed_eq_reloaded]
    exact EntrySet.within_reloaded hone hn hs.may
      fun e _ f _ _ hle k hk => ageAfter_le_resettled hd hs.may hle hk

/-- Every derived state is faithful to its histories. -/
theorem tracks_faithful (hc : 1 ≤ c.lines) (t : Journal) :
    (Policy.lruCache c).Tracks t (State.Faithful (.lruCache c) fun _ => 1) where
  blank := .blank _ _ _
  access := by
    intro H s s' a hs h
    obtain rfl := eq_step_of_access h
    refine hs.access (fun _ a h => nodup_load h a) ?_ fun _ hn hcov => ?_
    · show (c.accessed .may s.may a).Distinct
      rw [accessed_eq_reloaded]
      exact EntrySet.distinct_reloaded hs.distinct
    · exact covers_step hc hs.distinct hn hcov a
  join := by
    intro H K s u s' hs hu h
    obtain ⟨hmust, hmay, -⟩ := merge_eq_ok.1 (merge_of_joinTwo (Policy.joinTwo_mergeTwo h))
    exact hs.join hu hmust hmay

/-- **Ages bound positions.**  After every history that a state merges, MUST addresses are in
the cache at their age or further in front, and the addresses of the cache are in MAY at
their position or further in front. -/
theorem positions_bounded (c : LruCache) (hc : 1 ≤ c.lines) (d : Derivation) (s : State)
    (hd : d.Yields (.lruCache c) s) (history : List Int) (hh : history ∈ d.histories) :
    (∀ e ∈ s.must, ∃ k : Nat,
      ((Policy.lruCache c).contents history)[k]? = some e.address ∧ (k : Int) ≤ e.age) ∧
    ∀ (k : Nat) (a : Int), ((Policy.lruCache c).contents history)[k]? = some a →
      ∃ e ∈ s.may, e.address = a ∧ e.age ≤ k := by
  obtain ⟨t, hd⟩ := hd
  obtain ⟨hmust, hmay⟩ := (d.tracked (tracks_faithful hc t) hd).covers history hh
  constructor
  · intro e he
    obtain ⟨f, hf, hfe, hle⟩ := hmust e he
    obtain ⟨k, hk, hage⟩ := mem_laidOut_one.1 hf
    exact ⟨k, hfe ▸ hk, hage ▸ hle⟩
  · intro k a hk
    exact hmay ⟨a, k⟩ (mem_laidOut_one.2 ⟨k, hk, rfl⟩)

theorem positions_bounded_after_join :
    let s : State := ⟨[⟨3, 0⟩, ⟨2, 2⟩], [⟨3, 0⟩, ⟨1, 1⟩, ⟨2, 1⟩], 3⟩
    let d : Derivation := .access (.join (.access (.access .blank 1) 2)
      (.access (.access .blank 2) 3) []) 3
    d.Yields (.lruCache ⟨3⟩) s ∧ [1, 2, 3] ∈ d.histories ∧
      (∀ e ∈ s.must, ∃ k : Nat,
        ((Policy.lruCache ⟨3⟩).contents [1, 2, 3])[k]? = some e.address ∧ (k : Int) ≤ e.age) ∧
      ∀ (k : Nat) (a : Int), ((Policy.lruCache ⟨3⟩).contents [1, 2, 3])[k]? = some a →
        ∃ e ∈ s.may, e.address = a ∧ e.age ≤ k := by
  intro s d
  have hd : d.Yields (.lruCache ⟨3⟩) s := ⟨none, by cbv⟩
  have hh : [1, 2, 3] ∈ d.histories := by simp [d, Derivation.histories]
  exact ⟨hd, hh, positions_bounded ⟨3⟩ (by decide) d s hd [1, 2, 3] hh⟩

end LruCache

end Residency
