/-
Residency/Proofs/ScratchpadAges.lean

Ages in a scratchpad.  The ages of a state bound the bytes at which functions really lie:
after every history that a derivable state merges, a MUST function is in the scratchpad no
further down than its age says, and a function of the scratchpad is in MAY no further down
than it really is (`Scratchpad.bytes_bounded`).

Joins make the byte ranges of entries overlap, although those of functions never do.  A hit
on `f` then has to give `g` one age that is right wherever the two really were.  If `g` was
above `f` it ends where `f` begins at the latest, so in MUST it is pushed to
`age f - size g + size f` at most; if it was below, it stays, and in MAY it begins where `f`
ends at the earliest.  The lemmas on `agedByHit` say just this, for all ages and all
positive sizes, and the derivations need no more.
-/
import Mathlib.Data.List.Induction
import Residency.Proofs.Ageing
import Residency.Proofs.Derivations

namespace Residency

namespace Scratchpad

variable {p : Scratchpad} {kind : SetKind} {s : EntrySet} {a : Int} {contents : Contents}
  {t : Journal}

/-! ### Sizes -/

theorem roundUp_pos {size block : Int} (hsize : 0 < size) (hblock : 0 < block) :
    0 < roundUp size block :=
  Int.lt_of_lt_of_le hsize (le_roundUp hblock size)

/-- The room that is found for a function is its bytes, and these are positive. -/
theorem room_eq_ok {size : Int} (h : (p.room a t).result = .ok size) :
    size = p.bytesOf a ∧ 0 < p.bytesOf a := by
  obtain ⟨rounded, hrounded, h⟩ := Analysis.result_bind_eq_ok.1 h
  obtain ⟨exact, hexact, hrounded⟩ := Analysis.result_bind_eq_ok.1 hrounded
  obtain rfl := Analysis.result_pure_eq_ok.1 h
  obtain rfl := Analysis.result_pure_eq_ok.1 hrounded
  rw [FunctionTable.exactSize] at hexact
  rw [bytesOf]
  cases hf : p.functions.function? a with
  | none =>
    rw [hf] at hexact
    obtain ⟨_, -, hexact⟩ := Analysis.result_bind_eq_ok.1 hexact
    exact absurd hexact (Analysis.result_fail_ne_ok t)
  | some f =>
    rw [hf] at hexact
    obtain rfl := Analysis.result_pure_eq_ok.1 hexact
    exact ⟨rfl, roundUp_pos (roundUp_pos f.size_pos p.functions.blockSize_pos)
      p.geometry.blockSize_pos⟩

theorem bytesOf_nonneg (p : Scratchpad) (a : Int) : 0 ≤ p.bytesOf a := by
  rw [bytesOf]
  split
  · rename_i f _
    exact Int.le_of_lt (roundUp_pos (roundUp_pos f.size_pos p.functions.blockSize_pos)
      p.geometry.blockSize_pos)
  · exact Int.le_refl 0

/-! ### The scratchpad -/

theorem nodup_load (h : contents.Nodup) (a : Int) : (p.load contents a).Nodup := by
  rw [load]
  split
  · exact h
  · have hsub := (List.filter_sublist (p := p.fits)
      (l := (contents.moveToFront a).laidOut p.bytesOf 0)).map fun e => e.address
    exact (Contents.distinct_laidOut p.bytesOf 0 (Contents.nodup_moveToFront a h)).sublist hsub

/-- A function that is too large is not loaded. -/
theorem load_outsized (h : p.capacity < p.bytesOf a) (contents : Contents) :
    p.load contents a = contents := by
  rw [load, if_pos h]

/-- A load moves the function to the front and drops what no longer fits. -/
theorem laidOut_load (h : p.bytesOf a ≤ p.capacity) (contents : Contents) :
    (p.load contents a).laidOut p.bytesOf 0 =
      ((contents.moveToFront a).laidOut p.bytesOf 0).filter
        fun e => e.age + p.bytesOf e.address ≤ p.capacity := by
  rw [load, if_neg (Int.not_lt.2 h)]
  exact Contents.laidOut_fitting p.bytesOf_nonneg p.capacity 0 _

/-! ### The rules -/

section

variable {ageF sizeF ageG sizeG age : Int}

/-- Ranges overlap if each starts before the other ends. -/
theorem overlaps_iff : overlaps ageF sizeF ageG sizeG = true ↔
    ageF < ageG + sizeG ∧ ageG < ageF + sizeF := by
  rw [overlaps, Bool.and_eq_true, decide_eq_true_eq, decide_eq_true_eq]

/-- A function above `f` ends at `f`, and a hit on `f` pushes it no further than this. -/
theorem add_le_agedByHit_must (hG : 0 < sizeG) (hend : age + sizeG ≤ ageF)
    (hle : age ≤ ageG) : age + sizeF ≤ agedByHit .must ageF sizeF ageG sizeG := by
  -- The entry of `g` may overlap `f` although `g` itself lies above it, so all cases arise.
  rw [agedByHit]
  split
  · show age + sizeF ≤ max ageG (sizeF + max (ageF - sizeG) 0)
    omega
  · rename_i hover
    rw [overlaps_iff] at hover
    split <;> omega

/-- A hit makes no MUST entry younger. -/
theorem le_agedByHit_must (hF : 0 < sizeF) :
    ageG ≤ agedByHit .must ageF sizeF ageG sizeG := by
  rw [agedByHit]
  split
  · show ageG ≤ max ageG (sizeF + max (ageF - sizeG) 0)
    omega
  · split <;> omega

/-- A hit on `f` ages no MAY entry by more than the size of `f`. -/
theorem agedByHit_may_le_add (hF : 0 < sizeF) :
    agedByHit .may ageF sizeF ageG sizeG ≤ ageG + sizeF := by
  rw [agedByHit]
  split
  · show min ageF ageG + sizeF ≤ ageG + sizeF
    omega
  · split <;> omega

/-- A function below `f` begins where `f` ends, and a hit on `f` leaves it there. -/
theorem agedByHit_may_le (hbegin : ageF + sizeF ≤ age) (hle : ageG ≤ age) :
    agedByHit .may ageF sizeF ageG sizeG ≤ age := by
  rw [agedByHit]
  split
  · show min ageF ageG + sizeF ≤ age
    omega
  · split <;> omega

end

/-- The age of another entry after an access to `a`. -/
def ageAfter (p : Scratchpad) (kind : SetKind) (s : EntrySet) (a : Int) (e : Entry) : Int :=
  match s.entry? a with
  | none => e.age + p.bytesOf a
  | some hit => agedByHit kind hit.age (p.bytesOf a) e.age (p.bytesOf e.address)

/-- On a miss every entry ages by the bytes of the function. -/
theorem ageAfter_miss (h : s.entry? a = none) (kind : SetKind) (e : Entry) :
    p.ageAfter kind s a e = e.age + p.bytesOf a := by
  rw [ageAfter, h]

/-- On a hit entries age by the rule for hits. -/
theorem ageAfter_hit {hit : Entry} (h : s.entry? a = some hit) (kind : SetKind) (e : Entry) :
    p.ageAfter kind s a e =
      agedByHit kind hit.age (p.bytesOf a) e.age (p.bytesOf e.address) := by
  rw [ageAfter, h]

/-- The rule for MUST is safe: nothing is resettled to a larger age. -/
theorem resettled_le_ageAfter (hs : s.Within (contents.laidOut p.bytesOf 0))
    (ha : 0 < p.bytesOf a) {e f : Entry} (he : 0 < p.bytesOf e.address)
    (hfe : f.address = e.address) (hle : f.age ≤ e.age) {k : Int}
    (hk : Contents.Resettled p.bytesOf (contents.laidOut p.bytesOf 0) a f k) :
    k ≤ p.ageAfter .must s a e := by
  cases h : s.entry? a with
  | none =>
    rw [ageAfter_miss h]
    cases hk with
    | pushed => omega
    | kept => omega
  | some hit =>
    -- `a` is in the scratchpad, at most at the age of its entry
    obtain ⟨g, hg, hgaddr, hgage⟩ := hs hit (EntrySet.entry?_mem h)
    have hga : g.address = a := hgaddr.trans (EntrySet.entry?_address h)
    rw [ageAfter_hit h]
    cases hk with
    | pushed habove =>
      have hend := habove g hg hga
      rw [hfe] at hend
      exact add_le_agedByHit_must he (Int.le_trans hend hgage) hle
    | kept => exact Int.le_trans hle (le_agedByHit_must ha)

/-- The rule for MAY is safe: nothing is resettled to a smaller age. -/
theorem ageAfter_le_resettled (hd : s.Distinct)
    (hs : EntrySet.Within (contents.laidOut p.bytesOf 0) s) (ha : 0 < p.bytesOf a)
    {e f : Entry} (hle : e.age ≤ f.age) {k : Int}
    (hk : Contents.Resettled p.bytesOf (contents.laidOut p.bytesOf 0) a f k) :
    p.ageAfter .may s a e ≤ k := by
  cases hk with
  | pushed =>
    cases h : s.entry? a with
    | none =>
      rw [ageAfter_miss h]
      omega
    | some hit =>
      rw [ageAfter_hit h]
      exact Int.le_trans (agedByHit_may_le_add ha) (by omega)
  | @kept g hg hga hbelow =>
    -- `a` is in the scratchpad, so it is in MAY, at least as young
    obtain ⟨hit, hhit, haddr, hage⟩ := hs g hg
    have h : s.entry? a = some hit := by
      rw [← hga, ← haddr]
      exact hd.entry?_eq hhit
    rw [ageAfter_hit h]
    exact agedByHit_may_le (by omega) hle

/-! ### One access -/

/-- An entry at a new age, if it fits there. -/
def placed (p : Scratchpad) (age : Int) (e : Entry) : Option Entry :=
  if age + p.bytesOf e.address ≤ p.capacity then some ⟨e.address, age⟩ else none

theorem shifted_eq_ok {size : Int} {e : Entry} {o : Option Entry}
    (h : (p.shifted size e t).result = .ok o) :
    o = p.placed (e.age + size) e ∧ 0 < p.bytesOf e.address := by
  obtain ⟨own, hown, h⟩ := Analysis.result_bind_eq_ok.1 h
  obtain ⟨rfl, hpos⟩ := room_eq_ok hown
  refine ⟨?_, hpos⟩
  rw [placed]
  split at h
  · rw [if_neg (by omega)]
    exact (Analysis.eq_of_result_bind_pure h).symm
  · rw [if_pos (by omega)]
    exact (Analysis.result_pure_eq_ok.1 h).symm

theorem moved_eq_ok {hit e : Entry} {size : Int} {o : Option Entry}
    (h : (p.moved kind hit size e t).result = .ok o) :
    o = p.placed (agedByHit kind hit.age size e.age (p.bytesOf e.address)) e ∧
      0 < p.bytesOf e.address := by
  obtain ⟨own, hown, h⟩ := Analysis.result_bind_eq_ok.1 h
  obtain ⟨rfl, hpos⟩ := room_eq_ok hown
  refine ⟨?_, hpos⟩
  rw [placed]
  split at h
  · rw [if_neg (by omega)]
    cases kind with
    | must => exact absurd h (Analysis.result_fail_ne_ok t)
    | may => exact (Analysis.eq_of_result_bind_pure h).symm
  · rw [if_pos (by omega)]
    exact (Analysis.result_pure_eq_ok.1 h).symm

/-- What survives an access is what still fits at its new age. -/
theorem survivors_eq_ok {kept : EntrySet}
    (h : (p.survivors kind s a (p.bytesOf a) t).result = .ok kept) :
    kept = (s.without a).filterMap (fun e => p.placed (p.ageAfter kind s a e) e) ∧
      ∀ e ∈ s.without a, 0 < p.bytesOf e.address := by
  rw [survivors] at h
  cases hhit : s.entry? a with
  | none =>
    rw [hhit] at h
    obtain ⟨_, -, h⟩ := Analysis.result_bind_eq_ok.1 h
    rw [EntrySet.without_eq_self (EntrySet.entry?_eq_none_iff.1 hhit)]
    constructor
    · refine Analysis.eq_filterMap_of_collect (fun e _ o ho => ?_) h
      rw [ageAfter_miss hhit]
      exact (shifted_eq_ok ho).1
    · intro e he
      obtain ⟨o, ho⟩ := Analysis.exists_result_of_collect h e he
      exact (shifted_eq_ok ho).2
  | some hit =>
    rw [hhit] at h
    obtain ⟨_, -, h⟩ := Analysis.result_bind_eq_ok.1 h
    constructor
    · refine Analysis.eq_filterMap_of_collect (fun e _ o ho => ?_) h
      rw [ageAfter_hit hhit]
      exact (moved_eq_ok ho).1
    · intro e he
      obtain ⟨o, ho⟩ := Analysis.exists_result_of_collect h e he
      exact (moved_eq_ok ho).2

/-- An access to a set is an ageing of the general kind, with the bytes of functions. -/
theorem accessed_eq_ok {result : EntrySet}
    (h : (p.accessed kind s a (p.bytesOf a) t).result = .ok result) :
    result = s.reloaded p.bytesOf p.capacity (p.ageAfter kind s a) a ∧
      ∀ e ∈ s.without a, 0 < p.bytesOf e.address := by
  obtain ⟨kept, hkept, h⟩ := Analysis.result_bind_eq_ok.1 h
  obtain ⟨rfl, hpos⟩ := survivors_eq_ok hkept
  exact ⟨(Analysis.eq_of_result_bind_pure h).symm, hpos⟩

/-- What an access does, if it succeeds: it ignores a function that is too large, and otherwise
both sets are reloaded. -/
theorem access_cases {s s' : State} (h : (p.access s a t).result = .ok s') :
    0 < p.bytesOf a ∧
      ((p.capacity < p.bytesOf a ∧ s' = s) ∨
        (p.bytesOf a ≤ p.capacity ∧
          s'.must = s.must.reloaded p.bytesOf p.capacity (p.ageAfter .must s.must a) a ∧
          s'.may = s.may.reloaded p.bytesOf p.capacity (p.ageAfter .may s.may a) a ∧
          (∀ e ∈ s.must.without a, 0 < p.bytesOf e.address) ∧
          s'.capacity = s.capacityOr p.capacity)) := by
  obtain ⟨_, -, h⟩ := Analysis.result_bind_eq_ok.1 h
  obtain ⟨size, hsize, h⟩ := Analysis.result_bind_eq_ok.1 h
  obtain ⟨rfl, hpos⟩ := room_eq_ok hsize
  refine ⟨hpos, ?_⟩
  split at h
  · -- a function that is larger than the scratchpad
    refine .inl ⟨‹_›, ?_⟩
    rw [outsized] at h
    split at h
    · obtain ⟨_, -, h⟩ := Analysis.result_bind_eq_ok.1 h
      exact (Analysis.eq_of_result_bind_pure h).symm
    · obtain ⟨_, -, h⟩ := Analysis.result_bind_eq_ok.1 h
      exact absurd h (Analysis.result_fail_ne_ok t)
  · obtain ⟨must, hmust, h⟩ := Analysis.result_bind_eq_ok.1 h
    obtain ⟨may, hmay, h⟩ := Analysis.result_bind_eq_ok.1 h
    obtain ⟨rfl, hpos⟩ := accessed_eq_ok hmust
    obtain ⟨rfl, -⟩ := accessed_eq_ok hmay
    obtain rfl := Analysis.eq_of_result_bind_pure h
    exact .inr ⟨Int.not_lt.1 ‹_›, rfl, rfl, hpos, rfl⟩

/-- A merge joins both sets, and a state without a capacity takes that of the scratchpad. -/
theorem merge_eq_ok {s u s' : State} : p.merge s u = .ok s' ↔
    s.must.joinMust u.must = .ok s'.must ∧ s.may.joinMay u.may = .ok s'.may ∧
      s'.capacity = s.capacityOr p.capacity :=
  State.join_eq_ok

theorem merge_of_joinTwo {s u s' : State} (h : (p.joinTwo s u t).result = .ok s') :
    p.merge s u = .ok s' := by
  obtain ⟨joined, hjoined, h⟩ := Analysis.result_bind_eq_ok.1 h
  rw [← Analysis.eq_of_result_bind_pure h]
  exact hjoined

/-! ### Derivable states -/

/-- An access covers the scratchpad after the load, if the state covers it before. -/
theorem covers_access {s s' : State} (hd : s.may.Distinct) (hn : contents.Nodup)
    (hs : s.Covers (contents.laidOut p.bytesOf 0)) (h : (p.access s a t).result = .ok s') :
    s'.Covers ((p.load contents a).laidOut p.bytesOf 0) := by
  obtain ⟨ha, ⟨hlarge, rfl⟩ | ⟨hfits, hmust, hmay, hpos, -⟩⟩ := access_cases h
  · rw [load_outsized hlarge]
    exact hs
  · rw [laidOut_load hfits]
    constructor
    · rw [hmust]
      refine EntrySet.reloaded_within p.bytesOf_nonneg hn hfits hs.must ?_
      intro e he hea f _ hfe hle k hk
      exact resettled_le_ageAfter hs.must ha (hpos e (EntrySet.mem_without.2 ⟨he, hea⟩)) hfe hle hk
    · rw [hmay]
      refine EntrySet.within_reloaded p.bytesOf_nonneg hn hs.may ?_
      intro e _ f _ _ hle k hk
      exact ageAfter_le_resettled hd hs.may ha hle hk

/-- Every derived state is faithful to its histories. -/
theorem tracks_faithful (p : Scratchpad) (t : Journal) :
    (Policy.scratchpad p).Tracks t (State.Faithful (.scratchpad p) p.bytesOf) where
  blank := .blank _ _ _
  access := by
    intro H s s' a hs h
    refine hs.access (fun _ a h => nodup_load h a) ?_ fun _ hn hcov => ?_
    · obtain ⟨-, ⟨-, rfl⟩ | ⟨-, -, hmay, -⟩⟩ := access_cases h
      · exact hs.distinct
      · rw [hmay]
        exact EntrySet.distinct_reloaded hs.distinct
    · exact covers_access hs.distinct hn hcov h
  join := by
    intro H K s u s' hs hu h
    obtain ⟨hmust, hmay, -⟩ := merge_eq_ok.1 (merge_of_joinTwo (Policy.joinTwo_mergeTwo h))
    exact hs.join hu hmust hmay

/-- **Ages bound bytes.**  After every history that a state merges, MUST functions are in the
scratchpad at their age or further up, and the functions of the scratchpad are in MAY at
the byte where they begin or further up. -/
theorem bytes_bounded (p : Scratchpad) (d : Derivation) (s : State)
    (hd : d.Yields (.scratchpad p) s) (history : List Int) (hh : history ∈ d.histories) :
    (∀ e ∈ s.must, ∃ newer older,
      (Policy.scratchpad p).contents history = newer ++ e.address :: older ∧
        (newer.map p.bytesOf).sum ≤ e.age) ∧
    ∀ newer a older, (Policy.scratchpad p).contents history = newer ++ a :: older →
      ∃ e ∈ s.may, e.address = a ∧ e.age ≤ (newer.map p.bytesOf).sum := by
  obtain ⟨t, hd⟩ := hd
  obtain ⟨hmust, hmay⟩ := (d.tracked (tracks_faithful p t) hd).covers history hh
  constructor
  · intro e he
    obtain ⟨f, hf, hfe, hle⟩ := hmust e he
    obtain ⟨newer, older, hcontents, hage⟩ := Contents.mem_laidOut_iff.1 hf
    refine ⟨newer, older, hfe ▸ hcontents, ?_⟩
    rw [hage, Int.zero_add] at hle
    exact hle
  · intro newer a older hcontents
    refine hmay ⟨a, (newer.map p.bytesOf).sum⟩ (Contents.mem_laidOut_iff.2 ?_)
    exact ⟨newer, older, hcontents, (Int.zero_add _).symm⟩

/-- A scratchpad that has room for three functions of different sizes. -/
def mixedSizes : Scratchpad where
  geometry := ⟨32, 4, true, .lru, by decide, by decide, by decide⟩
  functions := ⟨4, [⟨1, 8, none, by decide⟩, ⟨2, 3, none, by decide⟩, ⟨3, 12, none, by decide⟩],
    by decide, by decide⟩

-- The join loses the order of the functions, so the hit on 2 meets overlaps in both sets.
theorem bytes_bounded_after_join :
    let s : State := ⟨[⟨2, 0⟩, ⟨3, 12⟩, ⟨1, 16⟩], [⟨2, 0⟩, ⟨1, 4⟩, ⟨3, 4⟩], 32⟩
    let d : Derivation := .access (.join (.access (.access (.access .blank 1) 2) 3)
      (.access (.access (.access .blank 3) 2) 1) []) 2
    d.Yields (.scratchpad mixedSizes) s ∧ [1, 2, 3, 2] ∈ d.histories ∧
      (∀ e ∈ s.must, ∃ newer older,
        (Policy.scratchpad mixedSizes).contents [1, 2, 3, 2] = newer ++ e.address :: older ∧
          (newer.map mixedSizes.bytesOf).sum ≤ e.age) ∧
      ∀ newer a older,
        (Policy.scratchpad mixedSizes).contents [1, 2, 3, 2] = newer ++ a :: older →
          ∃ e ∈ s.may, e.address = a ∧ e.age ≤ (newer.map mixedSizes.bytesOf).sum := by
  intro s d
  have hd : d.Yields (.scratchpad mixedSizes) s := ⟨none, by cbv⟩
  have hh : [1, 2, 3, 2] ∈ d.histories := by simp [d, Derivation.histories]
  exact ⟨hd, hh, bytes_bounded mixedSizes d s hd [1, 2, 3, 2] hh⟩

end Scratchpad

end Residency
