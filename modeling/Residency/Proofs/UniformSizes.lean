/-
Residency/Proofs/UniformSizes.lean

Functions of one size.  If all functions take the same number of bytes, a scratchpad is a
cache with as many lines as functions fit into it: along every derivation its sets are those
of the cache with every age multiplied by the size (`Scratchpad.eq_scaled_cache`).

Entries of one size overlap only if their ages are equal.  The rules for overlapping entries
are then those of the cache at equal ages, but for one case: a hit on a MUST entry of age 0
pushes another entry of age 0 down in a scratchpad, and leaves it there in a cache.  The case
does not arise, since only one address can be in the first line of a cache
(`LruCache.address_eq_of_age_nonpos`).
-/
import Residency.Proofs.Inclusion

namespace Residency

/-! ### Multiples -/

/-- An age in bytes, from an age in functions of the given size. -/
def scaled (size : Int) : WithTop Int → WithTop Int :=
  WithTop.map (· * size)

section

variable {size : Int} (hsize : 1 ≤ size)
include hsize

theorem monotone_scaled : Monotone (scaled size) :=
  Monotone.withTop_map fun _ _ hle => Int.mul_le_mul_of_nonneg_right hle (by omega)

/-- A function fits in the scratchpad if and only if its line fits in the cache. -/
theorem succ_mul_le_iff {capacity k : Int} :
    k * size + size ≤ capacity ↔ k + 1 ≤ capacity.fdiv size := by
  rw [Int.fdiv_eq_ediv_of_nonneg _ (by omega), Int.le_ediv_iff_mul_le (by omega), Int.add_mul,
    Int.one_mul]

/-- What fits into the scratchpad fits into the cache. -/
theorem upTo_scaled (capacity k : Int) : upTo (capacity - size) (k * size : Int) =
    scaled size (upTo (capacity.fdiv size - 1) k) := by
  have hiff : k * size + size ≤ capacity ↔ k + 1 ≤ capacity.fdiv size := succ_mul_le_iff hsize
  by_cases hk : k + 1 ≤ capacity.fdiv size
  · rw [upTo_of_le (by omega), upTo_of_le (by omega)]
    rfl
  · rw [upTo_of_lt (by omega), upTo_of_lt (by omega)]
    rfl

end

/-! ### One address in the first line -/

/-- Only one address of MUST can be on top of the cache. -/
theorem LruCache.address_eq_of_age_nonpos {c : LruCache} {H : Set (List Int)} {s : State}
    (hs : s.Packed (.lruCache c) (fun _ => 1) c.lines H) {e f : Entry} (he : e ∈ s.must)
    (hf : f ∈ s.must) (heage : e.age ≤ 0) (hfage : f.age ≤ 0) : e.address = f.address := by
  obtain ⟨history, hh⟩ := hs.nonempty
  have hmust := (hs.faithful.covers history hh).must
  have hfirst : ∀ {x : Entry}, x ∈ s.must → x.age ≤ 0 →
      ((Policy.lruCache c).contents history)[0]? = some x.address := by
    intro x hx hage
    obtain ⟨y, hy, hyx, hle⟩ := hmust x hx
    obtain ⟨k, hk, hyk⟩ := mem_laidOut_one.1 hy
    obtain rfl : k = 0 := by omega
    rw [hk, hyx]
  exact Option.some.inj ((hfirst he heage).symm.trans (hfirst hf hfage))

namespace Scratchpad

variable {p : Scratchpad} {size : Int} {kind : SetKind} {a b : Int}

/-! ### The rules -/

/-- At ages that are multiples of the size the rule of the scratchpad is that of the cache. -/
theorem agedByHit_scaled {old age : Int} (hsize : 1 ≤ size)
    (hfirst : kind = .must → old = age → 1 ≤ age) :
    agedByHit kind (old * size) size (age * size) size =
      LruCache.agedByHit kind old ⟨b, age⟩ * size := by
  have hstep : ∀ {i j : Int}, i < j → i * size + size ≤ j * size := by
    intro i j hij
    have hmul : (i + 1) * size ≤ j * size := Int.mul_le_mul_of_nonneg_right hij (by omega)
    rwa [Int.add_mul, Int.one_mul] at hmul
  rw [agedByHit, LruCache.agedByHit]
  rcases Int.lt_trichotomy age old with hlt | rfl | hlt
  · have hle := hstep hlt
    rw [if_neg (by rw [overlaps_iff]; omega), if_pos (by omega), if_pos (by simp [hlt])]
    rw [Int.add_mul, Int.one_mul]
  · rw [if_pos (by rw [overlaps_iff]; omega)]
    cases kind with
    | must =>
      have hle : 0 * size + size ≤ age * size := hstep (hfirst rfl rfl)
      rw [if_neg (by simp)]
      show max (age * size) (size + max (age * size - size) 0) = age * size
      omega
    | may =>
      rw [if_pos (by simp), Int.add_mul, Int.one_mul]
      show min (age * size) (age * size) + size = age * size + size
      omega
  · have hle := hstep hlt
    rw [if_neg (by rw [overlaps_iff]; omega), if_neg (by omega), if_neg (by simp; omega)]

/-- Ages in the scratchpad are those in the cache, times the size. -/
theorem ageAfter_scaled {s x : EntrySet} {age : Int} (hsize : 1 ≤ size) (ha : p.bytesOf a = size)
    (hb : p.bytesOf b = size) (hages : s.ageOf a = scaled size (x.ageOf a))
    (hfirst : kind = .must → x.ageOf a = age → 1 ≤ age) :
    p.ageAfter kind s a ⟨b, age * size⟩ = LruCache.ageAfter kind x a ⟨b, age⟩ * size := by
  cases hx : x.ageOf a with
  | top =>
    rw [hx] at hages
    rw [ageAfter_of_top hages, LruCache.ageAfter_of_top hx, ha, Int.add_mul, Int.one_mul]
  | coe old =>
    rw [hx] at hages hfirst
    rw [ageAfter_of_coe hages, LruCache.ageAfter_of_coe hx, ha, hb]
    exact agedByHit_scaled hsize fun hkind heq => hfirst hkind (by rw [heq])

/-! ### Two runs -/

/-- The cache with as many lines as functions of the given size fit into the scratchpad. -/
def cacheOf (p : Scratchpad) (size : Int) : LruCache :=
  ⟨p.capacity.fdiv size⟩

theorem one_le_lines (hsize : 1 ≤ size) (hle : size ≤ p.capacity) :
    1 ≤ (p.cacheOf size).lines := by
  have hone : 0 + 1 ≤ p.capacity.fdiv size := (succ_mul_le_iff hsize).1 (by omega)
  exact hone

/-- The cache has no more lines than the scratchpad has bytes. -/
theorem lines_le_capacity (hsize : 1 ≤ size) : (p.cacheOf size).lines ≤ p.capacity := by
  have hcapacity : 0 < p.capacity := p.geometry.capacity_pos
  rw [cacheOf, Int.fdiv_eq_ediv_of_nonneg _ (by omega)]
  exact Int.ediv_le_self _ (by omega)

/-- The scratchpad and the cache go in step, with the ages of the one scaled to those of the other.
-/
theorem parallel_scaled (hsize : 1 ≤ size) (hle : size ≤ p.capacity) (t u : Journal) :
    (Policy.scratchpad p).Parallel (.lruCache (p.cacheOf size)) t u (fun a => p.bytesOf a = size)
      fun s x => State.ImageOf (.scratchpad p) (.lruCache (p.cacheOf size))
          (fun a => p.bytesOf a = size) (fun _ => scaled size) s x ∧
        ∃ H, x.Packed (.lruCache (p.cacheOf size)) (fun _ => 1) (p.cacheOf size).lines H where
  blank := ⟨.blank fun _ => rfl, _, (LruCache.tracks_packed (one_le_lines hsize hle) u).blank⟩
  access := by
    rintro s x s' x' a ha ⟨h, H, hpacked⟩ hs hx
    have hx' := Policy.regular_access h.right hx
    refine ⟨?_, _, (LruCache.tracks_packed (one_le_lines hsize hle) u).access hpacked hx⟩
    obtain rfl := LruCache.eq_step_of_access hx
    refine h.of_reloaded (fun _ => rfl) (Policy.regular_access h.left hs) hx' ha ?_
      (entries_access (ha.trans_le hle) hs) (LruCache.entries_step _ x a) ?_ ?_
    · show scaled size ((0 : Int) : WithTop Int) = _
      rw [scaled, WithTop.map_coe, Int.zero_mul]
    · exact fun kind b k _ _ hnone => absurd hnone WithTop.coe_ne_top
    · intro kind b k l hba hk hl
      obtain rfl : k * size = l := WithTop.coe_inj.1 hl
      have hmem := (EntrySet.ageOf_eq_coe_iff (h.right.distinct kind)).1 hk
      have hb : p.bytesOf b = size := h.among kind _ hmem
      rw [ageAfter_scaled hsize ha hb (h.ages kind a), hb, upTo_scaled hsize]
      · rfl
      · rintro rfl hka
        -- Two addresses cannot both be in the first line.
        by_contra hfirst
        have hmem' := (EntrySet.ageOf_eq_coe_iff (h.right.distinct .must)).1 hka
        exact hba (LruCache.address_eq_of_age_nonpos hpacked hmem hmem' (by dsimp only; omega)
          (by dsimp only; omega))
  join := by
    rintro s x v y s' x' ⟨h, H, hpacked⟩ ⟨h', K, hpacked'⟩ hs hx
    refine ⟨h.join (fun _ => monotone_scaled hsize) h' hs hx, H ∪ K, ?_⟩
    exact (LruCache.tracks_packed (one_le_lines hsize hle) u).join hpacked hpacked' hx

end Scratchpad

/-! ### Equal sizes -/

/-- The sets are the same, with the ages scaled. -/
theorem State.ImageOf.entries_eq_map {p q : Policy} {A : Int → Prop} {size : Int} {s x : State}
    (hsize : 1 ≤ size) (h : ImageOf p q A (fun _ => scaled size) s x) (kind : SetKind) :
    s.entries kind = (x.entries kind).map fun e => ⟨e.address, e.age * size⟩ := by
  apply (h.left.ascending kind).eq_of_mem_iff
  · refine List.pairwise_map.2 ((h.right.ascending kind).imp fun {e f} hef => ?_)
    rcases hef with hlt | ⟨heq, hlt⟩
    · exact .inl (Int.mul_lt_mul_of_pos_right hlt (by omega))
    · exact .inr ⟨congrArg (· * size) heq, hlt⟩
  · intro e
    rw [EntrySet.mem_iff_ageOf (h.left.distinct kind), h.ages, List.mem_map]
    constructor
    · intro hage
      cases hx : (x.entries kind).ageOf e.address with
      | top =>
        rw [hx] at hage
        exact absurd hage WithTop.top_ne_coe
      | coe k =>
        rw [hx] at hage
        refine ⟨⟨e.address, k⟩, (EntrySet.ageOf_eq_coe_iff (h.right.distinct kind)).1 hx, ?_⟩
        rw [Entry.mk.injEq]
        exact ⟨rfl, WithTop.coe_inj.1 hage⟩
    · rintro ⟨f, hf, rfl⟩
      rw [(EntrySet.mem_iff_ageOf (h.right.distinct kind)).1 hf]
      rfl

/-- Verdicts depend on the addresses in the sets only. -/
theorem State.verdict_eq_of_addresses {s x : State}
    (h : ∀ kind, (s.entries kind).addresses = (x.entries kind).addresses) (a : Int) :
    s.verdict a = x.verdict a := by
  have hholds : ∀ kind, (s.entries kind).holds a = (x.entries kind).holds a := by
    intro kind
    rw [Bool.eq_iff_iff, EntrySet.holds_iff, EntrySet.holds_iff, h]
  have hmust : s.must.holds a = x.must.holds a := hholds .must
  have hmay : s.may.holds a = x.may.holds a := hholds .may
  rw [verdict, verdict, hmust, hmay]

/-- **Equal sizes.**  If all functions that a derivation accesses take the same number of bytes in
the scratchpad, then its sets are those of the cache with as many lines as such functions fit,
at ages multiplied by the size, and all verdicts are equal. -/
theorem Scratchpad.eq_scaled_cache (p : Scratchpad) (size : Int) (hsize : 1 ≤ size)
    (hle : size ≤ p.capacity) (d : Derivation) (hd : d.Over fun a => p.bytesOf a = size) :
    (∀ t : Threshold, t.Bears p.capacity → (d.state (.scratchpad p)).Succeeds t ∧
      (d.state (.lruCache ⟨p.capacity.fdiv size⟩)).Succeeds t) ∧
    ∀ s x, d.Yields (.scratchpad p) s → d.Yields (.lruCache ⟨p.capacity.fdiv size⟩) x →
      s.must = x.must.map (fun e => ⟨e.address, e.age * size⟩) ∧
      s.may = x.may.map (fun e => ⟨e.address, e.age * size⟩) ∧
      ∀ a, s.verdict a = x.verdict a := by
  constructor
  · intro t ht
    have hadmits : d.Over p.Admits := by
      intro history hh a ha
      have hbytes := hd history hh a ha
      rw [Admits, hbytes]
      omega
    have hlines := one_le_lines hsize hle
    exact ⟨state_succeeds ht hadmits,
      LruCache.state_succeeds hlines (ht.mono (by omega) (lines_le_capacity hsize)) d⟩
  · rintro s x ⟨t, hs⟩ ⟨u, hx⟩
    have himage := (d.parallel (parallel_scaled hsize hle t u) hd hs hx).1
    refine ⟨himage.entries_eq_map hsize .must, himage.entries_eq_map hsize .may, ?_⟩
    apply State.verdict_eq_of_addresses
    intro kind
    rw [himage.entries_eq_map hsize kind, EntrySet.addresses, List.map_map]
    rfl

/-- A scratchpad with blocks so large that every function takes one of them. -/
def Scratchpad.oneSize : Scratchpad :=
  { Scratchpad.mixedSizes with
    geometry := ⟨48, 16, true, .lru, by decide, Int.ofNat_succ_pos 15, by decide⟩ }

-- After the join the functions that are not hit have one age in MUST, and one in MAY.
theorem Scratchpad.eq_scaled_cache_after_join :
    let loaded : State := ⟨[⟨2, 0⟩, ⟨1, 32⟩, ⟨3, 32⟩], [⟨2, 0⟩, ⟨1, 16⟩, ⟨3, 16⟩], 48⟩
    let cached : State := ⟨[⟨2, 0⟩, ⟨1, 2⟩, ⟨3, 2⟩], [⟨2, 0⟩, ⟨1, 1⟩, ⟨3, 1⟩], 3⟩
    Derivation.bothOrders.Over (fun a => Scratchpad.oneSize.bytesOf a = 16) ∧
    Derivation.bothOrders.Yields (.scratchpad .oneSize) loaded ∧
    Derivation.bothOrders.Yields (.lruCache ⟨Scratchpad.oneSize.capacity.fdiv 16⟩) cached ∧
    loaded.must = cached.must.map (fun e => ⟨e.address, e.age * 16⟩) ∧
    loaded.may = cached.may.map (fun e => ⟨e.address, e.age * 16⟩) ∧
    ∀ a, loaded.verdict a = cached.verdict a := by
  intro loaded cached
  have hover : Derivation.bothOrders.Over fun a => Scratchpad.oneSize.bytesOf a = 16 :=
    Derivation.over_bothOrders (by decide)
  have hloaded : Derivation.bothOrders.Yields (.scratchpad .oneSize) loaded := ⟨none, by rfl⟩
  have hcached : Derivation.bothOrders.Yields
      (.lruCache ⟨Scratchpad.oneSize.capacity.fdiv 16⟩) cached := ⟨none, by rfl⟩
  exact ⟨hover, hloaded, hcached,
    (eq_scaled_cache .oneSize 16 (by decide) (by decide) _ hover).2 _ _ hloaded hcached⟩

end Residency
