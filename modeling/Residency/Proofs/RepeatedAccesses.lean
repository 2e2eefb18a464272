/-
Residency/Proofs/RepeatedAccesses.lean

Repeated accesses.  After an access the address has the top of both sets to itself: in a cache
it has age 0 and every other entry an age of 1 at least, in a scratchpad nothing else begins
within the bytes of the function, and in a direct-mapped cache nothing else has its slot.  So
a second access to it finds nothing to age and nothing to evict, and leaves the state as it is
(`Policy.access_twice`).

Joins leave several entries at one age, and entries that overlap.  Where a hit meets an entry
at the same age, MAY ages it and MUST does not; two MUST entries of age 0 would therefore stay
side by side.  They do not arise, since only one address can be in the first line of a cache.
In a scratchpad the rules for overlapping entries are enough by themselves: whatever shared a
byte with the function begins behind it afterwards.
-/
import Residency.Proofs.HitAges
import Residency.Proofs.OutsizedFunctions
import Residency.Proofs.UniformSizes

namespace Residency

variable {t : Journal}

/-- A regular state has the capacity of its memory. -/
theorem State.Regular.capacityOr_eq {p : Policy} {s : State} (hs : s.Regular p) :
    s.capacityOr p.capacity = s.capacity :=
  (capacityOr_self hs.capacity).trans hs.capacity.symm

/-! ### The top of a set -/

namespace EntrySet

variable {size : Int → Int} {room a k : Int} {age : Entry → Int} {s : EntrySet}

/-- The address is at the top, and everything else begins at age `k` or further down. -/
def Topped (k a : Int) (s : EntrySet) : Prop :=
  ⟨a, 0⟩ ∈ s ∧ ∀ e ∈ s, e = ⟨a, 0⟩ ∨ k ≤ e.age

/-- Below the top all ages leave room for it. -/
theorem Topped.le_age (hs : s.Topped k a) {e : Entry} (he : e ∈ s) (hea : e.address ≠ a) :
    k ≤ e.age := by
  rcases hs.2 e he with rfl | hle
  · exact absurd rfl hea
  · exact hle

/-- An access puts its address on top, if the others age past it. -/
theorem topped_reloaded
    (hage : ∀ e ∈ s, e.address ≠ a → age e + size e.address ≤ room → k ≤ age e) :
    (s.reloaded size room age a).Topped k a := by
  refine ⟨mem_reloaded.2 (.inl rfl), fun e he => ?_⟩
  rcases mem_reloaded.1 he with rfl | ⟨f, hf, hfa, hfit, rfl⟩
  · exact .inl rfl
  · exact .inr (hage f hf hfa hfit)

/-- Nothing changes if the address is at the top and the other entries keep their ages and fit. -/
theorem reloaded_eq_self (hasc : s.Ascending) (hd : s.Distinct) (ha : ⟨a, 0⟩ ∈ s)
    (hage : ∀ e ∈ s, e.address ≠ a → age e = e.age)
    (hfits : ∀ e ∈ s, e.address ≠ a → e.age + size e.address ≤ room) :
    s.reloaded size room age a = s := by
  refine (ascending_reloaded hd).eq_of_mem_iff hasc fun e => ?_
  rw [mem_reloaded]
  constructor
  · rintro (rfl | ⟨f, hf, hfa, -, rfl⟩)
    · exact ha
    · rw [hage f hf hfa]
      exact hf
  · intro he
    by_cases hea : e.address = a
    · exact .inl (hd.eq_of_address he ha hea)
    · have hsame := hage e he hea
      exact .inr ⟨e, he, hea, by rw [hsame]; exact hfits e he hea, by rw [hsame]⟩

/-- What is left after an access fits. -/
theorem fits_of_mem_reloaded {e : Entry} (he : e ∈ s.reloaded size room age a)
    (hea : e.address ≠ a) : e.age + size e.address ≤ room := by
  rcases mem_reloaded.1 he with rfl | ⟨f, -, -, hfit, rfl⟩
  · exact absurd rfl hea
  · exact hfit

end EntrySet

/-! ### Fully associative caches -/

namespace LruCache

variable {c : LruCache} {kind : SetKind} {s : EntrySet} {a : Int}

/-- No age is negative, whatever the number of lines is. -/
theorem tracks_nonneg (c : LruCache) (t : Journal) : (Policy.lruCache c).Tracks t fun _ s =>
    s.Regular (.lruCache c) ∧ ∀ kind, ∀ e ∈ s.entries kind, 0 ≤ e.age where
  blank := ⟨.blank _, by rintro (_ | _) e he <;> cases he⟩
  access := by
    rintro _ s s' a ⟨hregular, hs⟩ h
    refine ⟨Policy.regular_access hregular h, fun kind e he => ?_⟩
    obtain rfl := eq_step_of_access h
    rw [entries_step] at he
    rcases EntrySet.mem_reloaded.1 he with rfl | ⟨f, hf, -, -, rfl⟩
    · exact Int.le_refl 0
    · exact ageAfter_nonneg (hs kind) a hf
  join := by
    rintro _ _ s u s' ⟨hs, hs'⟩ ⟨hu, hu'⟩ h
    refine ⟨Policy.regular_joinTwo hs hu h, fun kind e he => ?_⟩
    exact (Policy.mem_or_mem_of_joinTwo hs hu h kind he).elim (hs' kind e) (hu' kind e)

/-- Every other entry ages past the top of a cache. -/
theorem one_le_ageAfter (hs : ∀ e ∈ s, 0 ≤ e.age)
    (hfirst : kind = .must → ∀ e ∈ s, ∀ f ∈ s, e.age ≤ 0 → f.age ≤ 0 → e.address = f.address)
    {e : Entry} (he : e ∈ s) (hea : e.address ≠ a) : 1 ≤ ageAfter kind s a e := by
  have hage := hs e he
  cases h : s.entry? a with
  | none =>
    rw [ageAfter_miss h]
    omega
  | some hit =>
    have hmem := EntrySet.entry?_mem h
    have hold := hs hit hmem
    rw [ageAfter_hit h, agedByHit]
    cases kind with
    | may =>
      simp only [true_and]
      split <;> omega
    | must =>
      -- An entry that is not aged although it has age 0 would be a second one in the first line.
      have hsecond : hit.age ≤ e.age → 1 ≤ e.age := by
        intro hle
        by_contra hzero
        have haddress := hfirst rfl e he hit hmem (by omega) (by omega)
        exact hea (haddress.trans (EntrySet.entry?_address h))
      simp only [reduceCtorEq, false_and, or_false]
      split <;> omega

/-- After a step the address is on top of both sets. -/
theorem topped_step {s : State} (hs : (Policy.lruCache c).Derivable s) (a : Int)
    (kind : SetKind) : ((c.step s a).entries kind).Topped 1 a := by
  obtain ⟨d, t, hd⟩ := hs
  have hnonneg := (d.tracked (c.tracks_nonneg t) hd).2
  rw [entries_step]
  refine EntrySet.topped_reloaded fun e he hea hfit => ?_
  by_cases hc : 1 ≤ c.lines
  · have hpacked := d.tracked (tracks_packed hc t) hd
    refine one_le_ageAfter (hnonneg kind) ?_ he hea
    rintro rfl e he f hf
    exact address_eq_of_age_nonpos hpacked he hf
  · -- Without lines nothing but the address stays.
    have hage : 0 ≤ ageAfter kind (s.entries kind) a e := ageAfter_nonneg (hnonneg kind) a he
    omega

/-- An access to the address on top of a cache ages nothing. -/
theorem ageAfter_of_topped (hd : s.Distinct) (hs : s.Topped 1 a) {e : Entry} (he : e ∈ s)
    (hea : e.address ≠ a) : ageAfter kind s a e = e.age := by
  have hle := hs.le_age he hea
  rw [ageAfter_hit (hd.entry?_eq hs.1), agedByHit, if_neg]
  dsimp only
  omega

theorem aging_eq (kind : SetKind) (s : EntrySet) (a : Int) :
    aging kind s a = (s.without a).map fun e => (e, ageAfter kind s a e) := by
  rw [aging]
  cases h : s.entry? a with
  | none =>
    rw [EntrySet.without_eq_self (EntrySet.entry?_eq_none_iff.1 h)]
    simp only [ageAfter_miss h]
  | some hit => simp only [ageAfter_hit h]

/-- Nothing is evicted where everything still fits. -/
theorem evicted_eq_nil (h : ∀ e ∈ s, e.address ≠ a → ageAfter kind s a e + 1 ≤ c.lines) :
    c.evicted kind s a = [] := by
  rw [evicted, aging_eq, List.filterMap_map, List.filterMap_eq_nil_iff]
  intro e he
  obtain ⟨hes, hea⟩ := EntrySet.mem_without.1 he
  have hfits := h e hes hea
  exact if_pos (by omega)

/-- An access that neither evicts nor changes anything succeeds if the state could be reported
before. -/
theorem access_of_fixed {s s' : State} (h : (c.access s a t).result = .ok s')
    (hfixed : c.step s' a = s') (hevicted : ∀ kind, c.evicted kind (s'.entries kind) a = []) :
    (c.access s' a t).result = .ok s' := by
  obtain ⟨_, hmust, hrest⟩ := Analysis.result_bind_eq_ok.1 h
  obtain ⟨_, hmay, -⟩ := Analysis.result_bind_eq_ok.1 hrest
  have hreport : ∀ kind : SetKind, (c.reportAccess kind (s.entries kind) a t).result = .ok () →
      (c.step s a).entries kind = c.accessed kind (s.entries kind) a →
      (c.step s' a).entries kind = c.accessed kind (s'.entries kind) a →
      (c.reportAccess kind (s'.entries kind) a t).result = .ok () := by
    intro kind hkind hstep hstep'
    obtain ⟨_, -, hset⟩ := Analysis.result_bind_eq_ok.1 hkind
    rw [← hstep, ← eq_step_of_access h] at hset
    rw [reportAccess, hevicted kind, ← hstep', hfixed]
    exact hset
  refine Analysis.result_bind_eq_ok.2 ⟨(), hreport .must hmust rfl rfl, ?_⟩
  refine Analysis.result_bind_eq_ok.2 ⟨(), hreport .may hmay rfl rfl, ?_⟩
  rw [hfixed]
  rfl

/-- After an access to a cache the address is on top, and the same access again changes nothing. -/
theorem owns_top {s s' : State} (hs : (Policy.lruCache c).Derivable s)
    (hregular : s'.Regular (.lruCache c)) (h : (c.access s a t).result = .ok s') :
    (∀ kind, (s'.entries kind).Topped 1 a) ∧ (c.access s' a t).result = .ok s' := by
  have htopped : ∀ kind, (s'.entries kind).Topped 1 a := by
    intro kind
    rw [eq_step_of_access h]
    exact topped_step hs a kind
  have hfits : ∀ kind, ∀ e ∈ s'.entries kind, e.address ≠ a → e.age + 1 ≤ c.lines := by
    intro kind e he hea
    rw [eq_step_of_access h, entries_step] at he
    exact EntrySet.fits_of_mem_reloaded he hea
  have hages : ∀ kind, ∀ e ∈ s'.entries kind, e.address ≠ a →
      ageAfter kind (s'.entries kind) a e = e.age :=
    fun kind e => ageAfter_of_topped (hregular.distinct kind) (htopped kind)
  have hfixed : c.step s' a = s' := by
    refine State.eq_of_entries (fun kind => ?_) ?_
    · rw [entries_step]
      exact EntrySet.reloaded_eq_self (hregular.ascending kind) (hregular.distinct kind)
        (htopped kind).1 (hages kind) (hfits kind)
    · exact hregular.capacityOr_eq
  refine ⟨htopped, access_of_fixed h hfixed fun kind => evicted_eq_nil fun e he hea => ?_⟩
  rw [hages kind e he hea]
  exact hfits kind e he hea

end LruCache

/-! ### Direct-mapped caches -/

namespace DirectMapped

variable {c : DirectMapped} {s : EntrySet} {a : Int}

/-- After an access the slot of the address holds the address alone. -/
theorem occupants_accessed (c : DirectMapped) (s : EntrySet) (a : Int) :
    c.occupants (c.accessed s a) a = [c.slotEntry a] := by
  -- What had the slot has been filtered out, and the order of one entry is no question.
  refine List.perm_singleton.1 (((EntrySet.sorted_perm _).filter _).trans ?_)
  rw [List.filter_append, List.filter_filter]
  simp [slotEntry]

/-- An access to the only address in its slot changes nothing. -/
theorem accessed_of_occupants (hasc : s.Ascending) (hd : s.Distinct) (hslots : c.InSlots s)
    (hs : c.occupants s a = [c.slotEntry a]) : c.accessed s a = s := by
  refine (EntrySet.ascending_sorted (distinct_accessed hd hslots a)).eq_of_mem_iff hasc fun e => ?_
  have hoccupant : e ∈ c.occupants s a ↔ e = c.slotEntry a := by rw [hs, List.mem_singleton]
  rw [occupants, List.mem_filter, beq_iff_eq] at hoccupant
  rw [EntrySet.mem_sorted, List.mem_append, List.mem_filter, List.mem_singleton, bne_iff_ne,
    ← hoccupant]
  tauto

theorem reportAccess_of_occupants (hs : c.occupants s a = [c.slotEntry a])
    (t : Journal) : (c.reportAccess s a t).result = .ok () := by
  rw [reportAccess, hs]
  simp [EntrySet.addresses, slotEntry]

/-- After an access to a direct-mapped cache the address owns its slot, and the same access again
changes nothing. -/
theorem owns_slot {s s' : State} (hregular : s'.Regular (.directMapped c))
    (h : (c.access s a t).result = .ok s') :
    (∀ kind, c.occupants (s'.entries kind) a = [c.slotEntry a]) ∧
      (c.access s' a t).result = .ok s' := by
  have halone : ∀ kind, c.occupants (s'.entries kind) a = [c.slotEntry a] := by
    intro kind
    rw [eq_step_of_access h]
    cases kind with
    | must => exact c.occupants_accessed s.must a
    | may => exact c.occupants_accessed s.may a
  have haccessed : ∀ kind, c.accessed (s'.entries kind) a = s'.entries kind := fun kind =>
    accessed_of_occupants (hregular.ascending kind) (hregular.distinct kind)
      (inSlots_of_regular hregular kind) (halone kind)
  have hfixed : c.step s' a = s' := by
    refine State.eq_of_entries (fun kind => ?_) ?_
    · cases kind with
      | must => exact haccessed .must
      | may => exact haccessed .may
    · exact hregular.capacityOr_eq
  obtain ⟨_, hslots, -⟩ := Analysis.result_bind_eq_ok.1 h
  refine ⟨halone, Analysis.result_bind_eq_ok.2 ⟨(), hslots, ?_⟩⟩
  refine Analysis.result_bind_eq_ok.2 ⟨(), reportAccess_of_occupants (halone .must) t, ?_⟩
  refine Analysis.result_bind_eq_ok.2 ⟨(), reportAccess_of_occupants (halone .may) t, ?_⟩
  rw [hfixed]
  rfl

end DirectMapped

/-! ### Scratchpads -/

namespace Scratchpad

variable {q : Scratchpad} {kind : SetKind} {s : EntrySet} {a : Int}

/-- Every other entry ages past the bytes of the new function. -/
theorem bytesOf_le_ageAfter (hs : s.Inside q.bytesOf q.capacity) {e : Entry} (he : e ∈ s) :
    q.bytesOf a ≤ q.ageAfter kind s a e := by
  obtain ⟨hage, hpos, -⟩ := hs e he
  cases h : s.entry? a with
  | none =>
    rw [ageAfter_miss h]
    omega
  | some hit =>
    -- after a hit every other entry begins behind the bytes of the function that is hit
    obtain ⟨hageF, hposF, -⟩ := hs hit (EntrySet.entry?_mem h)
    rw [EntrySet.entry?_address h] at hposF
    rw [ageAfter_hit h]
    exact (le_max_right _ _).trans (agedByHit_bounds hageF hposF hage hpos kind).1

/-- An access to the function on top of a scratchpad ages nothing. -/
theorem ageAfter_of_topped (hd : s.Distinct) (hs : s.Topped (q.bytesOf a) a)
    (ha : 0 < q.bytesOf a) {e : Entry} (he : e ∈ s) (hea : e.address ≠ a) :
    q.ageAfter kind s a e = e.age := by
  have hle := hs.le_age he hea
  rw [ageAfter_hit (hd.entry?_eq hs.1), agedByHit, if_neg, if_neg]
  · dsimp only
    omega
  · rw [overlaps_iff]
    dsimp only
    omega

/-- An access to the function on top never runs out of room. -/
theorem succeeds_survivors_of_topped (hd : s.Distinct) (hs : s.Topped (q.bytesOf a) a)
    (hin : s.Inside q.bytesOf q.capacity) (ha : 0 < q.bytesOf a) (kind : SetKind)
    (t : Journal) : (q.survivors kind s a (q.bytesOf a)).Succeeds t := by
  have hhit : s.entry? a = some ⟨a, 0⟩ := hd.entry?_eq hs.1
  rw [survivors, hhit]
  refine Analysis.Succeeds.bind ⟨(), Analysis.result_note _ _ _ t⟩ fun _ _ => ?_
  refine Analysis.succeeds_collect fun e he => ?_
  obtain ⟨hes, hea⟩ := EntrySet.mem_without.1 he
  obtain ⟨-, hpos, hend⟩ := hin e hes
  have hage : q.ageAfter kind s a e = e.age := ageAfter_of_topped hd hs ha hes hea
  rw [ageAfter_hit hhit] at hage
  refine Analysis.Succeeds.bind ⟨_, room_of_pos hpos t⟩ fun own hown => ?_
  obtain rfl := Except.ok.inj ((room_of_pos hpos t).symm.trans hown)
  dsimp only
  rw [hage, if_neg (by omega)]
  exact Analysis.succeeds_pure _ t

/-- A set that came about by an access is not changed by another one to the same function. -/
theorem accessed_of_topped {s' : EntrySet}
    (h : (q.accessed kind s a (q.bytesOf a) t).result = .ok s') (hasc : s'.Ascending)
    (hd : s'.Distinct) (hs : s'.Topped (q.bytesOf a) a)
    (hin : s'.Inside q.bytesOf q.capacity) (ha : 0 < q.bytesOf a) :
    (q.accessed kind s' a (q.bytesOf a) t).result = .ok s' := by
  obtain ⟨kept, hkept⟩ := succeeds_survivors_of_topped hd hs hin ha kind t
  obtain ⟨rfl, -⟩ := survivors_eq_ok hkept
  have hsame : s'.reloaded q.bytesOf q.capacity (q.ageAfter kind s' a) a = s' :=
    EntrySet.reloaded_eq_self hasc hd hs.1 (fun e => ageAfter_of_topped hd hs ha)
      fun e he _ => (hin e he).2.2
  rw [EntrySet.reloaded] at hsame
  -- What is reported is the same set as the first time.
  obtain ⟨_, -, hreport⟩ := Analysis.result_bind_eq_ok.1 h
  have hfirst := Analysis.eq_of_result_bind_pure hreport
  rw [hfirst] at hreport
  refine Analysis.result_bind_eq_ok.2 ⟨_, hkept, ?_⟩
  simp only [placed, hsame]
  exact hreport

theorem accessed_of_access {s s' : State} (hfits : q.bytesOf a ≤ q.capacity)
    (h : (q.access s a t).result = .ok s') (kind : SetKind) :
    (q.accessed kind (s.entries kind) a (q.bytesOf a) t).result = .ok (s'.entries kind) := by
  obtain ⟨_, -, h⟩ := Analysis.result_bind_eq_ok.1 h
  obtain ⟨size, hsize, h⟩ := Analysis.result_bind_eq_ok.1 h
  obtain ⟨rfl, -⟩ := room_eq_ok hsize
  rw [if_neg (Int.not_lt.2 hfits)] at h
  obtain ⟨must, hmust, h⟩ := Analysis.result_bind_eq_ok.1 h
  obtain ⟨may, hmay, h⟩ := Analysis.result_bind_eq_ok.1 h
  obtain rfl := Analysis.eq_of_result_bind_pure h
  cases kind with
  | must => exact hmust
  | may => exact hmay

/-- An access to a function that is too large succeeds only where such functions are ignored. -/
theorem ignoreOutsized_of_access {s s' : State} (hlarge : q.capacity < q.bytesOf a)
    (h : (q.access s a t).result = .ok s') : q.geometry.ignoreOutsized = true := by
  obtain ⟨_, -, h⟩ := Analysis.result_bind_eq_ok.1 h
  obtain ⟨size, hsize, h⟩ := Analysis.result_bind_eq_ok.1 h
  obtain ⟨rfl, -⟩ := room_eq_ok hsize
  rw [if_pos hlarge, outsized] at h
  by_contra hstrict
  rw [if_neg hstrict] at h
  obtain ⟨_, -, h⟩ := Analysis.result_bind_eq_ok.1 h
  exact absurd h (Analysis.result_fail_ne_ok t)

/-- After an access to a function that fits the function is on top, and the same access again
changes nothing. -/
theorem owns_top {s s' : State} (hs : (Policy.scratchpad q).Derivable s)
    (hregular : s'.Regular (.scratchpad q)) (hfits : q.bytesOf a ≤ q.capacity)
    (h : (q.access s a t).result = .ok s') :
    (∀ kind, (s'.entries kind).Topped (q.bytesOf a) a) ∧ (q.access s' a t).result = .ok s' := by
  obtain ⟨hpos, -⟩ := access_cases h
  obtain ⟨d, u, hd⟩ := hs
  have htidy := (d.tracked (q.tracks_packed u) hd).tidy
  have hinside := (tidy_access htidy h).inside
  have htopped : ∀ kind, (s'.entries kind).Topped (q.bytesOf a) a := by
    intro kind
    rw [entries_access hfits h]
    exact EntrySet.topped_reloaded fun e he _ _ => bytesOf_le_ageAfter (htidy.inside kind) he
  have haccessed : ∀ kind,
      (q.accessed kind (s'.entries kind) a (q.bytesOf a) t).result = .ok (s'.entries kind) :=
    fun kind => accessed_of_topped (accessed_of_access hfits h kind) (hregular.ascending kind)
      (hregular.distinct kind) (htopped kind) (hinside kind) hpos
  refine ⟨htopped, ?_⟩
  rw [access, Analysis.result_note_bind (by rfl),
    Analysis.result_bind_of_ok (room_of_pos hpos t), if_neg (Int.not_lt.2 hfits)]
  refine Analysis.result_bind_eq_ok.2 ⟨_, haccessed .must, ?_⟩
  refine Analysis.result_bind_eq_ok.2 ⟨_, haccessed .may, ?_⟩
  show Except.ok (State.mk s'.must s'.may (s'.capacityOr (Policy.scratchpad q).capacity)) = .ok s'
  rw [hregular.capacityOr_eq]

end Scratchpad

/-! ### All policies -/

namespace Policy

/-- Does the policy let an access to the address pass without effect? -/
def ignores : Policy → Int → Bool
  | scratchpad q, a => q.geometry.ignoreOutsized && q.isOutsized a
  | _, _ => false

/-- The address has the top of the set, or its slot, to itself. -/
def Tops (a : Int) (s : EntrySet) : Policy → Prop
  | lruCache _ => s.Topped 1 a
  | directMapped c => c.occupants s a = [c.slotEntry a]
  | scratchpad q => s.Topped (q.bytesOf a) a

/-- **The accessed address owns the top, and repeating the access changes nothing.**  Take any
policy, any state that it derives, and an access that succeeds and is not ignored.  Then in both
sets the address has age 0 and every other entry an age of 1 at least, or of the bytes of
the function in a scratchpad; in a direct-mapped cache it is the only entry of its slot.  The
same access once more succeeds and leads to the same state. -/
theorem access_twice (p : Policy) (s s' : State) (a : Int) (t : Journal) (hs : p.Derivable s)
    (ha : p.ignores a = false) (h : (p.access s a t).result = .ok s') :
    (∀ kind, p.Tops a (s'.entries kind)) ∧ (p.access s' a t).result = .ok s' := by
  have hregular : s'.Regular p := by
    obtain ⟨d, t, hd⟩ := hs
    exact regular_access (d.tracked (p.tracks_regular t) hd) h
  cases p with
  | lruCache c => exact LruCache.owns_top hs hregular h
  | directMapped c => exact DirectMapped.owns_slot hregular h
  | scratchpad q =>
    refine Scratchpad.owns_top hs hregular ?_ h
    -- A function that is too large would have been ignored, or the access would have failed.
    by_contra hlarge
    rw [Int.not_le] at hlarge
    rw [ignores, Scratchpad.ignoreOutsized_of_access hlarge h,
      Scratchpad.isOutsized_iff.2 hlarge] at ha
    cases ha

-- In both states the access hits, in MAY an entry at the age of others, or overlapping them.
theorem access_twice_after_join :
    let cached : State := ⟨[⟨2, 1⟩], [⟨1, 0⟩, ⟨3, 0⟩, ⟨2, 1⟩], 3⟩
    let cached' : State := ⟨[⟨3, 0⟩, ⟨2, 2⟩], [⟨3, 0⟩, ⟨1, 1⟩, ⟨2, 1⟩], 3⟩
    let loaded : State := ⟨[⟨2, 12⟩, ⟨3, 12⟩, ⟨1, 16⟩], [⟨1, 0⟩, ⟨3, 0⟩, ⟨2, 8⟩], 32⟩
    let loaded' : State := ⟨[⟨2, 0⟩, ⟨3, 12⟩, ⟨1, 16⟩], [⟨2, 0⟩, ⟨1, 4⟩, ⟨3, 4⟩], 32⟩
    (lruCache ⟨3⟩).Derivable cached ∧
      ((lruCache ⟨3⟩).access cached 3 none).result = .ok cached' ∧
      (∀ kind, (cached'.entries kind).Topped 1 3) ∧
      ((lruCache ⟨3⟩).access cached' 3 none).result = .ok cached' ∧
    (scratchpad .mixedSizes).Derivable loaded ∧
      ((scratchpad .mixedSizes).access loaded 2 none).result = .ok loaded' ∧
      (∀ kind, (loaded'.entries kind).Topped 4 2) ∧
      ((scratchpad .mixedSizes).access loaded' 2 none).result = .ok loaded' := by
  intro cached cached' loaded loaded'
  have hcached : (lruCache ⟨3⟩).Derivable cached :=
    ⟨.join (.access (.access .blank 2) 1) (.access (.access .blank 2) 3) [], none, by cbv⟩
  have hloaded : (scratchpad .mixedSizes).Derivable loaded :=
    ⟨.join (.access (.access (.access .blank 1) 2) 3)
      (.access (.access (.access .blank 3) 2) 1) [], none, by cbv⟩
  have haccess : ((lruCache ⟨3⟩).access cached 3 none).result = .ok cached' := by cbv
  have hload : ((scratchpad .mixedSizes).access loaded 2 none).result = .ok loaded' := by cbv
  obtain ⟨htop, hagain⟩ := access_twice _ cached cached' 3 none hcached rfl haccess
  obtain ⟨htop', hagain'⟩ := access_twice _ loaded loaded' 2 none hloaded (by rfl) hload
  exact ⟨hcached, haccess, htop, hagain, hloaded, hload, htop', hagain'⟩

end Policy

end Residency
