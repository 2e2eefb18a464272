/-
Residency/Proofs/Packing.lean

What MUST promises fits into the memory.  Every part of the memory that begins at the top
has room for the entries that MUST places there: with ages in lines at most `k + 1` entries
have an age up to `k`, with ages in bytes the functions that end within the first `x` bytes
have at most `x` bytes together (`Policy.must_packed`).

No operation keeps this for a reason of its own.  A join takes the larger of two ages entry
by entry, and a hit moves every entry by itself.  The reason is the memory behind the state:
after each history that the state merges, MUST entries stand for addresses that really lie
there, no further down than their ages say, and what lies in a memory does not overlap
(`EntrySet.bytesWithin_le`).  One history is enough, and a derivation always has one.

`State.Packed` collects what the argument needs: a history, ages that are right after all of
them, and entries that lie inside the memory, each address once.
-/
import Mathlib.Algebra.Order.BigOperators.Group.List
import Mathlib.Data.List.Perm.Subperm
import Residency.Proofs.LruCacheAges
import Residency.Proofs.ScratchpadAges

namespace Residency

/-! ### Layouts -/

namespace Contents

variable {size : Int → Int} {top x : Int}

/-- Between the top of a layout and `x` there is room for what ends there. -/
theorem sum_fitting_le (hsize : ∀ a, 0 ≤ size a) (c : Contents) (h : top ≤ x) :
    (((c.laidOut size top).filter fun e => e.age + size e.address ≤ x).map
      fun e => size e.address).sum ≤ x - top := by
  induction c generalizing top with
  | nil =>
    show (0 : Int) ≤ x - top
    omega
  | cons a c ih =>
    rw [filter_fits_cons hsize]
    split
    · rename_i hfit
      have hrest := ih hfit
      rw [List.map_cons, List.sum_cons]
      show size a + _ ≤ _
      omega
    · show (0 : Int) ≤ x - top
      omega

/-- Addresses that do not repeat have no more bytes than any list that holds them all. -/
theorem sum_le_sum_of_subset (hsize : ∀ a, 0 ≤ size a) {c d : Contents} (hc : c.Nodup)
    (h : c ⊆ d) : (c.map size).sum ≤ (d.map size).sum := by
  obtain ⟨l, hperm, hsublist⟩ := hc.subperm h
  calc (c.map size).sum
      = (l.map size).sum := (hperm.map size).sum_eq.symm
    _ ≤ (d.map size).sum := by
        refine (hsublist.map size).sum_le_sum ?_
        intro n hn
        obtain ⟨a, -, rfl⟩ := List.mem_map.1 hn
        exact hsize a

end Contents

/-! ### Entry sets -/

namespace EntrySet

variable {size : Int → Int} {room x a : Int} {s t u : EntrySet} {e : Entry}

theorem sum_sizes (size : Int → Int) (s : EntrySet) :
    (s.map fun e => size e.address).sum = (s.addresses.map size).sum := by
  rw [addresses, List.map_map]
  rfl

/-- The bytes of the entries that end within the first `x` bytes. -/
def bytesWithin (size : Int → Int) (s : EntrySet) (x : Int) : Int :=
  ((s.filter fun e => e.age + size e.address ≤ x).map fun e => size e.address).sum

/-- Entries that stand for addresses of a layout, no further down than these really are, fit
together in every part of the layout that begins at the top. -/
theorem bytesWithin_le (hsize : ∀ a, 0 ≤ size a) {c : Contents} (hs : s.Distinct)
    (hw : s.Within (c.laidOut size 0)) (hx : 0 ≤ x) : s.bytesWithin size x ≤ x := by
  have hsub : addresses (s.filter fun e => e.age + size e.address ≤ x) ⊆
      addresses ((c.laidOut size 0).filter fun e => e.age + size e.address ≤ x) := by
    intro a ha
    obtain ⟨e, he, rfl⟩ := mem_addresses.1 ha
    obtain ⟨hes, hfit⟩ := List.mem_filter.1 he
    obtain ⟨f, hf, hfe, hle⟩ := hw e hes
    rw [decide_eq_true_eq] at hfit
    refine mem_addresses.2 ⟨f, List.mem_filter.2 ⟨hf, ?_⟩, hfe⟩
    rw [decide_eq_true_eq, hfe]
    omega
  have hnodup : (addresses (s.filter fun e => e.age + size e.address ≤ x)).Nodup :=
    hs.of_sublist List.filter_sublist
  -- Both sides of the comparison are sums over addresses, which do not repeat on the left.
  calc s.bytesWithin size x
      = (List.map size (addresses (s.filter fun e => e.age + size e.address ≤ x))).sum := by
        rw [bytesWithin, sum_sizes]
    _ ≤ (List.map size (addresses
          ((c.laidOut size 0).filter fun e => e.age + size e.address ≤ x))).sum :=
        Contents.sum_le_sum_of_subset hsize hnodup hsub
    _ ≤ x := by
        rw [← sum_sizes]
        exact Int.le_trans (Contents.sum_fitting_le hsize c hx) (by omega)

/-! ### Entries inside the memory -/

/-- Every entry has a size and lies between the top and the end of the memory. -/
def Inside (size : Int → Int) (room : Int) (s : EntrySet) : Prop :=
  ∀ e ∈ s, 0 ≤ e.age ∧ 0 < size e.address ∧ e.age + size e.address ≤ room

/-- A set inside the memory has all its bytes there. -/
theorem bytesWithin_eq_sum (hs : Inside size room s) :
    s.bytesWithin size room = (s.map fun e => size e.address).sum := by
  rw [bytesWithin, List.filter_eq_self.2]
  intro e he
  rw [decide_eq_true_eq]
  exact (hs e he).2.2

/-- An access leaves a set inside the memory. -/
theorem inside_reloaded {age : Entry → Int} (hs : Inside size room s) (ha : 0 < size a)
    (hroom : size a ≤ room) (hage : ∀ e ∈ s, 0 ≤ age e) :
    Inside size room (s.reloaded size room age a) := by
  intro e he
  rcases mem_reloaded.1 he with rfl | ⟨f, hf, -, hfit, rfl⟩
  · exact ⟨Int.le_refl 0, ha, by simpa using hroom⟩
  · exact ⟨hage f hf, (hs f hf).2.1, hfit⟩

theorem addresses_common_sublist (s t : EntrySet) :
    (common s t).addresses.Sublist s.addresses := by
  induction s with
  | nil => exact List.Sublist.slnil
  | cons e s ih =>
    rw [common, List.filterMap_cons]
    cases t.entry? e.address with
    | none => exact ih.cons _
    | some f => exact ih.cons_cons _

/-- A MUST join repeats no address. -/
theorem distinct_joinMust (hs : s.Distinct) (h : joinMust s t = .ok u) : u.Distinct := by
  obtain ⟨-, rfl⟩ := joinMust_eq_ok.1 h
  exact distinct_sorted.2 (List.Nodup.sublist (addresses_common_sublist s t) hs)

/-- A MAY join repeats no address. -/
theorem distinct_joinMay (h : joinMay s t = .ok u) : u.Distinct := by
  obtain ⟨hs, ht, rfl⟩ := joinMay_eq_ok.1 h
  exact distinct_sorted.2 (distinct_merged hs ht)

/-- A MUST join stays inside the memory. -/
theorem inside_joinMust (hs : Inside size room s) (ht : Inside size room t)
    (h : joinMust s t = .ok u) : Inside size room u := by
  obtain ⟨-, rfl⟩ := joinMust_eq_ok.1 h
  intro e he
  obtain ⟨f, hf, g, hg, rfl⟩ := mem_common.1 (mem_sorted.1 he)
  obtain ⟨hf₀, hf₁, hf₂⟩ := hs f hf
  obtain ⟨hg₀, hg₁, hg₂⟩ := ht g (entry?_mem hg)
  rw [entry?_address hg] at hg₂
  refine ⟨?_, hf₁, ?_⟩
  · show 0 ≤ max f.age g.age
    omega
  · show max f.age g.age + size f.address ≤ room
    omega

/-- Every entry of a MAY join has its address and its age from one of the two sets. -/
theorem exists_of_mem_merged (he : e ∈ merged s t) :
    ∃ f, (f ∈ s ∨ f ∈ t) ∧ f.address = e.address ∧ f.age = e.age := by
  rcases List.mem_append.1 he with he | he
  · obtain ⟨f, hf, rfl⟩ := List.mem_map.1 he
    cases hg : t.entry? f.address with
    | none => exact ⟨f, .inl hf, rfl, rfl⟩
    | some g =>
      rcases Int.le_total g.age f.age with hle | hle
      · exact ⟨g, .inr (entry?_mem hg), entry?_address hg, (Int.min_eq_left hle).symm⟩
      · exact ⟨f, .inl hf, rfl, (Int.min_eq_right hle).symm⟩
  · exact ⟨e, .inr (List.mem_filter.1 he).1, rfl, rfl⟩

/-- A MAY join stays inside the memory. -/
theorem inside_joinMay (hs : Inside size room s) (ht : Inside size room t)
    (h : joinMay s t = .ok u) : Inside size room u := by
  obtain ⟨-, -, rfl⟩ := joinMay_eq_ok.1 h
  intro e he
  obtain ⟨f, hf, haddress, hage⟩ := exists_of_mem_merged (mem_sorted.1 he)
  rw [← haddress, ← hage]
  exact hf.elim (hs f) (ht f)

end EntrySet

/-! ### States -/

/-- Both sets lie inside the memory and hold no address twice. -/
structure State.Tidy (size : Int → Int) (room : Int) (s : State) : Prop where
  mustDistinct : s.must.Distinct
  mayDistinct : s.may.Distinct
  must : EntrySet.Inside size room s.must
  may : EntrySet.Inside size room s.may

namespace State.Tidy

variable {size : Int → Int} {room a : Int} {s u joined : State}

theorem blank (size : Int → Int) (room capacity : Int) : (State.blank capacity).Tidy size room where
  mustDistinct := List.nodup_nil
  mayDistinct := List.nodup_nil
  must := fun _ he => nomatch he
  may := fun _ he => nomatch he

/-- The join of tidy states is tidy. -/
theorem join (hs : s.Tidy size room) (hu : u.Tidy size room)
    (hmust : s.must.joinMust u.must = .ok joined.must)
    (hmay : s.may.joinMay u.may = .ok joined.may) : joined.Tidy size room where
  mustDistinct := EntrySet.distinct_joinMust hs.mustDistinct hmust
  mayDistinct := EntrySet.distinct_joinMay hmay
  must := EntrySet.inside_joinMust hs.must hu.must hmust
  may := EntrySet.inside_joinMay hs.may hu.may hmay

theorem inside (hs : s.Tidy size room) : ∀ kind, EntrySet.Inside size room (s.entries kind)
  | .must => hs.must
  | .may => hs.may

end State.Tidy

/-- A tidy state that is right about the memory after some history and after all that it
merges. -/
structure State.Packed (p : Policy) (size : Int → Int) (room : Int) (H : Set (List Int))
    (s : State) : Prop where
  nonempty : H.Nonempty
  faithful : s.Faithful p size H
  tidy : s.Tidy size room

/-- What MUST has within the first bytes was laid out there together, so it fits. -/
theorem State.Packed.bytesWithin_must_le {p : Policy} {size : Int → Int} {room x : Int}
    {H : Set (List Int)} {s : State} (hs : s.Packed p size room H) (hsize : ∀ a, 0 ≤ size a)
    (hx : 0 ≤ x) : s.must.bytesWithin size x ≤ x := by
  obtain ⟨history, hh⟩ := hs.nonempty
  exact EntrySet.bytesWithin_le hsize hs.tidy.mustDistinct (hs.faithful.covers history hh).must hx

/-- Whoever tracks the ages of a state and keeps it tidy keeps it packed. -/
theorem Policy.Tracks.packed {p : Policy} {t : Journal} {size : Int → Int} {room : Int}
    (hfaithful : p.Tracks t (State.Faithful p size))
    (htidy : p.Tracks t fun _ s => s.Tidy size room) : p.Tracks t (State.Packed p size room) where
  blank := ⟨Set.singleton_nonempty [], hfaithful.blank, htidy.blank⟩
  access := fun hs h =>
    ⟨hs.nonempty.image _, hfaithful.access hs.faithful h, htidy.access (H := ∅) hs.tidy h⟩
  join := fun hs hu h => ⟨hs.nonempty.inl, hfaithful.join hs.faithful hu.faithful h,
    htidy.join (H := ∅) (K := ∅) hs.tidy hu.tidy h⟩

/-! ### Caches -/

namespace LruCache

variable {c : LruCache} {kind : SetKind} {s : EntrySet} {t : Journal}

theorem ageAfter_nonneg (hs : ∀ e ∈ s, 0 ≤ e.age) (a : Int) {e : Entry} (he : e ∈ s) :
    0 ≤ ageAfter kind s a e := by
  have := hs e he
  rw [ageAfter]
  split
  · omega
  · rw [agedByHit]
    split <;> omega

/-- An access to a cache leaves a tidy state. -/
theorem tidy_step (hc : 1 ≤ c.lines) {s : State} (hs : s.Tidy (fun _ => 1) c.lines) (a : Int) :
    (c.step s a).Tidy (fun _ => 1) c.lines := by
  have hmust : c.accessed .must s.must a = _ := accessed_eq_reloaded c .must s.must a
  have hmay : c.accessed .may s.may a = _ := accessed_eq_reloaded c .may s.may a
  constructor
  · show (c.accessed .must s.must a).Distinct
    rw [hmust]
    exact EntrySet.distinct_reloaded hs.mustDistinct
  · show (c.accessed .may s.may a).Distinct
    rw [hmay]
    exact EntrySet.distinct_reloaded hs.mayDistinct
  · show EntrySet.Inside _ _ (c.accessed .must s.must a)
    rw [hmust]
    exact EntrySet.inside_reloaded hs.must Int.one_pos hc
      fun e he => ageAfter_nonneg (fun e he => (hs.must e he).1) a he
  · show EntrySet.Inside _ _ (c.accessed .may s.may a)
    rw [hmay]
    exact EntrySet.inside_reloaded hs.may Int.one_pos hc
      fun e he => ageAfter_nonneg (fun e he => (hs.may e he).1) a he

/-- Every derived state of a cache is packed. -/
theorem tracks_packed (hc : 1 ≤ c.lines) (t : Journal) :
    (Policy.lruCache c).Tracks t (State.Packed (.lruCache c) (fun _ => 1) c.lines) := by
  refine (tracks_faithful hc t).packed ⟨.blank _ _ _, ?_, ?_⟩
  · intro _ s s' a hs h
    obtain rfl := eq_step_of_access h
    exact tidy_step hc hs a
  · intro _ _ s u s' hs hu h
    obtain ⟨hmust, hmay, -⟩ := merge_eq_ok.1 (merge_of_joinTwo (Policy.joinTwo_mergeTwo h))
    exact hs.join hu hmust hmay

end LruCache

/-! ### Scratchpads -/

namespace Scratchpad

variable {p : Scratchpad} {kind : SetKind} {s : EntrySet} {a : Int} {t : Journal}

/-- A hit gives no negative age. -/
theorem agedByHit_nonneg {ageF sizeF ageG sizeG : Int} (hF : 0 ≤ ageF) (hsize : 0 < sizeF)
    (hG : 0 ≤ ageG) : 0 ≤ agedByHit kind ageF sizeF ageG sizeG := by
  cases kind with
  | must => exact Int.le_trans hG (le_agedByHit_must hsize)
  | may =>
    rw [agedByHit]
    split
    · show 0 ≤ min ageF ageG + sizeF
      omega
    · split <;> omega

theorem ageAfter_nonneg (hs : ∀ e ∈ s, 0 ≤ e.age) (ha : 0 < p.bytesOf a) {e : Entry}
    (he : e ∈ s) : 0 ≤ p.ageAfter kind s a e := by
  have hnonneg := hs e he
  cases h : s.entry? a with
  | none =>
    rw [ageAfter_miss h]
    omega
  | some hit =>
    rw [ageAfter_hit h]
    exact agedByHit_nonneg (hs hit (EntrySet.entry?_mem h)) ha hnonneg

/-- An access to a scratchpad leaves a tidy state. -/
theorem tidy_access {s s' : State} (hs : s.Tidy p.bytesOf p.capacity)
    (h : (p.access s a t).result = .ok s') : s'.Tidy p.bytesOf p.capacity := by
  obtain ⟨ha, ⟨-, rfl⟩ | ⟨hfits, hmust, hmay, -⟩⟩ := access_cases h
  · exact hs
  · constructor
    · rw [hmust]
      exact EntrySet.distinct_reloaded hs.mustDistinct
    · rw [hmay]
      exact EntrySet.distinct_reloaded hs.mayDistinct
    · rw [hmust]
      exact EntrySet.inside_reloaded hs.must ha hfits
        fun e he => ageAfter_nonneg (fun e he => (hs.must e he).1) ha he
    · rw [hmay]
      exact EntrySet.inside_reloaded hs.may ha hfits
        fun e he => ageAfter_nonneg (fun e he => (hs.may e he).1) ha he

/-- Every derived state of a scratchpad is packed. -/
theorem tracks_packed (p : Scratchpad) (t : Journal) :
    (Policy.scratchpad p).Tracks t (State.Packed (.scratchpad p) p.bytesOf p.capacity) := by
  refine (p.tracks_faithful t).packed ⟨.blank _ _ _, fun hs h => tidy_access hs h, ?_⟩
  intro _ _ s u s' hs hu h
  obtain ⟨hmust, hmay, -⟩ := merge_eq_ok.1 (merge_of_joinTwo (Policy.joinTwo_mergeTwo h))
  exact hs.join hu hmust hmay

/-- A function that has bytes is in the table, and its size can be looked up. -/
theorem room_of_pos (ha : 0 < p.bytesOf a) (t : Journal) :
    (p.room a t).result = .ok (p.bytesOf a) := by
  rw [bytesOf] at ha ⊢
  rw [room, Analysis.result_bind_eq_ok]
  cases hf : p.functions.function? a with
  | none =>
    rw [hf] at ha
    exact absurd ha (Int.lt_irrefl 0)
  | some f =>
    refine ⟨roundUp f.size p.functions.blockSize, ?_, rfl⟩
    rw [FunctionTable.roundedSize, Analysis.result_bind_eq_ok]
    refine ⟨f.size, ?_, rfl⟩
    rw [FunctionTable.exactSize, hf]
    rfl

/-- The bytes of a set are the sum of the bytes of its functions. -/
theorem occupied_of_pos {s : EntrySet} (hs : ∀ e ∈ s, 0 < p.bytesOf e.address) (t : Journal) :
    (p.occupied s t).result = .ok (s.map fun e => p.bytesOf e.address).sum := by
  have hfollow : ∀ (s : EntrySet) (total : Int), (∀ e ∈ s, 0 < p.bytesOf e.address) →
      (Analysis.follow (fun total e => do
        let size ← p.room e.address
        return total + size) total s t).result =
          .ok (total + (s.map fun e => p.bytesOf e.address).sum) := by
    intro s
    induction s with
    | nil =>
      intro total _
      rw [Analysis.result_follow_nil]
      simp
    | cons e s ih =>
      intro total hs
      refine Analysis.result_follow_cons.2 ⟨total + p.bytesOf e.address, ?_, ?_⟩
      · exact Analysis.result_bind_eq_ok.2
          ⟨_, room_of_pos (hs e List.mem_cons_self) t, rfl⟩
      · rw [ih _ fun f hf => hs f (List.mem_cons_of_mem e hf), List.map_cons, List.sum_cons,
          Int.add_assoc]
  have htotal := hfollow s 0 hs
  rw [Int.zero_add] at htotal
  exact htotal

end Scratchpad

/-! ### What MUST promises -/

/-- **MUST is packed.**  In a cache at most `k + 1` MUST entries have an age up to `k`, and in a
scratchpad the MUST functions that end within the first `x` bytes have at most `x` bytes
together; so MUST as a whole has no more entries than the cache has lines, and the bytes that it
is said to occupy, which are those of its functions together, are no more than those of the
scratchpad. -/
theorem Policy.must_packed :
    (∀ (c : LruCache) (s : State), 1 ≤ c.lines → (Policy.lruCache c).Derivable s →
      (∀ k : Int, 0 ≤ k → (s.must.countP fun e => e.age ≤ k : Int) ≤ k + 1) ∧
      (s.must.length : Int) ≤ c.lines) ∧
    ∀ (p : Scratchpad) (s : State), (Policy.scratchpad p).Derivable s →
      (∀ e ∈ s.must, ∀ t, (p.room e.address t).result = .ok (p.bytesOf e.address)) ∧
      (∀ x : Int, 0 ≤ x → s.must.bytesWithin p.bytesOf x ≤ x) ∧
      (s.must.map fun e => p.bytesOf e.address).sum ≤ p.capacity ∧
      ∀ t, (p.occupied s.must t).result = .ok (s.must.map fun e => p.bytesOf e.address).sum := by
  constructor
  · rintro c s hc ⟨d, t, hd⟩
    have hs := d.tracked (LruCache.tracks_packed hc t) hd
    have hle : ∀ x : Int, 0 ≤ x → s.must.bytesWithin (fun _ => 1) x ≤ x :=
      fun x hx => hs.bytesWithin_must_le (fun _ => Int.one_nonneg) hx
    constructor
    · intro k hk
      -- An entry of size 1 has age `k` at most if it ends within the first `k + 1` lines.
      have hcount : s.must.bytesWithin (fun _ => 1) (k + 1) =
          (s.must.countP fun e => e.age ≤ k : Int) := by
        simp [EntrySet.bytesWithin, List.countP_eq_length_filter]
      rw [← hcount]
      exact hle (k + 1) (by omega)
    · have hall := hle c.lines (by omega)
      rw [EntrySet.bytesWithin_eq_sum hs.tidy.must] at hall
      simpa using hall
  · rintro p s ⟨d, t, hd⟩
    have hs := d.tracked (p.tracks_packed t) hd
    have hpos : ∀ e ∈ s.must, 0 < p.bytesOf e.address := fun e he => (hs.tidy.must e he).2.1
    have hle : ∀ x : Int, 0 ≤ x → s.must.bytesWithin p.bytesOf x ≤ x :=
      fun x hx => hs.bytesWithin_must_le p.bytesOf_nonneg hx
    refine ⟨fun e he t => Scratchpad.room_of_pos (hpos e he) t, hle, ?_,
      Scratchpad.occupied_of_pos hpos⟩
    rw [← EntrySet.bytesWithin_eq_sum hs.tidy.must]
    exact hle p.capacity (Int.le_of_lt p.geometry.capacity_pos)

-- Both states come from joins that lost the order of what they hold.
theorem Policy.must_packed_after_join :
    let cached : State := ⟨[⟨3, 0⟩, ⟨2, 2⟩], [⟨3, 0⟩, ⟨1, 1⟩, ⟨2, 1⟩], 3⟩
    let loaded : State := ⟨[⟨2, 0⟩, ⟨3, 12⟩, ⟨1, 16⟩], [⟨2, 0⟩, ⟨1, 4⟩, ⟨3, 4⟩], 32⟩
    (Policy.lruCache ⟨3⟩).Derivable cached ∧
      (Policy.scratchpad Scratchpad.mixedSizes).Derivable loaded ∧
      (cached.must.countP fun e => e.age ≤ 2 : Int) ≤ 3 ∧
      loaded.must.bytesWithin Scratchpad.mixedSizes.bytesOf 24 ≤ 24 ∧
      (Scratchpad.mixedSizes.occupied loaded.must none).result = .ok 24 ∧
      24 ≤ Scratchpad.mixedSizes.capacity := by
  intro cached loaded
  have hcached : (Policy.lruCache ⟨3⟩).Derivable cached :=
    ⟨.access (.join (.access (.access .blank 1) 2) (.access (.access .blank 2) 3) []) 3, none,
      by cbv⟩
  have hloaded : (Policy.scratchpad Scratchpad.mixedSizes).Derivable loaded :=
    ⟨.access (.join (.access (.access (.access .blank 1) 2) 3)
      (.access (.access (.access .blank 3) 2) 1) []) 2, none, by cbv⟩
  obtain ⟨hcache, hscratchpad⟩ := must_packed
  obtain ⟨-, hbytes, hfits, hused⟩ := hscratchpad Scratchpad.mixedSizes loaded hloaded
  exact ⟨hcached, hloaded, (hcache ⟨3⟩ cached (by decide) hcached).1 2 (by decide),
    hbytes 24 (by decide), hused none, hfits⟩

end Residency
