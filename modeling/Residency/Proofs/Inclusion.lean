/-
Residency/Proofs/Inclusion.lean

Inclusion.  With least-recently-used replacement a smaller memory knows what a larger one
knows about its front part: along the same derivation the sets of the smaller memory are
those entries of the larger one that fit into it (`Policy.inclusion`).  So a hit in the
smaller memory is a hit in the larger one, and a miss in the larger one is a miss in the
smaller one.

The two memories do not always take the same case.  An address that the larger one finds
behind the end of the smaller one is a hit there and a miss here.  What is in front of it
ages by its size in both memories, so they agree about everything that still fits.  In a
scratchpad the entry of another function can overlap such an address; the rules for
overlapping entries then put it behind the end of the smaller memory, where the miss puts
it too (`Scratchpad.ageAfter_cut`).
-/
import Residency.Proofs.Judging
import Residency.Proofs.Parallel

namespace Residency

variable {p q : Policy} {A : Int → Prop} {t u : Journal}

/-! ### Images that cut off the end -/

/-- The ages of a memory with room for the address, and `⊤` beyond. -/
def fitting (size : Int → Int) (room a : Int) : WithTop Int → WithTop Int :=
  upTo (room - size a)

namespace State.ImageOf

variable {size : Int → Int} {room room' : Int} {s x s' x' : State}

/-- The sets of the image are those of the larger memory, cut where the smaller one ends. -/
theorem entries_eq_filter (h : ImageOf p q A (fitting size room) s x) (kind : SetKind) :
    s.entries kind = (x.entries kind).filter fun e => e.age + size e.address ≤ room := by
  apply (h.left.ascending kind).eq_of_mem_iff (List.Pairwise.filter _ (h.right.ascending kind))
  intro e
  rw [List.mem_filter, decide_eq_true_eq, EntrySet.mem_iff_ageOf (h.left.distinct kind),
    EntrySet.mem_iff_ageOf (h.right.distinct kind), h.ages, fitting, upTo_eq_coe_iff]
  exact and_congr_right fun _ => by omega

/-- An access keeps the image if ages do not shrink, and if the new ages in the two memories are
equal or are both beyond the end of the smaller one. -/
theorem of_cut {a : Int} {ageS ageX : SetKind → Entry → Int}
    (h : ImageOf p q A (fitting size room) s x) (hroom : room ≤ room') (hs' : s'.Regular p)
    (hx' : x'.Regular q) (ha : A a) (hfits : size a ≤ room)
    (hs : ∀ kind, s'.entries kind = (s.entries kind).reloaded size room (ageS kind) a)
    (hx : ∀ kind, x'.entries kind = (x.entries kind).reloaded size room' (ageX kind) a)
    (hgrows : ∀ kind e, e.age ≤ ageX kind e)
    (hsame : ∀ kind, ∀ e ∈ x.entries kind, e.age + size e.address ≤ room →
      ageS kind e = ageX kind e ∨
        (room < ageS kind e + size e.address ∧ room < ageX kind e + size e.address)) :
    ImageOf p q A (fitting size room) s' x' := by
  have hcut : ∀ b x, fitting size room b (upTo (room' - size b) x) = upTo (room - size b) x :=
    fun b x => upTo_upTo (by omega) x
  refine h.of_reloaded (fun _ => rfl) hs' hx' ha (upTo_of_le (by omega)) hs hx ?_ ?_
  · intro kind b k _ _ hnone
    have hlt := lt_of_upTo_eq_top hnone
    have hle := hgrows kind ⟨b, k⟩
    rw [hcut, upTo_of_lt (Int.lt_of_lt_of_le hlt hle)]
  · intro kind b k l _ hk hsome
    obtain ⟨hkl, hle⟩ := upTo_eq_coe_iff.1 hsome
    obtain rfl := WithTop.coe_inj.1 hkl
    have hmem := (EntrySet.ageOf_eq_coe_iff (h.right.distinct kind)).1 hk
    rw [hcut]
    rcases hsame kind ⟨b, k⟩ hmem (by dsimp only; omega) with heq | ⟨hlt, hlt'⟩
    · rw [heq]
    · rw [upTo_of_lt (Int.sub_lt_iff.2 hlt), upTo_of_lt (Int.sub_lt_iff.2 hlt')]

end State.ImageOf

/-! ### Caches -/

namespace LruCache

variable {c c' : LruCache} {kind : SetKind} {s x : EntrySet} {a : Int} {e : Entry}

theorem ageAfter_of_top (h : s.ageOf a = ⊤) : ageAfter kind s a e = e.age + 1 :=
  ageAfter_miss (EntrySet.entry?_of_ageOf_eq_top h) kind e

theorem ageAfter_of_coe {old : Int} (h : s.ageOf a = old) :
    ageAfter kind s a e = agedByHit kind old e := by
  obtain ⟨hit, hhit, rfl⟩ := EntrySet.exists_entry?_of_ageOf h
  exact ageAfter_hit hhit kind e

/-- No entry gets younger. -/
theorem le_ageAfter (kind : SetKind) (s : EntrySet) (a : Int) (e : Entry) :
    e.age ≤ ageAfter kind s a e := by
  cases h : s.ageOf a with
  | top =>
    rw [ageAfter_of_top h]
    omega
  | coe old =>
    rw [ageAfter_of_coe h, agedByHit]
    split <;> omega

/-- An entry that fits ages alike in both caches. -/
theorem ageAfter_cut (h : s.ageOf a = upTo (c.lines - 1) (x.ageOf a)) (he : e.age + 1 ≤ c.lines) :
    ageAfter kind s a e = ageAfter kind x a e := by
  cases hx : x.ageOf a with
  | top =>
    rw [hx] at h
    rw [ageAfter_of_top hx, ageAfter_of_top h]
  | coe old =>
    rw [hx] at h
    by_cases hold : old ≤ c.lines - 1
    · rw [upTo_of_le hold] at h
      rw [ageAfter_of_coe hx, ageAfter_of_coe h]
    · -- A hit behind the end of the smaller cache: the entry is in front of it.
      rw [upTo_of_lt (Int.not_le.1 hold)] at h
      rw [ageAfter_of_coe hx, ageAfter_of_top h, agedByHit, if_pos (by omega)]

/-- Two caches go in step, and the smaller one has what fits into it. -/
theorem parallel_cut (hc : 1 ≤ c.lines) (hle : c.lines ≤ c'.lines) (t u : Journal) :
    (Policy.lruCache c).Parallel (.lruCache c') t u A
      (State.ImageOf (.lruCache c) (.lruCache c') A (fitting (fun _ => 1) c.lines)) where
  blank := .blank fun _ => rfl
  access := by
    intro s x s' x' a ha h hs hx
    have hs' := Policy.regular_access h.left hs
    have hx' := Policy.regular_access h.right hx
    obtain rfl := eq_step_of_access hs
    obtain rfl := eq_step_of_access hx
    refine h.of_cut hle hs' hx' ha hc (c.entries_step s a) (c'.entries_step x a) ?_ ?_
    · exact fun kind e => le_ageAfter kind _ a e
    · exact fun kind e _ he => .inl (ageAfter_cut (h.ages kind a) he)
  join := .join fun _ => monotone_upTo _

end LruCache

/-! ### Scratchpads -/

namespace Scratchpad

variable {p p' : Scratchpad} {kind : SetKind} {s x : EntrySet} {a : Int} {e : Entry}

theorem bytesOf_congr (hfunctions : p.functions = p'.functions)
    (hblock : p.geometry.blockSize = p'.geometry.blockSize) : p'.bytesOf = p.bytesOf := by
  funext a
  rw [bytesOf, bytesOf, hfunctions, hblock]

/-- On a miss an entry ages by the bytes of the new function. -/
theorem ageAfter_of_top (h : s.ageOf a = ⊤) : p.ageAfter kind s a e = e.age + p.bytesOf a :=
  ageAfter_miss (EntrySet.entry?_of_ageOf_eq_top h) kind e

/-- On a hit an entry ages by the rule for hits. -/
theorem ageAfter_of_coe {old : Int} (h : s.ageOf a = old) : p.ageAfter kind s a e =
    agedByHit kind old (p.bytesOf a) e.age (p.bytesOf e.address) := by
  obtain ⟨hit, hhit, rfl⟩ := EntrySet.exists_entry?_of_ageOf h
  exact ageAfter_hit hhit kind e

theorem ageAfter_congr (hbytes : p'.bytesOf = p.bytesOf) : p'.ageAfter = p.ageAfter := by
  funext kind s a e
  rw [ageAfter, ageAfter, hbytes]

section

variable {ageF sizeF ageG sizeG capacity : Int}

/-- A hit makes no entry younger. -/
theorem le_agedByHit (kind : SetKind) (hF : 0 < sizeF) :
    ageG ≤ agedByHit kind ageF sizeF ageG sizeG := by
  cases kind with
  | must => exact le_agedByHit_must hF
  | may =>
    rw [agedByHit]
    split
    · rename_i hover
      rw [overlaps_iff] at hover
      show ageG ≤ min ageF ageG + sizeF
      omega
    · split <;> omega

/-- A hit on a function that ends behind the capacity ages an entry in front of the capacity as a
miss does, or both put it behind the capacity. -/
theorem agedByHit_behind (kind : SetKind) (hG : 0 < sizeG) (hF : capacity < ageF + sizeF)
    (hfits : ageG + sizeG ≤ capacity) :
    ageG + sizeF = agedByHit kind ageF sizeF ageG sizeG ∨
      (capacity < ageG + sizeF + sizeG ∧
        capacity < agedByHit kind ageF sizeF ageG sizeG + sizeG) := by
  rw [agedByHit]
  split
  · rename_i hover
    rw [overlaps_iff] at hover
    cases kind with
    | must =>
      show ageG + sizeF = max ageG (sizeF + max (ageF - sizeG) 0) ∨ (_ ∧
        capacity < max ageG (sizeF + max (ageF - sizeG) 0) + sizeG)
      omega
    | may =>
      show ageG + sizeF = min ageF ageG + sizeF ∨ (_ ∧ capacity < min ageF ageG + sizeF + sizeG)
      omega
  · rename_i hover
    rw [overlaps_iff] at hover
    split <;> omega

end

/-- No entry gets younger. -/
theorem le_ageAfter (ha : 0 < p.bytesOf a) (kind : SetKind) (s : EntrySet) (e : Entry) :
    e.age ≤ p.ageAfter kind s a e := by
  cases h : s.ageOf a with
  | top =>
    rw [ageAfter_of_top h]
    omega
  | coe old =>
    rw [ageAfter_of_coe h]
    exact le_agedByHit kind ha

/-- An entry that fits ages alike in both scratchpads, or leaves the smaller one in both. -/
theorem ageAfter_cut (h : s.ageOf a = fitting p.bytesOf p.capacity a (x.ageOf a))
    (hpos : 0 < p.bytesOf e.address) (he : e.age + p.bytesOf e.address ≤ p.capacity) :
    p.ageAfter kind s a e = p.ageAfter kind x a e ∨
      (p.capacity < p.ageAfter kind s a e + p.bytesOf e.address ∧
        p.capacity < p.ageAfter kind x a e + p.bytesOf e.address) := by
  cases hx : x.ageOf a with
  | top =>
    rw [hx] at h
    rw [ageAfter_of_top hx, ageAfter_of_top h]
    exact .inl rfl
  | coe old =>
    rw [hx, fitting] at h
    by_cases hold : old ≤ p.capacity - p.bytesOf a
    · rw [upTo_of_le hold] at h
      rw [ageAfter_of_coe hx, ageAfter_of_coe h]
      exact .inl rfl
    · rw [upTo_of_lt (Int.not_le.1 hold)] at h
      rw [ageAfter_of_coe hx, ageAfter_of_top h]
      exact agedByHit_behind kind hpos (by omega) he

/-- Two scratchpads go in step, and the smaller one has what fits into it. -/
theorem parallel_cut (hbytes : p'.bytesOf = p.bytesOf) (hle : p.capacity ≤ p'.capacity)
    (t u : Journal) : (Policy.scratchpad p).Parallel (.scratchpad p') t u p.Admits
      (State.ImageOf (.scratchpad p) (.scratchpad p') p.Admits
        (fitting p.bytesOf p.capacity)) where
  blank := .blank fun _ => rfl
  access := by
    intro s x s' x' a ha h hs hx
    have hentriesX := entries_access (by rw [hbytes]; exact ha.2.trans hle) hx
    rw [hbytes, ageAfter_congr hbytes] at hentriesX
    refine h.of_cut hle (Policy.regular_access h.left hs) (Policy.regular_access h.right hx) ha
      ha.2 (entries_access ha.2 hs) hentriesX ?_ ?_
    · exact fun kind e => le_ageAfter ha.1 kind _ e
    · exact fun kind e hmem he => ageAfter_cut (h.ages kind a) (h.among kind e hmem).1 he
  join := .join fun _ => monotone_upTo _

end Scratchpad

/-! ### Smaller and larger memories -/

/-- A state with more entries gives more hits and fewer misses. -/
theorem State.verdict_mono {s s' : State} (h : ∀ kind, s.entries kind ⊆ s'.entries kind) (a : Int) :
    (s.verdict a = .alwaysHit → s'.verdict a = .alwaysHit) ∧
      (s'.verdict a = .alwaysMiss → s.verdict a = .alwaysMiss) := by
  have hmust : s.must.addresses ⊆ s'.must.addresses := List.map_subset _ (h .must)
  have hmay : s.may.addresses ⊆ s'.may.addresses := List.map_subset _ (h .may)
  rw [verdict_eq_alwaysHit, verdict_eq_alwaysHit, verdict_eq_alwaysMiss, verdict_eq_alwaysMiss]
  exact ⟨fun ha => hmust ha, fun ha => ⟨fun h => ha.1 (hmust h), fun h => ha.2 (hmay h)⟩⟩

/-- A state has just those entries of another one that the predicate keeps, and what it promises
about hits and what the other promises about misses holds of both. -/
structure State.PartOf (keep : Entry → Bool) (s x : State) : Prop where
  must : s.must = x.must.filter keep
  may : s.may = x.may.filter keep
  hits : ∀ a, s.verdict a = .alwaysHit → x.verdict a = .alwaysHit
  misses : ∀ a, x.verdict a = .alwaysMiss → s.verdict a = .alwaysMiss

/-- A state that is cut is the part of the other that fits. -/
theorem State.ImageOf.partOf {size : Int → Int} {room : Int} {s x : State} {keep : Entry → Bool}
    (h : ImageOf p q A (fitting size room) s x)
    (hkeep : ∀ e, keep e = decide (e.age + size e.address ≤ room)) : s.PartOf keep x := by
  obtain rfl : keep = fun e => decide (e.age + size e.address ≤ room) := funext hkeep
  have hsubset : ∀ kind, s.entries kind ⊆ x.entries kind := by
    intro kind
    rw [h.entries_eq_filter kind]
    exact List.filter_subset_self _
  have hmono := verdict_mono hsubset
  exact ⟨h.entries_eq_filter .must, h.entries_eq_filter .may, fun a => (hmono a).1,
    fun a => (hmono a).2⟩

/-- **Inclusion.**  Along every derivation a cache has the entries of a cache with more lines whose
ages are below its number of lines, and a scratchpad has the entries of a larger scratchpad
that end within its bytes, if it has room for every function by itself.  What always hits
in the smaller memory does so in the larger one, and what always misses in the larger
memory does so in the smaller one. -/
theorem Policy.inclusion :
    (∀ (c c' : LruCache) (d : Derivation), 1 ≤ c.lines → c.lines ≤ c'.lines →
      (∀ t : Threshold, t.Bears c'.lines →
        (d.state (.lruCache c)).Succeeds t ∧ (d.state (.lruCache c')).Succeeds t) ∧
      ∀ s x, d.Yields (.lruCache c) s → d.Yields (.lruCache c') x →
        s.PartOf (fun e => e.age < c.lines) x) ∧
    ∀ (p p' : Scratchpad) (d : Derivation), p.functions = p'.functions →
      p.geometry.blockSize = p'.geometry.blockSize → p.capacity ≤ p'.capacity →
      d.Over p.Admits →
      (∀ t : Threshold, t.Bears p'.capacity →
        (d.state (.scratchpad p)).Succeeds t ∧ (d.state (.scratchpad p')).Succeeds t) ∧
      ∀ s x, d.Yields (.scratchpad p) s → d.Yields (.scratchpad p') x →
        s.PartOf (fun e => e.age + p.bytesOf e.address ≤ p.capacity) x := by
  constructor
  · intro c c' d hc hle
    constructor
    · intro t ht
      exact ⟨LruCache.state_succeeds hc (ht.mono (by omega) hle) d,
        LruCache.state_succeeds (hc.trans hle) ht d⟩
    · rintro s x ⟨t, hs⟩ ⟨u, hx⟩
      have hover : d.Over fun _ => True := fun _ _ _ _ => trivial
      exact (d.parallel (LruCache.parallel_cut hc hle t u) hover hs hx).partOf fun _ => rfl
  · intro p p' d hfunctions hblock hle hd
    have hbytes := Scratchpad.bytesOf_congr hfunctions hblock
    constructor
    · intro t ht
      have hd' : d.Over p'.Admits := by
        intro history hh a ha
        obtain ⟨hpos, hfits⟩ := hd history hh a ha
        rw [Scratchpad.Admits, hbytes]
        exact ⟨hpos, hfits.trans hle⟩
      have hnonneg := Int.le_of_lt p.geometry.capacity_pos
      exact ⟨Scratchpad.state_succeeds (ht.mono hnonneg hle) hd, Scratchpad.state_succeeds ht hd'⟩
    · rintro s x ⟨t, hs⟩ ⟨u, hx⟩
      exact (d.parallel (Scratchpad.parallel_cut hbytes hle t u) hd hs hx).partOf fun _ => rfl

/-- Three accesses in both orders, joined, and then the one in the middle again. -/
def Derivation.bothOrders : Derivation :=
  .access (.join (.access (.access (.access .blank 1) 2) 3)
    (.access (.access (.access .blank 3) 2) 1) []) 2

theorem Derivation.over_bothOrders (h : ∀ a ∈ [1, 2, 3], A a) : bothOrders.Over A := by
  intro history hh a ha
  obtain rfl | rfl : history = [1, 2, 3, 2] ∨ history = [3, 2, 1, 2] := by
    simpa [bothOrders, histories, historiesOfAll] using hh
  · exact h a (by simp at ha ⊢; omega)
  · exact h a (by simp at ha ⊢; omega)

/-- A scratchpad for the same functions with half the bytes. -/
def Scratchpad.halved : Scratchpad :=
  { Scratchpad.mixedSizes with geometry := { Scratchpad.mixedSizes.geometry with
      capacity := 16, capacity_pos := by decide, aligned := by decide } }

-- The smaller memories miss what the larger ones find at their ends.
theorem Policy.inclusion_after_join :
    let cached : State := ⟨[⟨2, 0⟩], [⟨2, 0⟩, ⟨1, 1⟩, ⟨3, 1⟩], 2⟩
    let cached' : State := ⟨[⟨2, 0⟩, ⟨1, 2⟩, ⟨3, 2⟩], [⟨2, 0⟩, ⟨1, 1⟩, ⟨3, 1⟩], 3⟩
    let loaded : State := ⟨[⟨2, 0⟩], [⟨2, 0⟩, ⟨1, 4⟩, ⟨3, 4⟩], 16⟩
    let loaded' : State := ⟨[⟨2, 0⟩, ⟨3, 12⟩, ⟨1, 16⟩], [⟨2, 0⟩, ⟨1, 4⟩, ⟨3, 4⟩], 32⟩
    Derivation.bothOrders.Yields (.lruCache ⟨2⟩) cached ∧
    Derivation.bothOrders.Yields (.lruCache ⟨3⟩) cached' ∧
    cached.PartOf (fun e => e.age < 2) cached' ∧
    Derivation.bothOrders.Over Scratchpad.halved.Admits ∧
    Derivation.bothOrders.Yields (.scratchpad .halved) loaded ∧
    Derivation.bothOrders.Yields (.scratchpad .mixedSizes) loaded' ∧
    loaded.PartOf (fun e => e.age + Scratchpad.halved.bytesOf e.address ≤ 16) loaded' := by
  intro cached cached' loaded loaded'
  have hcached : Derivation.bothOrders.Yields (.lruCache ⟨2⟩) cached := ⟨none, by rfl⟩
  have hcached' : Derivation.bothOrders.Yields (.lruCache ⟨3⟩) cached' := ⟨none, by rfl⟩
  have hloaded : Derivation.bothOrders.Yields (.scratchpad .halved) loaded := ⟨none, by rfl⟩
  have hloaded' : Derivation.bothOrders.Yields (.scratchpad .mixedSizes) loaded' := ⟨none, by rfl⟩
  have hover : Derivation.bothOrders.Over Scratchpad.halved.Admits :=
    Derivation.over_bothOrders (by decide)
  obtain ⟨hcaches, hpads⟩ := inclusion
  exact ⟨hcached, hcached',
    (hcaches ⟨2⟩ ⟨3⟩ _ (by decide) (by decide)).2 _ _ hcached hcached', hover, hloaded, hloaded',
    (hpads .halved .mixedSizes _ rfl rfl (by decide) hover).2 _ _ hloaded hloaded'⟩

end Residency
