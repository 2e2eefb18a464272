/-
Residency/Proofs/Representation.lean

How derivable states are represented.  In every derivable state of a policy whose numbers
make sense both sets are in strictly ascending order and hold no address twice, whatever
MUST holds is in MAY too, and the ages are such as the memory can have: lines of a cache,
slots of a direct-mapped cache, or whole blocks inside a scratchpad
(`Policy.representation`).

MUST and MAY are kept by different rules, which decide between hits and misses on their own,
so no rule keeps MUST inside MAY.  What ties the two sets together is a memory: after any of
the histories that a state merges, MUST lies within the contents and the contents lie within
MAY (`State.Packed.must_within_may`).  In the same way a direct-mapped cache has one address
in each slot, and so MUST has no more.
-/
import Residency.Proofs.Faults
import Residency.Proofs.RegularStates

namespace Residency

/-- What MUST has MAY has too, at an age that is not larger. -/
theorem State.Packed.must_within_may {p : Policy} {size : Int → Int} {room : Int}
    {H : Set (List Int)} {s : State} (hs : s.Packed p size room H) : s.must.Within s.may := by
  obtain ⟨history, hh⟩ := hs.nonempty
  have hcovers := hs.faithful.covers history hh
  exact hcovers.must.trans hcovers.may

/-! ### One address in a slot -/

namespace DirectMapped

variable {c : DirectMapped} {a b : Int}

/-- A direct-mapped cache holds one address in a slot. -/
theorem eq_of_slot_eq {history : List Int} (ha : a ∈ (Policy.directMapped c).contents history)
    (hb : b ∈ (Policy.directMapped c).contents history) (h : c.slot a = c.slot b) : a = b := by
  induction history using List.reverseRecOn with
  | nil => cases ha
  | append_singleton history x ih =>
    rw [Policy.contents_concat] at ha hb
    rcases mem_load.1 ha with rfl | ⟨ha, hax⟩
    · rcases mem_load.1 hb with rfl | ⟨-, hbx⟩
      · rfl
      · exact absurd h.symm hbx
    · rcases mem_load.1 hb with rfl | ⟨hb, -⟩
      · exact absurd h hax
      · exact ih ha hb

/-- So does MUST of an exact state. -/
theorem Exact.address_eq_of_age_eq {H : Set (List Int)} {s : State} (hs : c.Exact H s)
    {e f : Entry} (he : e ∈ s.must) (hf : f ∈ s.must) (h : e.age = f.age) :
    e.address = f.address := by
  obtain ⟨history, hh⟩ := hs.nonempty
  have hin : ∀ {x : Entry}, x ∈ s.must →
      x.address ∈ (Policy.directMapped c).contents history := fun hx =>
    (hs.must _).1 (EntrySet.address_mem_addresses hx) history hh
  apply eq_of_slot_eq (hin he) (hin hf)
  rw [← hs.mustSlots e he, ← hs.mustSlots f hf, h]

end DirectMapped

/-! ### Whole blocks -/

namespace Scratchpad

variable {p : Scratchpad} {kind : SetKind} {t : Journal}

theorem dvd_bytesOf (p : Scratchpad) (a : Int) : p.geometry.blockSize ∣ p.bytesOf a := by
  rw [bytesOf]
  split
  · exact dvd_roundUp _ _
  · exact Int.dvd_zero _

/-- A hit moves entries by whole blocks. -/
theorem dvd_agedByHit {b ageF sizeF ageG sizeG : Int} (hageF : b ∣ ageF) (hsizeF : b ∣ sizeF)
    (hageG : b ∣ ageG) (hsizeG : b ∣ sizeG) : b ∣ agedByHit kind ageF sizeF ageG sizeG := by
  rw [agedByHit]
  split
  · cases kind with
    | must =>
      show b ∣ max ageG (sizeF + max (ageF - sizeG) 0)
      have hover : b ∣ max (ageF - sizeG) 0 :=
        max_rec' (b ∣ ·) (Int.dvd_sub hageF hsizeG) (Int.dvd_zero b)
      exact max_rec' (b ∣ ·) hageG (Int.dvd_add hsizeF hover)
    | may =>
      show b ∣ min ageF ageG + sizeF
      exact Int.dvd_add (min_rec' (b ∣ ·) hageF hageG) hsizeF
  · split
    · exact Int.dvd_add hageG hsizeF
    · exact hageG

theorem dvd_ageAfter {s : EntrySet} (hs : ∀ e ∈ s, p.geometry.blockSize ∣ e.age) (a : Int)
    {e : Entry} (he : e ∈ s) : p.geometry.blockSize ∣ p.ageAfter kind s a e := by
  cases h : s.entry? a with
  | none =>
    rw [ageAfter_miss h]
    exact Int.dvd_add (hs e he) (p.dvd_bytesOf a)
  | some hit =>
    rw [ageAfter_hit h]
    exact dvd_agedByHit (hs hit (EntrySet.entry?_mem h)) (p.dvd_bytesOf a) (hs e he)
      (p.dvd_bytesOf e.address)

/-- All ages are whole blocks. -/
def InBlocks (p : Scratchpad) (s : State) : Prop :=
  ∀ kind, ∀ e ∈ s.entries kind, p.geometry.blockSize ∣ e.age

/-- An access to a scratchpad keeps ages in whole blocks. -/
theorem inBlocks_access {s s' : State} {a : Int} (hs : p.InBlocks s)
    (h : (p.access s a t).result = .ok s') : p.InBlocks s' := by
  obtain ⟨-, ⟨-, rfl⟩ | ⟨hfits, -⟩⟩ := access_cases h
  · exact hs
  · intro kind e he
    rw [entries_access hfits h] at he
    rcases EntrySet.mem_reloaded.1 he with rfl | ⟨f, hf, -, -, rfl⟩
    · exact Int.dvd_zero _
    · exact dvd_ageAfter (hs kind) a hf

/-- Every derived state of a scratchpad has its ages in whole blocks. -/
theorem tracks_inBlocks (p : Scratchpad) (t : Journal) :
    (Policy.scratchpad p).Tracks t fun _ s => s.Regular (.scratchpad p) ∧ p.InBlocks s where
  blank := ⟨.blank _, by rintro (_ | _) e he <;> cases he⟩
  access := fun hs h => ⟨Policy.regular_access hs.1 h, inBlocks_access hs.2 h⟩
  join := by
    intro _ _ s u s' hs hu h
    refine ⟨Policy.regular_joinTwo hs.1 hu.1 h, fun kind e he => ?_⟩
    exact (Policy.mem_or_mem_of_joinTwo hs.1 hu.1 h kind he).elim (hs.2 kind e) (hu.2 kind e)

end Scratchpad

/-! ### All policies -/

namespace Policy

/-- The ages of a state are such as the memory can have. -/
def Places : Policy → State → Prop
  | lruCache c, s =>
    (∀ kind, ∀ e ∈ s.entries kind, 0 ≤ e.age ∧ e.age < c.lines) ∧ s.must.Within s.may
  | directMapped c, s =>
    (∀ kind, ∀ e ∈ s.entries kind,
      c.slotOf e.address = .ok e.age ∧ 0 ≤ e.age ∧ e.age < c.lines) ∧
    ∀ e ∈ s.must, ∀ f ∈ s.must, e.age = f.age → e.address = f.address
  | scratchpad p, s =>
    (∀ kind, ∀ e ∈ s.entries kind, 0 ≤ e.age ∧ p.geometry.blockSize ∣ e.age ∧
      ∀ t, ∃ size, (p.room e.address t).result = .ok size ∧ e.age + size ≤ p.capacity) ∧
    s.must.Within s.may

/-- The entries of a derived state are where its policy can have them, and MAY has what MUST has. -/
theorem places_of_derivable {p : Policy} (hp : p.WellFormed) {s : State} (hs : p.Derivable s) :
    p.Places s ∧ ∀ a ∈ s.must.addresses, a ∈ s.may.addresses := by
  obtain ⟨d, t, hd⟩ := hs
  cases p with
  | lruCache c =>
    have hs := d.tracked (LruCache.tracks_packed hp t) hd
    have hwithin := hs.must_within_may
    refine ⟨⟨fun kind e he => ?_, hwithin⟩, fun a ha => hwithin.addresses_subset ha⟩
    obtain ⟨hage, -, hend⟩ := hs.tidy.inside kind e he
    dsimp only at hend
    exact ⟨hage, by omega⟩
  | directMapped c =>
    have hs := d.tracked (c.tracks_exact t) hd
    have hregular := d.tracked (tracks_regular (.directMapped c) t) hd
    refine ⟨⟨fun kind e he => ?_, fun e he f hf => hs.address_eq_of_age_eq he hf⟩,
      fun a ha => hs.must_subset_may ha⟩
    refine ⟨hregular.inSlots c rfl kind e he, ?_⟩
    rw [hs.inSlots kind e he]
    exact ⟨Int.fmod_nonneg_of_pos _ hp.1, Int.fmod_lt_of_pos _ hp.1⟩
  | scratchpad p =>
    have hs := d.tracked (p.tracks_packed t) hd
    have hblocks := (d.tracked (p.tracks_inBlocks t) hd).2
    have hwithin := hs.must_within_may
    refine ⟨⟨fun kind e he => ?_, hwithin⟩, fun a ha => hwithin.addresses_subset ha⟩
    obtain ⟨hage, hpos, hend⟩ := hs.tidy.inside kind e he
    exact ⟨hage, hblocks kind e he, fun t => ⟨_, Scratchpad.room_of_pos hpos t, hend⟩⟩

/-- **Representation.**  In every derivable state both sets are in strictly ascending order and
hold no address twice, MUST holds no address that MAY does not, the capacity is that of the
policy, and the ages are such as the memory can have. -/
theorem representation (p : Policy) (hp : p.WellFormed) (s : State) (hs : p.Derivable s) :
    (∀ kind, (s.entries kind).Ascending ∧ (s.entries kind).Distinct) ∧
    (∀ a ∈ s.must.addresses, a ∈ s.may.addresses) ∧
    s.capacity = p.capacity ∧ p.Places s := by
  obtain ⟨hplaces, hsubset⟩ := places_of_derivable hp hs
  obtain ⟨d, t, hd⟩ := hs
  have hregular := d.tracked (tracks_regular p t) hd
  exact ⟨fun kind => ⟨hregular.ascending kind, hregular.distinct kind⟩, hsubset,
    hregular.capacity, hplaces⟩

-- In each of the three states a join has made MUST and MAY differ.
theorem representation_after_join :
    let cached : State := ⟨[⟨3, 0⟩, ⟨2, 2⟩], [⟨3, 0⟩, ⟨1, 1⟩, ⟨2, 1⟩], 3⟩
    let slotted : State := ⟨[⟨2, 1⟩], [⟨0, 0⟩, ⟨4, 0⟩, ⟨2, 1⟩], 2⟩
    let loaded : State := ⟨[⟨2, 0⟩, ⟨3, 12⟩, ⟨1, 16⟩], [⟨2, 0⟩, ⟨1, 4⟩, ⟨3, 4⟩], 32⟩
    ((lruCache ⟨3⟩).Derivable cached ∧ (lruCache ⟨3⟩).Places cached) ∧
    ((directMapped ⟨2, 1⟩).Derivable slotted ∧ (directMapped ⟨2, 1⟩).Places slotted ∧
      ∀ a ∈ slotted.must.addresses, a ∈ slotted.may.addresses) ∧
    ((scratchpad Scratchpad.mixedSizes).Derivable loaded ∧
      (scratchpad Scratchpad.mixedSizes).Places loaded) := by
  intro cached slotted loaded
  have hcached : (lruCache ⟨3⟩).Derivable cached :=
    ⟨.access (.join (.access (.access .blank 1) 2) (.access (.access .blank 2) 3) []) 3, none,
      by rfl⟩
  have hslotted : (directMapped ⟨2, 1⟩).Derivable slotted :=
    ⟨.join (.access (.access .blank 0) 2) (.access (.access .blank 2) 4) [], none, by rfl⟩
  have hloaded : (scratchpad Scratchpad.mixedSizes).Derivable loaded :=
    ⟨.access (.join (.access (.access (.access .blank 1) 2) 3)
      (.access (.access (.access .blank 3) 2) 1) []) 2, none, by rfl⟩
  obtain ⟨-, -, -, hlines⟩ := representation (lruCache ⟨3⟩) (by decide : (1 : Int) ≤ 3) _ hcached
  obtain ⟨-, hsubset, -, hslots⟩ := representation (directMapped ⟨2, 1⟩)
    (by decide : (0 : Int) < 2 ∧ (0 : Int) ≤ 1) _ hslotted
  obtain ⟨-, -, -, hblocks⟩ := representation (scratchpad Scratchpad.mixedSizes) trivial _ hloaded
  exact ⟨⟨hcached, hlines⟩, ⟨hslotted, hslots, hsubset⟩, ⟨hloaded, hblocks⟩⟩

end Policy

end Residency
