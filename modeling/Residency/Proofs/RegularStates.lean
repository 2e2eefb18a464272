/-
Residency/Proofs/RegularStates.lean

Regular states.  The sets of a regular state hold no address twice and are in strictly
ascending order, so two of them are equal as soon as they have the same entries
(`EntrySet.Ascending.eq_of_mem_iff`); the state has the capacity of its policy, and in a
direct-mapped cache every entry stands in its slot.  All derivable states of all policies
are regular, whatever the numbers of the policy are (`Policy.tracks_regular`).

On regular states the three policies join alike (`Policy.joinTwo_cases`).  A direct-mapped
cache computes the slots of a join anew, but they are the larger and the smaller of two
equal numbers.  What is proved about joins from here on need not look at the policy.
-/
import Residency.Proofs.DirectMappedPaths
import Residency.Proofs.Packing

namespace Residency

namespace EntrySet

variable {s t : EntrySet} {e : Entry} {a : Int} {kind : SetKind}

/-! ### The order of entries -/

theorem pairwise_sorted (s : EntrySet) :
    s.sorted.Pairwise fun e f => e.age < f.age ∨ (e.age = f.age ∧ e.address ≤ f.address) := by
  have hle : ∀ e f : Entry, e.le f = true ↔
      e.age < f.age ∨ (e.age = f.age ∧ e.address ≤ f.address) := by
    intro e f
    simp [Entry.le]
  have htotal : Std.Total fun e f : Entry => e.le f = true := by
    refine ⟨fun e f => ?_⟩
    rw [hle, hle]
    omega
  have htrans : IsTrans Entry fun e f => e.le f = true := by
    refine ⟨fun e f g hef hfg => ?_⟩
    rw [hle] at hef hfg ⊢
    omega
  rw [sorted, sortBy_eq_insertionSort]
  exact (List.pairwise_insertionSort _ s).imp fun {e f} hef => (hle e f).1 hef

/-- A sorted distinct set is in ascending order. -/
theorem ascending_sorted (hs : s.Distinct) : s.sorted.Ascending := by
  have hdistinct : s.sorted.Pairwise fun e f => e.address ≠ f.address :=
    List.pairwise_map.1 (distinct_sorted.2 hs)
  refine (hdistinct.and (pairwise_sorted s)).imp ?_
  rintro e f ⟨hne, hle⟩
  omega

/-- So is a set after an access. -/
theorem ascending_reloaded {size : Int → Int} {room : Int} {age : Entry → Int}
    (hs : s.Distinct) : (reloaded size room age s a).Ascending := by
  have hd : (reloaded size room age s a).Distinct := distinct_reloaded hs
  rw [reloaded] at hd ⊢
  exact ascending_sorted (distinct_sorted.1 hd)

/-- Sets in ascending order are equal if they have the same entries. -/
theorem Ascending.eq_of_mem_iff (hs : s.Ascending) (ht : t.Ascending)
    (h : ∀ e, e ∈ s ↔ e ∈ t) : s = t := by
  have hnodup : ∀ {u : EntrySet}, u.Ascending → u.Nodup := by
    intro u hu
    refine hu.imp fun {e f} hef heq => ?_
    rw [heq] at hef
    omega
  have hperm : s.Perm t := (List.perm_ext_iff_of_nodup (hnodup hs) (hnodup ht)).2 h
  refine hperm.eq_of_pairwise (fun e f _ _ hef hfe => ?_) hs ht
  omega

/-- Distinct sets that lie within each other have the same entries. -/
theorem Within.mem_iff (hst : s.Within t) (hts : t.Within s) (hs : s.Distinct)
    (ht : t.Distinct) : e ∈ s ↔ e ∈ t := by
  have hsub : ∀ {s t : EntrySet}, s.Within t → t.Within s → s.Distinct → e ∈ s → e ∈ t := by
    intro s t hst hts hs he
    obtain ⟨f, hf, hfe, hle⟩ := hst e he
    obtain ⟨g, hg, hgf, hle'⟩ := hts f hf
    -- The entry comes back to itself, so it has lost no age on the way.
    obtain rfl : g = e := hs.eq_of_address hg he (hgf.trans hfe)
    obtain rfl : f = g := by
      rw [Entry.mk.injEq]
      exact ⟨hfe, Int.le_antisymm hle hle'⟩
    exact hf
  exact ⟨hsub hst hts hs, hsub hts hst ht⟩

/-! ### Joins -/

/-- What a join keeps of two sets of the given kind, before it is put in order. -/
def joined : SetKind → EntrySet → EntrySet → EntrySet
  | .must => common
  | .may => merged

/-- A join of distinct sets is distinct. -/
theorem distinct_joined (kind : SetKind) (hs : s.Distinct) (ht : t.Distinct) :
    (joined kind s t).Distinct := by
  cases kind with
  | must => exact List.Nodup.sublist (addresses_common_sublist s t) hs
  | may => exact distinct_merged hs ht

/-- A join takes every entry from one of the two sets. -/
theorem mem_or_mem_of_mem_joined (he : e ∈ joined kind s t) : e ∈ s ∨ e ∈ t := by
  cases kind with
  | must =>
    obtain ⟨f, hf, g, hg, rfl⟩ := mem_common.1 he
    rcases Int.le_total f.age g.age with hle | hle
    · rw [Int.max_eq_right hle, ← entry?_address hg]
      exact .inr (entry?_mem hg)
    · rw [Int.max_eq_left hle]
      exact .inl hf
  | may =>
    obtain ⟨⟨address, age⟩, hf, rfl, rfl⟩ := exists_of_mem_merged he
    exact hf

/-- In common are the addresses of both sets. -/
theorem mem_addresses_common :
    a ∈ (common s t).addresses ↔ a ∈ s.addresses ∧ a ∈ t.addresses := by
  constructor
  · intro ha
    exact ⟨(common_within_left s t).addresses_subset ha,
      (common_within_right s t).addresses_subset ha⟩
  · rintro ⟨hs, ht⟩
    obtain ⟨e, he, rfl⟩ := mem_addresses.1 hs
    obtain ⟨f, hf⟩ := exists_entry? ht
    exact mem_addresses.2 ⟨_, mem_common.2 ⟨e, he, f, hf, rfl⟩, rfl⟩

/-- Merged are the addresses of either set. -/
theorem mem_addresses_merged (ht : t.Distinct) :
    a ∈ (merged s t).addresses ↔ a ∈ s.addresses ∨ a ∈ t.addresses := by
  constructor
  · intro ha
    obtain ⟨e, he, rfl⟩ := mem_addresses.1 ha
    have he' : e ∈ joined .may s t := he
    exact (mem_or_mem_of_mem_joined he').imp address_mem_addresses address_mem_addresses
  · rintro (ha | ha)
    · exact (within_merged_left s t).addresses_subset ha
    · exact (within_merged_right s ht).addresses_subset ha

theorem nodup_firstSeen (as : List Int) : (firstSeen as).Nodup := by
  induction as with
  | nil => exact List.nodup_nil
  | cons a as ih =>
    rw [firstSeen, List.nodup_cons]
    exact ⟨by simp, ih.filter _⟩

end EntrySet

/-! ### Regular states -/

/-- Both sets are in order and hold no address twice, and the numbers that a state takes over
from its policy are right. -/
structure State.Regular (p : Policy) (s : State) : Prop where
  ascending : ∀ kind, (s.entries kind).Ascending
  distinct : ∀ kind, (s.entries kind).Distinct
  capacity : s.capacity = p.capacity
  inSlots : ∀ c, p = .directMapped c →
    ∀ kind, ∀ e ∈ s.entries kind, c.slotOf e.address = .ok e.age

namespace State

variable {p : Policy} {s u : State}

theorem capacityOr_self {capacity : Int} (h : s.capacity = capacity) :
    s.capacityOr capacity = capacity := by
  rw [capacityOr, h]
  split <;> rfl

/-- States with the same sets and the same capacity are equal. -/
theorem eq_of_entries (h : ∀ kind, s.entries kind = u.entries kind)
    (hcapacity : s.capacity = u.capacity) : s = u := by
  rw [State.mk.injEq]
  exact ⟨h .must, h .may, hcapacity⟩

theorem Regular.blank (p : Policy) : (State.blank p.capacity).Regular p where
  ascending := by rintro (_ | _) <;> exact List.Pairwise.nil
  distinct := by rintro (_ | _) <;> exact List.nodup_nil
  capacity := rfl
  inSlots := by rintro c - (_ | _) e he <;> cases he

/-- A state whose sets are put in order at the end is regular if they hold no address twice. -/
theorem Regular.of_sorted {sets : SetKind → EntrySet}
    (hentries : ∀ kind, s.entries kind = (sets kind).sorted)
    (hdistinct : ∀ kind, (sets kind).Distinct) (hcapacity : s.capacity = p.capacity)
    (hslots : ∀ c, p = .directMapped c → ∀ kind, ∀ e ∈ sets kind, c.slotOf e.address = .ok e.age) :
    s.Regular p := by
  refine ⟨fun kind => ?_, fun kind => ?_, hcapacity, fun c hc kind e he => ?_⟩
  · rw [hentries]
    exact EntrySet.ascending_sorted (hdistinct kind)
  · rw [hentries, EntrySet.distinct_sorted]
    exact hdistinct kind
  · rw [hentries, EntrySet.mem_sorted] at he
    exact hslots c hc kind e he

/-- An access that reloads both sets leaves a regular state. -/
theorem Regular.of_reloaded {size : Int → Int} {room a : Int} {age : SetKind → Entry → Int}
    (hs : s.Regular p) (hentries : ∀ kind, u.entries kind =
      (s.entries kind).reloaded size room (age kind) a)
    (hcapacity : u.capacity = p.capacity) (hp : ∀ c, p ≠ .directMapped c) : u.Regular p := by
  refine ⟨fun kind => ?_, fun kind => ?_, hcapacity, fun c hc => absurd hc (hp c)⟩
  · rw [hentries]
    exact EntrySet.ascending_reloaded (hs.distinct kind)
  · rw [hentries]
    exact EntrySet.distinct_reloaded (hs.distinct kind)

/-- Regular states that are as precise as each other are equal. -/
theorem Regular.eq_of_precise (hs : s.Regular p) (hu : u.Regular p) (h : s.Precise u)
    (h' : u.Precise s) : s = u := by
  refine eq_of_entries (fun kind => ?_) (hs.capacity.trans hu.capacity.symm)
  apply (hs.ascending kind).eq_of_mem_iff (hu.ascending kind)
  intro e
  cases kind with
  | must => exact EntrySet.Within.mem_iff h'.1 h.1 (hs.distinct .must) (hu.distinct .must)
  | may => exact EntrySet.Within.mem_iff h.2 h'.2 (hs.distinct .may) (hu.distinct .may)

end State

/-! ### Direct-mapped caches -/

namespace DirectMapped

variable {c : DirectMapped} {s u : State} {a : Int}

/-- An address has a slot if and only if the cache has lines. -/
theorem slotOf_eq_ok {k : Int} : c.slotOf a = .ok k ↔ c.requireSlots = .ok () ∧ k = c.slot a := by
  rw [slotOf]
  cases c.requireSlots with
  | error e => simp [bind, Except.bind]
  | ok => simp [bind, Except.bind, pure, Except.pure, eq_comm]

theorem inSlots_of_regular (hs : s.Regular (.directMapped c)) (kind : SetKind) :
    c.InSlots (s.entries kind) := fun e he =>
  (slotOf_eq_ok.1 (hs.inSlots c rfl kind e he)).2

/-- Entries in their slots are the same if their addresses are. -/
theorem InSlots.mem_iff {s t : EntrySet} (hs : c.InSlots s) (ht : c.InSlots t)
    (h : ∀ a, a ∈ s.addresses ↔ a ∈ t.addresses) (e : Entry) : e ∈ s ↔ e ∈ t := by
  have hsub : ∀ {s t : EntrySet}, c.InSlots s → c.InSlots t →
      (∀ a, a ∈ s.addresses → a ∈ t.addresses) → e ∈ s → e ∈ t := by
    intro s t hs ht h he
    obtain ⟨f, hf, hfe⟩ := EntrySet.mem_addresses.1 (h _ (EntrySet.address_mem_addresses he))
    obtain rfl : f = e := by
      rw [Entry.mk.injEq]
      exact ⟨hfe, by rw [hs e he, ht f hf, hfe]⟩
    exact hf
  exact ⟨hsub hs ht fun a => (h a).1, hsub ht hs fun a => (h a).2⟩

/-- An access to a direct-mapped cache repeats no address. -/
theorem distinct_accessed {s : EntrySet} (hs : s.Distinct) (hslots : c.InSlots s) (a : Int) :
    EntrySet.Distinct (s.filter (fun e => e.age != c.slot a) ++ [c.slotEntry a]) := by
  refine EntrySet.distinct_concat (hs.of_sublist List.filter_sublist) ?_
  intro ha
  obtain ⟨e, he, hea⟩ := EntrySet.mem_addresses.1 ha
  obtain ⟨hes, hage⟩ := List.mem_filter.1 he
  rw [hslots e hes, show e.address = a from hea] at hage
  simp at hage

/-- Merging slots repeats no address in MUST. -/
theorem distinct_merge_must (hs : s.must.Distinct) (u : State) :
    (c.merge s u).must.Distinct := by
  show (EntrySet.sorted _).Distinct
  rw [EntrySet.distinct_sorted, EntrySet.Distinct, EntrySet.addresses, List.map_map]
  exact hs.of_sublist List.filter_sublist

/-- Merging slots repeats no address in MAY. -/
theorem distinct_merge_may (s u : State) : (c.merge s u).may.Distinct := by
  show (EntrySet.sorted _).Distinct
  rw [EntrySet.distinct_sorted, EntrySet.Distinct, EntrySet.addresses, List.map_map]
  have hmap : (s.may.jointAddresses u.may).map ((fun e => e.address) ∘ c.slotEntry) =
      s.may.jointAddresses u.may := List.map_id _
  rw [hmap]
  exact EntrySet.nodup_firstSeen _

/-- On regular states the join keeps the larger and the smaller age, as other policies do. -/
theorem merge_of_regular (hs : s.Regular (.directMapped c)) (hu : u.Regular (.directMapped c))
    (kind : SetKind) : (c.merge s u).entries kind =
      (EntrySet.joined kind (s.entries kind) (u.entries kind)).sorted := by
  have hslots : c.InSlots (EntrySet.joined kind (s.entries kind) (u.entries kind)) :=
    fun e he => (EntrySet.mem_or_mem_of_mem_joined he).elim (inSlots_of_regular hs kind e)
      (inSlots_of_regular hu kind e)
  have hjoined := EntrySet.ascending_sorted
    (EntrySet.distinct_joined kind (hs.distinct kind) (hu.distinct kind))
  cases kind with
  | must =>
    have hd : (c.merge s u).must.Distinct := distinct_merge_must (hs.distinct .must) u
    have hasc : (c.merge s u).must.Ascending :=
      EntrySet.ascending_sorted (EntrySet.distinct_sorted.1 hd)
    refine hasc.eq_of_mem_iff hjoined fun e => ?_
    rw [EntrySet.mem_sorted]
    refine (inSlots_merge_must s u).mem_iff hslots (fun a => ?_) e
    rw [mem_addresses_merge_must]
    exact EntrySet.mem_addresses_common.symm
  | may =>
    have hasc : (c.merge s u).may.Ascending :=
      EntrySet.ascending_sorted (EntrySet.distinct_sorted.1 (distinct_merge_may s u))
    refine hasc.eq_of_mem_iff hjoined fun e => ?_
    rw [EntrySet.mem_sorted]
    refine (inSlots_merge_may s u).mem_iff hslots (fun a => ?_) e
    rw [mem_addresses_merge_may]
    exact (EntrySet.mem_addresses_merged (hu.distinct .may)).symm

end DirectMapped

/-! ### Accesses with least-recently-used replacement -/

/-- A step reloads both sets. -/
theorem LruCache.entries_step (c : LruCache) (s : State) (a : Int) (kind : SetKind) :
    (c.step s a).entries kind =
      (s.entries kind).reloaded (fun _ => 1) c.lines (ageAfter kind (s.entries kind) a) a := by
  cases kind with
  | must => exact accessed_eq_reloaded c .must s.must a
  | may => exact accessed_eq_reloaded c .may s.may a

/-- What an access does to the sets, if it succeeds and the function is not too large. -/
theorem Scratchpad.entries_access {p : Scratchpad} {t : Journal} {s s' : State} {a : Int}
    (ha : p.bytesOf a ≤ p.capacity) (h : (p.access s a t).result = .ok s') (kind : SetKind) :
    s'.entries kind = (s.entries kind).reloaded p.bytesOf p.capacity
      (p.ageAfter kind (s.entries kind) a) a := by
  obtain ⟨-, ⟨hlarge, -⟩ | ⟨-, hmust, hmay, -⟩⟩ := access_cases h
  · omega
  · cases kind with
    | must => exact hmust
    | may => exact hmay

/-! ### All policies -/

namespace Policy

variable {p : Policy} {t : Journal} {s u joined : State} {a : Int}

/-- What a join of two regular states yields, if it succeeds. -/
theorem joinTwo_cases (hs : s.Regular p) (hu : u.Regular p)
    (h : (p.joinTwo s u t).result = .ok joined) :
    (∀ kind, joined.entries kind =
      (EntrySet.joined kind (s.entries kind) (u.entries kind)).sorted) ∧
    joined.capacity = p.capacity := by
  have hmerge := joinTwo_mergeTwo h
  have hsets : s.must.joinMust u.must = .ok joined.must →
      s.may.joinMay u.may = .ok joined.may → ∀ kind, joined.entries kind =
        (EntrySet.joined kind (s.entries kind) (u.entries kind)).sorted := by
    intro hmust hmay kind
    cases kind with
    | must => exact (EntrySet.joinMust_eq_ok.1 hmust).2
    | may => exact (EntrySet.joinMay_eq_ok.1 hmay).2.2
  cases p with
  | lruCache c =>
    obtain ⟨hmust, hmay, hcapacity⟩ := LruCache.merge_eq_ok.1 (LruCache.merge_of_joinTwo hmerge)
    exact ⟨hsets hmust hmay, hcapacity.trans (State.capacityOr_self hs.capacity)⟩
  | directMapped c =>
    obtain rfl := DirectMapped.eq_merge_of_joinTwo hmerge
    exact ⟨DirectMapped.merge_of_regular hs hu, State.capacityOr_self hs.capacity⟩
  | scratchpad q =>
    obtain ⟨hmust, hmay, hcapacity⟩ :=
      Scratchpad.merge_eq_ok.1 (Scratchpad.merge_of_joinTwo hmerge)
    exact ⟨hsets hmust hmay, hcapacity.trans (State.capacityOr_self hs.capacity)⟩

/-- Every entry of a join is an entry of one of the two states. -/
theorem mem_or_mem_of_joinTwo (hs : s.Regular p) (hu : u.Regular p)
    (h : (p.joinTwo s u t).result = .ok joined) (kind : SetKind) {e : Entry}
    (he : e ∈ joined.entries kind) : e ∈ s.entries kind ∨ e ∈ u.entries kind := by
  rw [(joinTwo_cases hs hu h).1, EntrySet.mem_sorted] at he
  exact EntrySet.mem_or_mem_of_mem_joined he

/-- A join of regular states is regular. -/
theorem regular_joinTwo (hs : s.Regular p) (hu : u.Regular p)
    (h : (p.joinTwo s u t).result = .ok joined) : joined.Regular p := by
  obtain ⟨hentries, hcapacity⟩ := joinTwo_cases hs hu h
  refine .of_sorted hentries (fun kind => ?_) hcapacity fun c hc kind e he => ?_
  · exact EntrySet.distinct_joined kind (hs.distinct kind) (hu.distinct kind)
  · exact (EntrySet.mem_or_mem_of_mem_joined he).elim (hs.inSlots c hc kind e)
      (hu.inSlots c hc kind e)

/-- An access to a regular state leaves a regular state. -/
theorem regular_access (hs : s.Regular p) (h : (p.access s a t).result = .ok u) :
    u.Regular p := by
  cases p with
  | lruCache c =>
    obtain rfl := LruCache.eq_step_of_access h
    exact hs.of_reloaded (c.entries_step s a) (State.capacityOr_self hs.capacity)
      fun c => Policy.noConfusion
  | directMapped c =>
    obtain ⟨_, hslots, -⟩ := Analysis.result_bind_eq_ok.1 h
    obtain rfl := DirectMapped.eq_step_of_access h
    have hentries : ∀ kind, (c.step s a).entries kind = c.accessed (s.entries kind) a := by
      rintro (_ | _) <;> rfl
    refine .of_sorted hentries (fun kind => ?_) (State.capacityOr_self hs.capacity) ?_
    · exact DirectMapped.distinct_accessed (hs.distinct kind)
        (DirectMapped.inSlots_of_regular hs kind) a
    · intro c' hc kind e he
      obtain rfl := Policy.directMapped.inj hc
      refine DirectMapped.slotOf_eq_ok.2 ⟨hslots, ?_⟩
      exact DirectMapped.inSlots_accessed (DirectMapped.inSlots_of_regular hs kind) a e
        (EntrySet.mem_sorted.2 he)
  | scratchpad q =>
    obtain ⟨-, ⟨-, rfl⟩ | ⟨hfits, -, -, -, hcapacity⟩⟩ := Scratchpad.access_cases h
    · exact hs
    · exact hs.of_reloaded (Scratchpad.entries_access hfits h)
        (hcapacity.trans (State.capacityOr_self hs.capacity)) fun c => Policy.noConfusion

/-- All derivable states are regular. -/
theorem tracks_regular (p : Policy) (t : Journal) : p.Tracks t fun _ s => s.Regular p where
  blank := .blank p
  access := regular_access
  join := regular_joinTwo

end Policy

end Residency
