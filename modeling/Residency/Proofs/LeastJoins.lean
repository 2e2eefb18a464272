/-
Residency/Proofs/LeastJoins.lean

Joins as least upper bounds.  The join of valid states keeps in MUST the addresses common to
all of them at the largest of their ages, and in MAY the addresses of any of them at the
smallest.  `State.LeastAbove` says this in terms of the precision order, and both
descriptions follow from it.  Two valid states that are least above the same states are
equal, so a join depends on the set of its states and not on their order or number.

Valid states have one capacity, which need not be that of the memory.  A join hands the
capacity on without looking at it (`Policy.joinTwo_recast`), so what is known about the joins
of regular states carries over to valid ones:

    join (recast k s₁, …, recast k sₙ)  =  recast k (join (s₁, …, sₙ))
-/
import Residency.Proofs.Joins

namespace Residency

/-! ### Least upper bounds -/

/-- The least upper bound of states, made of their entries. -/
structure State.LeastAbove (ss : List State) (joined : State) : Prop where
  precise_iff (v : State) : joined.Precise v ↔ ∀ s ∈ ss, s.Precise v
  exists_mem (kind : SetKind) {e : Entry} (he : e ∈ joined.entries kind) :
    ∃ s ∈ ss, e ∈ s.entries kind

namespace State.LeastAbove

variable {ss us : List State} {s joined other : State} {e : Entry}

/-- The bound is above every state. -/
theorem above (h : LeastAbove ss joined) : ∀ s ∈ ss, s.Precise joined :=
  (h.precise_iff joined).1 (Precise.refl joined)

/-- The bound of fewer states is more precise. -/
theorem precise_of_subset (h : LeastAbove ss joined) (h' : LeastAbove us other)
    (hsub : ∀ s ∈ ss, s ∈ us) : joined.Precise other := by
  rw [h.precise_iff]
  exact fun s hs => h'.above s (hsub s hs)

/-- Copies of one state are bounded by that state. -/
theorem of_copies (hmem : s ∈ ss) (h : ∀ x ∈ ss, x = s) : LeastAbove ss s where
  precise_iff v := by
    constructor
    · intro hs x hx
      rw [h x hx]
      exact hs
    · exact fun hall => hall s hmem
  exists_mem _ _ he := ⟨s, hmem, he⟩

/-- MUST of the bound has what all states have, at the largest age. -/
theorem mem_must_iff (h : LeastAbove ss joined) (hd : ∀ s ∈ ss, s.must.Distinct) :
    e ∈ joined.must ↔ (∃ s ∈ ss, e ∈ s.must) ∧
      ∀ s ∈ ss, ∃ f ∈ s.must, f.address = e.address ∧ f.age ≤ e.age := by
  constructor
  · intro he
    exact ⟨h.exists_mem .must he, fun s hs => (h.above s hs).1 e he⟩
  · rintro ⟨⟨s, hs, hes⟩, hall⟩
    -- The state that promises just `e` is above all others, hence above the join.
    have hprecise : joined.Precise ⟨[e], joined.may, joined.capacity⟩ := by
      rw [h.precise_iff]
      intro u hu
      refine ⟨fun f hf => ?_, (h.above u hu).2⟩
      rw [List.mem_singleton.1 hf]
      exact hall u hu
    obtain ⟨f, hf, hfe, hle⟩ := hprecise.1 e (List.mem_singleton.2 rfl)
    obtain ⟨g, hg, hgf, hle'⟩ := (h.above s hs).1 f hf
    obtain rfl : g = e := (hd s hs).eq_of_address hg hes (hgf.trans hfe)
    obtain rfl : f = g := by
      rw [Entry.mk.injEq]
      exact ⟨hfe, Int.le_antisymm hle hle'⟩
    exact hf

/-- MAY of the bound has what some state has, at the smallest age. -/
theorem mem_may_iff (h : LeastAbove ss joined) (hd : joined.may.Distinct) :
    e ∈ joined.may ↔ (∃ s ∈ ss, e ∈ s.may) ∧
      ∀ s ∈ ss, ∀ f ∈ s.may, f.address = e.address → e.age ≤ f.age := by
  constructor
  · intro he
    refine ⟨h.exists_mem .may he, fun s hs f hf hfe => ?_⟩
    obtain ⟨g, hg, hgf, hle⟩ := (h.above s hs).2 f hf
    rw [← hd.eq_of_address hg he (hgf.trans hfe)]
    exact hle
  · rintro ⟨⟨s, hs, hes⟩, hall⟩
    obtain ⟨g, hg, hge, hle⟩ := (h.above s hs).2 e hes
    obtain ⟨u, hu, hgu⟩ := h.exists_mem .may hg
    obtain rfl : g = e := by
      rw [Entry.mk.injEq]
      exact ⟨hge, Int.le_antisymm hle (hall u hu g hgu hge)⟩
    exact hg

end State.LeastAbove

namespace Policy

variable {p : Policy} {t : Journal} {s u joined : State}

/-- Joining invents no entries. -/
theorem exists_mem_of_follow {us : List State} (hs : s.Regular p) (hus : ∀ u ∈ us, u.Regular p)
    (h : (Analysis.follow p.joinTwo s us t).result = .ok joined) {kind : SetKind} {e : Entry}
    (he : e ∈ joined.entries kind) : ∃ x ∈ s :: us, e ∈ x.entries kind := by
  induction us generalizing s with
  | nil =>
    obtain rfl := Analysis.result_follow_nil.1 h
    exact ⟨s, List.mem_cons_self, he⟩
  | cons u us ih =>
    obtain ⟨two, htwo, h⟩ := Analysis.result_follow_cons.1 h
    obtain ⟨hu, hrest⟩ := List.forall_mem_cons.1 hus
    obtain ⟨x, hx, hex⟩ := ih (regular_joinTwo hs hu htwo) hrest h
    rcases List.mem_cons.1 hx with rfl | hx
    · rcases mem_or_mem_of_joinTwo hs hu htwo kind hex with hex | hex
      · exact ⟨s, List.mem_cons_self, hex⟩
      · exact ⟨u, List.mem_cons_of_mem s List.mem_cons_self, hex⟩
    · exact ⟨x, List.mem_cons_of_mem s (List.mem_cons_of_mem u hx), hex⟩

/-- The join of regular states is regular and their least upper bound. -/
theorem leastAbove_join {ss : List State} (hss : ∀ s ∈ ss, s.Regular p)
    (h : (p.join ss t).result = .ok joined) :
    joined.Regular p ∧ State.LeastAbove ss joined := by
  obtain ⟨hregular, hprecise⟩ := join_precise_iff hss h
  refine ⟨hregular, hprecise, fun kind e he => ?_⟩
  obtain ⟨s, u, rest, rfl, hfold⟩ := result_join.1 h
  obtain ⟨hs, hrest⟩ := List.forall_mem_cons.1 hss
  exact exists_mem_of_follow hs hrest hfold he

end Policy

/-! ### Capacities -/

/-- The state with another capacity. -/
def State.recast (capacity : Int) (s : State) : State :=
  { s with capacity }

namespace State

variable {s : State} {j k : Int}

theorem entries_recast (kind : SetKind) : (s.recast k).entries kind = s.entries kind := by
  cases kind <;> rfl

theorem recast_recast : (s.recast j).recast k = s.recast k := rfl

theorem recast_capacity : s.recast s.capacity = s := rfl

theorem capacityOr_recast (hk : k ≠ 0) (capacity : Int) :
    (s.recast k).capacityOr capacity = k :=
  if_neg hk

end State

/-- The results of two analyses that go on from corresponding values correspond. -/
theorem Analysis.result_bind_map {α α' β β' : Type} {t : Journal} {x : Analysis α}
    {x' : Analysis α'} {f : α → Analysis β} {f' : α' → Analysis β'} {r : α → α'} {q : β → β'}
    (hx : (x' t).result = (x t).result.map r)
    (hf : ∀ a, (f' (r a) t).result = (f a t).result.map q) :
    ((x' >>= f') t).result = ((x >>= f) t).result.map q := by
  cases h : (x t).result with
  | error e =>
    rw [h] at hx
    rw [result_bind_of_error h, result_bind_of_error hx]
    rfl
  | ok a =>
    rw [h] at hx
    rw [result_bind_of_ok h, result_bind_of_ok hx]
    exact hf a

theorem Analysis.result_bind_map_right {α β β' : Type} {t : Journal} {x : Analysis α}
    {f : α → Analysis β} {f' : α → Analysis β'} {q : β → β'}
    (hf : ∀ a, (f' a t).result = (f a t).result.map q) :
    ((x >>= f') t).result = ((x >>= f) t).result.map q := by
  refine result_bind_map (r := id) ?_ hf
  cases (x t).result <;> rfl

namespace Policy

variable {p : Policy} {t : Journal} {s u joined : State} {k : Int}

/-- What the joins of caches and scratchpads have in common does not look at capacities. -/
theorem merge_recast (k capacity : Int) (s u : State) :
    (do
      let must ← s.must.joinMust u.must
      let may ← s.may.joinMay u.may
      return ⟨must, may, k⟩ : Except Fault State) =
    (do
      let must ← s.must.joinMust u.must
      let may ← s.may.joinMay u.may
      return ⟨must, may, capacity⟩ : Except Fault State).map (State.recast k) := by
  cases s.must.joinMust u.must with
  | error e => rfl
  | ok must =>
    cases s.may.joinMay u.may with
    | error e => rfl
    | ok may => rfl

/-- The model joins states of another capacity alike. -/
theorem mergeTwo_recast (hk : k ≠ 0) (s u : State) :
    (p.mergeTwo (s.recast k) (u.recast k) t).result =
      (p.mergeTwo s u t).result.map (State.recast k) := by
  cases p with
  | lruCache c =>
    have hmerge : c.merge (s.recast k) (u.recast k) = (c.merge s u).map (State.recast k) := by
      rw [LruCache.merge, State.capacityOr_recast hk]
      exact merge_recast k _ s u
    refine Analysis.result_bind_map hmerge fun joined => ?_
    refine Analysis.result_bind_map_right fun _ => ?_
    exact Analysis.result_bind_map_right fun _ => rfl
  | directMapped c =>
    have hmerge : c.merge (s.recast k) (u.recast k) = (c.merge s u).recast k := by
      rw [DirectMapped.merge, State.capacityOr_recast hk]
      rfl
    have hreports : ∀ joined : State, ((do
          DirectMapped.reportSet .must (joined.recast k).must
          DirectMapped.reportSet .may (joined.recast k).may
          return joined.recast k) t).result =
        ((do
          DirectMapped.reportSet .must joined.must
          DirectMapped.reportSet .may joined.may
          return joined) t).result.map (State.recast k) := by
      intro joined
      refine Analysis.result_bind_map_right fun _ => ?_
      exact Analysis.result_bind_map_right fun _ => rfl
    show (c.joinTwo (s.recast k) (u.recast k) t).result =
      (c.joinTwo s u t).result.map (State.recast k)
    rw [DirectMapped.joinTwo, DirectMapped.joinTwo, hmerge]
    -- the slots are asked for in both joins or in none
    by_cases hempty : (!(c.merge s u).isEmpty) = true
    · have hempty' : (!((c.merge s u).recast k).isEmpty) = true := hempty
      rw [if_pos hempty, if_pos hempty']
      exact Analysis.result_bind_map_right fun _ => hreports (c.merge s u)
    · have hempty' : ¬(!((c.merge s u).recast k).isEmpty) = true := hempty
      rw [if_neg hempty, if_neg hempty']
      exact hreports (c.merge s u)
  | scratchpad q =>
    have hmerge : q.merge (s.recast k) (u.recast k) = (q.merge s u).map (State.recast k) := by
      rw [Scratchpad.merge, State.capacityOr_recast hk]
      exact merge_recast k _ s u
    refine Analysis.result_bind_map hmerge fun joined => ?_
    exact Analysis.result_bind_map_right fun _ => rfl

/-- So does the policy, with its records. -/
theorem joinTwo_recast (hk : k ≠ 0) (s u : State) :
    (p.joinTwo (s.recast k) (u.recast k) t).result =
      (p.joinTwo s u t).result.map (State.recast k) :=
  Analysis.result_bind_map_right fun _ => mergeTwo_recast hk s u

/-- So it does state after state. -/
theorem follow_recast (hk : k ≠ 0) (s : State) (us : List State) :
    (Analysis.follow p.joinTwo (s.recast k) (us.map (State.recast k)) t).result =
      (Analysis.follow p.joinTwo s us t).result.map (State.recast k) := by
  induction us generalizing s with
  | nil => rfl
  | cons u us ih => exact Analysis.result_bind_map (joinTwo_recast hk s u) ih

/-- Joining does not look at the capacity, as long as the states have one. -/
theorem join_recast (hk : k ≠ 0) (ss : List State) :
    (p.join (ss.map (State.recast k)) t).result =
      (p.join ss t).result.map (State.recast k) := by
  rcases ss with _ | ⟨s, _ | ⟨u, rest⟩⟩
  · rfl
  · rfl
  · have hfold : ((do
          let joined ← Analysis.follow p.joinTwo (s.recast k)
            ((u :: rest).map (State.recast k))
          Analysis.count joined.usage
          return joined) t).result =
        ((do
          let joined ← Analysis.follow p.joinTwo s (u :: rest)
          Analysis.count joined.usage
          return joined) t).result.map (State.recast k) :=
      Analysis.result_bind_map (follow_recast hk s (u :: rest)) fun _ => rfl
    rw [List.map_cons, List.map_cons, join, join, List.isEmpty_map, List.length_map]
    split
    · exact Analysis.result_bind_map_right fun _ => hfold
    · exact hfold

end Policy

/-! ### Valid states -/

/-- A state of the given capacity that is regular but for this capacity. -/
structure State.Valid (p : Policy) (capacity : Int) (s : State) : Prop where
  capacity_eq : s.capacity = capacity
  regular : (s.recast p.capacity).Regular p

namespace State.Valid

variable {p : Policy} {capacity : Int} {s u : State} {ss us : List State}

theorem distinct (hs : s.Valid p capacity) (kind : SetKind) : (s.entries kind).Distinct := by
  rw [← entries_recast kind]
  exact hs.regular.distinct kind

/-- Valid states that are least above the same states are equal. -/
theorem eq_of_leastAbove (hs : s.Valid p capacity) (hu : u.Valid p capacity)
    (h : LeastAbove ss s) (h' : LeastAbove us u) (hmem : ∀ x, x ∈ ss ↔ x ∈ us) : s = u := by
  have hle : s.Precise u := h.precise_of_subset h' fun x => (hmem x).1
  have hle' : u.Precise s := h'.precise_of_subset h fun x => (hmem x).2
  have heq : s.recast p.capacity = u.recast p.capacity :=
    hs.regular.eq_of_precise hu.regular hle hle'
  rw [← s.recast_capacity, ← u.recast_capacity, hs.capacity_eq, hu.capacity_eq,
    ← recast_recast (j := p.capacity), heq, recast_recast]

end State.Valid

namespace Policy

variable {p : Policy} {t : Journal} {capacity : Int} {ss : List State} {joined : State}

/-- A join of valid states is a join of regular ones, with another capacity. -/
theorem join_of_valid (hcapacity : capacity ≠ 0) (hss : ∀ s ∈ ss, s.Valid p capacity) :
    (p.join ss t).result =
      (p.join (ss.map (State.recast p.capacity)) t).result.map (State.recast capacity) := by
  rw [← join_recast hcapacity, List.map_map]
  congr 2
  refine ((List.map_congr_left fun s hs => ?_).trans (List.map_id ss)).symm
  show (s.recast p.capacity).recast capacity = s
  rw [State.recast_recast, ← (hss s hs).capacity_eq, State.recast_capacity]

/-- Valid states are regular once they have the capacity of the memory. -/
theorem regular_of_valid (hss : ∀ s ∈ ss, s.Valid p capacity) :
    ∀ s ∈ ss.map (State.recast p.capacity), s.Regular p :=
  List.forall_mem_map.2 fun s hs => (hss s hs).regular

/-- The join of valid states is valid and their least upper bound. -/
theorem valid_join (hcapacity : capacity ≠ 0) (hss : ∀ s ∈ ss, s.Valid p capacity)
    (h : (p.join ss t).result = .ok joined) :
    joined.Valid p capacity ∧ State.LeastAbove ss joined := by
  rw [join_of_valid hcapacity hss] at h
  cases hx : (p.join (ss.map (State.recast p.capacity)) t).result with
  | error e =>
    rw [hx] at h
    cases h
  | ok x =>
    rw [hx] at h
    obtain rfl := Except.ok.inj h
    obtain ⟨hregular, hbound⟩ := leastAbove_join (regular_of_valid hss) hx
    refine ⟨⟨rfl, ?_⟩, fun v => ?_, fun kind e he => ?_⟩
    · rw [State.recast_recast, ← hregular.capacity]
      exact hregular
    · exact (hbound.precise_iff v).trans List.forall_mem_map
    · rw [State.entries_recast] at he
      obtain ⟨_, hmap, hes⟩ := hbound.exists_mem kind he
      obtain ⟨s, hs, rfl⟩ := List.mem_map.1 hmap
      rw [State.entries_recast] at hes
      exact ⟨s, hs, hes⟩

/-- Valid states can be joined if and only if they can be reported. -/
theorem join_of_valid_succeeds_iff (hcapacity : capacity ≠ 0) (hlength : 2 ≤ ss.length)
    (hss : ∀ s ∈ ss, s.Valid p capacity) :
    (p.join ss).Succeeds t ↔ ∀ s ∈ ss, p.Reports t s := by
  have hsucceeds : (p.join ss).Succeeds t ↔
      (p.join (ss.map (State.recast p.capacity))).Succeeds t := by
    rw [Analysis.Succeeds, Analysis.Succeeds, join_of_valid hcapacity hss]
    cases (p.join (ss.map (State.recast p.capacity)) t).result <;> simp [Except.map]
  have hreports : ∀ s : State, p.Reports t (s.recast p.capacity) ↔ p.Reports t s := by
    intro s
    simp only [Reports, State.entries_recast]
  rw [hsucceeds, join_succeeds_iff (by rwa [List.length_map]) (regular_of_valid hss),
    List.forall_mem_map]
  simp only [hreports]

/-- **Joins are least upper bounds.**  The join of two or more valid states holds in MUST the
addresses common to all of them at the largest of their ages, and in MAY the addresses of any of
them at the smallest.  It is the least state above all of them in the precision order, it is the
same for every list with these members, and copies of one state are joined to this state.  Nothing
can fail but the reports on the states, where the journal is to have them. -/
theorem join_least (p : Policy) (capacity : Int) (hcapacity : capacity ≠ 0) (ss : List State)
    (hlength : 2 ≤ ss.length) (hss : ∀ s ∈ ss, s.Valid p capacity) :
    ∃ joined : State, joined.Valid p capacity ∧
      (∀ us : List State, 2 ≤ us.length → (∀ s, s ∈ us ↔ s ∈ ss) → ∀ t,
        ((p.join us t).result = .ok joined ↔ (p.join us).Succeeds t) ∧
        ((p.join us).Succeeds t ↔ (t.admits .debug = true →
          ∀ s ∈ ss, ∀ kind, ∀ e ∈ s.entries kind, p.Wordable e))) ∧
      (∀ e, e ∈ joined.must ↔ (∃ s ∈ ss, e ∈ s.must) ∧
        ∀ s ∈ ss, ∃ f ∈ s.must, f.address = e.address ∧ f.age ≤ e.age) ∧
      (∀ e, e ∈ joined.may ↔ (∃ s ∈ ss, e ∈ s.may) ∧
        ∀ s ∈ ss, ∀ f ∈ s.may, f.address = e.address → e.age ≤ f.age) ∧
      (∀ s ∈ ss, s.Precise joined) ∧
      (∀ v, (∀ s ∈ ss, s.Precise v) → joined.Precise v) ∧
      ∀ a, (∀ s ∈ ss, s = a) → joined = a := by
  obtain ⟨joined, hjoined⟩ := (join_of_valid_succeeds_iff (t := none) hcapacity hlength hss).2
    fun _ _ hdebug => by cases hdebug
  obtain ⟨hvalid, hleast⟩ := valid_join hcapacity hss hjoined
  refine ⟨joined, hvalid, fun us hus hmem t => ?_,
    fun e => hleast.mem_must_iff fun s hs => (hss s hs).distinct .must,
    fun e => hleast.mem_may_iff (hvalid.distinct .may), hleast.above,
    fun v => (hleast.precise_iff v).2, fun a ha => ?_⟩
  · have husv : ∀ s ∈ us, s.Valid p capacity := fun s hs => hss s ((hmem s).1 hs)
    constructor
    · constructor
      · exact fun h => ⟨joined, h⟩
      · rintro ⟨x, hx⟩
        obtain ⟨hxv, hxl⟩ := valid_join hcapacity husv hx
        rw [hx, hxv.eq_of_leastAbove hvalid hxl hleast hmem]
    · rw [join_of_valid_succeeds_iff hcapacity hus husv]
      constructor
      · exact fun h hdebug s hs => h s ((hmem s).2 hs) hdebug
      · exact fun h s hs hdebug => h hdebug s ((hmem s).1 hs)
  · have hmem : a ∈ ss := by
      obtain ⟨s, hs⟩ := List.exists_mem_of_length_pos (Nat.lt_of_lt_of_le Nat.two_pos hlength)
      rw [← ha s hs]
      exact hs
    exact hvalid.eq_of_leastAbove (hss a hmem) hleast (.of_copies hmem ha) fun _ => Iff.rfl

-- The capacity is not that of the cache, and the two states share an address at different ages.
theorem join_least_of_two :
    let p := Policy.lruCache ⟨4⟩
    let s : State := ⟨[⟨1, 0⟩, ⟨2, 2⟩], [⟨1, 0⟩, ⟨2, 1⟩], 5⟩
    let u : State := ⟨[⟨2, 1⟩], [⟨2, 0⟩, ⟨3, 1⟩], 5⟩
    let joined : State := ⟨[⟨2, 2⟩], [⟨1, 0⟩, ⟨2, 0⟩, ⟨3, 1⟩], 5⟩
    (∀ x ∈ [s, u], x.Valid p 5) ∧ joined.Valid p 5 ∧
      (p.join [s, u] none).result = .ok joined ∧ (p.join [u, s, u] none).result = .ok joined ∧
      (∀ x ∈ [s, u], x.Precise joined) ∧ ∀ v, (∀ x ∈ [s, u], x.Precise v) → joined.Precise v := by
  intro p s u joined
  have hss : ∀ x ∈ [s, u], x.Valid p 5 := by
    have hvalid : ∀ must may : EntrySet, must.Ascending → may.Ascending → must.Distinct →
        may.Distinct → State.Valid p 5 ⟨must, may, 5⟩ := by
      intro must may hmust hmay hmust' hmay'
      refine ⟨rfl, ?_, ?_, rfl, fun c => Policy.noConfusion⟩
      · rintro (_ | _)
        · exact hmust
        · exact hmay
      · rintro (_ | _)
        · exact hmust'
        · exact hmay'
    rw [List.forall_mem_cons, List.forall_mem_singleton]
    constructor
    · apply hvalid <;> simp [EntrySet.Ascending, EntrySet.Distinct, EntrySet.addresses]
    · apply hvalid <;> simp [EntrySet.Ascending, EntrySet.Distinct, EntrySet.addresses]
  obtain ⟨joined', hvalid, hlists, -, -, habove, hleast, -⟩ :=
    join_least p 5 (by decide) [s, u] (by decide) hss
  have hjoin : (p.join [s, u] none).result = .ok joined := by cbv
  have hjoin' : (p.join [u, s, u] none).result = .ok joined := by cbv
  obtain ⟨hsame, -⟩ := hlists [s, u] (by decide) (fun _ => Iff.rfl) none
  obtain rfl : joined = joined' := Except.ok.inj (hjoin.symm.trans (hsame.2 ⟨joined, hjoin⟩))
  exact ⟨hss, hvalid, hjoin, hjoin', habove, hleast⟩

end Policy

end Residency
