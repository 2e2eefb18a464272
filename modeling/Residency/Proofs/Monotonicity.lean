/-
Residency/Proofs/Monotonicity.lean

Monotonicity.  Who knows less before an access does not know more after it: accesses preserve
the precision order (`Policy.access_precise`), hence so do sequences of accesses
(`Policy.walk_precise`).  As a join is an upper bound of its states, what is known after a join
and some accesses is never more than what the accesses and a join after them would leave.

The two sets of a state change independently, and in opposite directions the same thing has to
be shown of both: if `s` is within `t`, then it is so after an access.  An entry of `s` has a
partner in `t` that is no older, and the accessed address, if `s` holds it, has one as well.  So
it suffices that the rule of ageing is monotone in both ages, and that a hit ages nothing by
more than a miss does.  For scratchpads this needs ages that are not negative and sizes that are
positive; the states of a scratchpad have both.
-/
import Residency.Proofs.Faults
import Residency.Proofs.HitAges
import Residency.Proofs.Joins

namespace Residency

namespace EntrySet

variable {s t : EntrySet} {a : Int}

/-- An access hits in both sets, in none of them, or in `t` only; if in both, then `t` has the
address no older. -/
theorem Within.entry?_cases (h : s.Within t) (ht : t.Distinct) (a : Int) :
    (s.entry? a = none ∧ t.entry? a = none) ∨
    (s.entry? a = none ∧ ∃ hit', t.entry? a = some hit') ∨
    ∃ hit hit', s.entry? a = some hit ∧ t.entry? a = some hit' ∧ hit'.age ≤ hit.age := by
  cases hs : s.entry? a with
  | none =>
    cases ht' : t.entry? a with
    | none => exact .inl ⟨rfl, rfl⟩
    | some hit' => exact .inr (.inl ⟨rfl, hit', rfl⟩)
  | some hit =>
    obtain ⟨hit', hmem, haddr, hle⟩ := h hit (entry?_mem hs)
    rw [entry?_address hs] at haddr
    have ht' : t.entry? a = some hit' := by
      rw [← haddr]
      exact ht.entry?_eq hmem
    exact .inr (.inr ⟨hit, hit', rfl, ht', hle⟩)

/-- A set that is reloaded by a rule stays within a set whose rule ages less. -/
theorem Within.reloaded {size : Int → Int} {room : Int} {age age' : Entry → Int}
    (h : s.Within t)
    (hage : ∀ e ∈ s, ∀ f ∈ t, f.address = e.address → f.age ≤ e.age → age' f ≤ age e) :
    (reloaded size room age s a).Within (reloaded size room age' t a) := by
  intro e he
  rcases mem_reloaded.1 he with rfl | ⟨e, hes, hea, hfits, rfl⟩
  · exact ⟨⟨a, 0⟩, mem_reloaded.2 (.inl rfl), rfl, Int.le_refl 0⟩
  · obtain ⟨f, hf, hfe, hle⟩ := h e hes
    have hle' : age' f ≤ age e := hage e hes f hf hfe hle
    refine ⟨⟨f.address, age' f⟩, mem_reloaded.2 (.inr ⟨f, hf, hfe ▸ hea, ?_, rfl⟩), hfe, hle'⟩
    rw [hfe]
    omega

end EntrySet

/-! ### Fully associative caches -/

namespace LruCache

variable {c : LruCache} {kind : SetKind} {s t : EntrySet} {a : Int}

/-- A hit ages an entry by one at most. -/
theorem agedByHit_le_succ (kind : SetKind) (old : Int) (e : Entry) :
    agedByHit kind old e ≤ e.age + 1 := by
  rw [agedByHit]
  split <;> omega

/-- A younger entry stays younger, and a younger hit ages less. -/
theorem agedByHit_mono {old old' : Int} {e f : Entry} (hold : old' ≤ old) (hage : f.age ≤ e.age) :
    agedByHit kind old' f ≤ agedByHit kind old e := by
  cases kind with
  | must =>
    simp only [agedByHit, reduceCtorEq, false_and, or_false]
    split <;> split <;> omega
  | may =>
    simp only [agedByHit, true_and]
    split <;> split <;> omega

/-- Entries of the larger set stay no older than those of the smaller one. -/
theorem ageAfter_mono (h : s.Within t) (ht : t.Distinct) (kind : SetKind) {e f : Entry}
    (hage : f.age ≤ e.age) : ageAfter kind t a f ≤ ageAfter kind s a e := by
  obtain ⟨hs, ht'⟩ | ⟨hs, hit', ht'⟩ | ⟨hit, hit', hs, ht', hold⟩ := h.entry?_cases ht a
  · rw [ageAfter_miss hs, ageAfter_miss ht']
    omega
  · rw [ageAfter_miss hs, ageAfter_hit ht']
    exact (agedByHit_le_succ kind hit'.age f).trans (by omega)
  · rw [ageAfter_hit hs, ageAfter_hit ht']
    exact agedByHit_mono hold hage

/-- An access to a cache keeps one set within the other. -/
theorem within_accessed (h : s.Within t) (ht : t.Distinct) (kind : SetKind) :
    (c.accessed kind s a).Within (c.accessed kind t a) := by
  rw [accessed_eq_reloaded, accessed_eq_reloaded]
  exact h.reloaded fun e _ f _ _ hle => ageAfter_mono h ht kind hle

end LruCache

/-! ### Direct-mapped caches -/

/-- So does an access to a direct-mapped cache. -/
theorem DirectMapped.within_accessed {c : DirectMapped} {s t : EntrySet} {a : Int}
    (h : s.Within t) (hs : c.InSlots s) (ht : c.InSlots t) :
    (c.accessed s a).Within (c.accessed t a) := by
  intro e he
  rw [accessed, EntrySet.mem_sorted, List.mem_append, List.mem_filter, List.mem_singleton] at he
  simp only [accessed, EntrySet.mem_sorted, List.mem_append, List.mem_filter, List.mem_singleton]
  rcases he with ⟨hes, hne⟩ | rfl
  · obtain ⟨f, hf, hfe, hle⟩ := h e hes
    -- both entries stand in the slot of their address
    have hage : f.age = e.age := by rw [hs e hes, ht f hf, hfe]
    exact ⟨f, .inl ⟨hf, hage ▸ hne⟩, hfe, hle⟩
  · exact ⟨_, .inr rfl, rfl, Int.le_refl _⟩

/-! ### Scratchpads -/

namespace Scratchpad

variable {p : Scratchpad} {kind : SetKind} {s t : EntrySet} {a : Int}

/-- In a scratchpad too, entries of the larger set stay no older. -/
theorem ageAfter_mono (h : s.Within t) (ht : t.Distinct) (ha : 0 < p.bytesOf a)
    (hnonneg : ∀ f ∈ t, 0 ≤ f.age) (kind : SetKind) {e f : Entry} (hf : f ∈ t)
    (hsize : 0 < p.bytesOf f.address) (hfe : f.address = e.address) (hage : f.age ≤ e.age) :
    p.ageAfter kind t a f ≤ p.ageAfter kind s a e := by
  obtain ⟨hs, ht'⟩ | ⟨hs, hit', ht'⟩ | ⟨hit, hit', hs, ht', hold⟩ := h.entry?_cases ht a
  · rw [ageAfter_miss hs, ageAfter_miss ht']
    omega
  · rw [ageAfter_miss hs, ageAfter_hit ht']
    have hbounds := agedByHit_bounds (hnonneg hit' (EntrySet.entry?_mem ht')) ha (hnonneg f hf)
      hsize kind
    exact hbounds.2.trans (by omega)
  · rw [ageAfter_hit hs, ageAfter_hit ht', ← hfe]
    exact agedByHit_mono ha hsize (hnonneg hit' (EntrySet.entry?_mem ht')) (hnonneg f hf) hold hage
      kind

/-- An access to a scratchpad keeps one set within the other. -/
theorem within_reloaded (h : s.Within t) (ht : t.Distinct) (ha : 0 < p.bytesOf a)
    (hinside : EntrySet.Inside p.bytesOf p.capacity t) (kind : SetKind) :
    (s.reloaded p.bytesOf p.capacity (p.ageAfter kind s a) a).Within
      (t.reloaded p.bytesOf p.capacity (p.ageAfter kind t a) a) :=
  h.reloaded fun _ _ f hf hfe hle =>
    ageAfter_mono h ht ha (fun g hg => (hinside g hg).1) kind hf (hinside f hf).2.1 hfe hle

end Scratchpad

/-! ### All policies -/

/-- A regular state; in a scratchpad its functions have bytes, and these lie inside. -/
structure State.Orderly (p : Policy) (s : State) : Prop where
  regular : s.Regular p
  tidy : ∀ q, p = .scratchpad q → s.Tidy q.bytesOf q.capacity

namespace Policy

variable {p : Policy} {t t' : Journal} {s u s' u' : State} {a : Int}

/-- Every derived state is orderly. -/
theorem tracks_orderly (p : Policy) (t : Journal) : p.Tracks t fun _ s => s.Orderly p where
  blank := ⟨.blank p, fun _ _ => .blank _ _ _⟩
  access := by
    intro _ s s' a hs h
    refine ⟨regular_access hs.regular h, ?_⟩
    rintro q rfl
    exact Scratchpad.tidy_access (hs.tidy q rfl) h
  join := by
    intro _ _ s u s' hs hu h
    refine ⟨regular_joinTwo hs.regular hu.regular h, ?_⟩
    rintro q rfl
    obtain ⟨hmust, hmay, -⟩ :=
      Scratchpad.merge_eq_ok.1 (Scratchpad.merge_of_joinTwo (joinTwo_mergeTwo h))
    exact (hs.tidy q rfl).join (hu.tidy q rfl) hmust hmay

theorem Derivable.orderly (hs : p.Derivable s) : s.Orderly p := by
  obtain ⟨d, t, hd⟩ := hs
  exact d.tracked (p.tracks_orderly t) hd

/-- An access preserves the order of precision. -/
theorem access_precise (hs : s.Orderly p) (hu : u.Orderly p) (h : s.Precise u)
    (hs' : (p.access s a t).result = .ok s') (hu' : (p.access u a t').result = .ok u') :
    s'.Precise u' := by
  cases p with
  | lruCache c =>
    obtain rfl := LruCache.eq_step_of_access hs'
    obtain rfl := LruCache.eq_step_of_access hu'
    exact ⟨LruCache.within_accessed h.1 (hs.regular.distinct .must) .must,
      LruCache.within_accessed h.2 (hu.regular.distinct .may) .may⟩
  | directMapped c =>
    obtain rfl := DirectMapped.eq_step_of_access hs'
    obtain rfl := DirectMapped.eq_step_of_access hu'
    have hs := DirectMapped.inSlots_of_regular hs.regular
    have hu := DirectMapped.inSlots_of_regular hu.regular
    exact ⟨DirectMapped.within_accessed h.1 (hu .must) (hs .must),
      DirectMapped.within_accessed h.2 (hs .may) (hu .may)⟩
  | scratchpad q =>
    obtain ⟨ha, ⟨hlarge, rfl⟩ | ⟨hfits, hmust, hmay, -⟩⟩ := Scratchpad.access_cases hs'
    · -- the function is too large, so neither state changes
      obtain ⟨-, ⟨-, rfl⟩ | ⟨hfits, -⟩⟩ := Scratchpad.access_cases hu'
      · exact h
      · omega
    · obtain ⟨-, ⟨hlarge, -⟩ | ⟨-, hmust', hmay', -⟩⟩ := Scratchpad.access_cases hu'
      · omega
      · have hs := hs.tidy q rfl
        have hu := hu.tidy q rfl
        rw [State.Precise, hmust, hmay, hmust', hmay']
        exact ⟨Scratchpad.within_reloaded h.1 hs.mustDistinct ha hs.must .must,
          Scratchpad.within_reloaded h.2 hu.mayDistinct ha hu.may .may⟩

/-- Walks from a more precise state end in a more precise state. -/
theorem walk_precise {addresses : List Int} (hs : s.Orderly p) (hu : u.Orderly p)
    (h : s.Precise u) (hs' : (p.walk s addresses t).result = .ok s')
    (hu' : (p.walk u addresses t').result = .ok u') : s'.Precise u' := by
  induction addresses generalizing s u with
  | nil =>
    obtain rfl := Analysis.result_follow_nil.1 hs'
    obtain rfl := Analysis.result_follow_nil.1 hu'
    exact h
  | cons a addresses ih =>
    obtain ⟨s₁, hs₁, hs'⟩ := Analysis.result_follow_cons.1 hs'
    obtain ⟨u₁, hu₁, hu'⟩ := Analysis.result_follow_cons.1 hu'
    apply ih _ _ (access_precise hs hu h hs₁ hu₁) hs' hu'
    · exact (p.tracks_orderly t).access (H := ∅) hs hs₁
    · exact (p.tracks_orderly t').access (H := ∅) hu hu₁

/-- What follows the histories of states follows those of their join. -/
theorem Tracks.exists_join {R : Set (List Int) → State → Prop} (hR : p.Tracks t R)
    {ss : List State} {joined : State} (hss : ∀ s ∈ ss, ∃ H, R H s)
    (h : (p.join ss t).result = .ok joined) : ∃ H, R H joined := by
  have hfollow : ∀ (us : List State) (s : State), (∃ H, R H s) → (∀ u ∈ us, ∃ H, R H u) →
      (Analysis.follow p.joinTwo s us t).result = .ok joined → ∃ H, R H joined := by
    intro us
    induction us with
    | nil =>
      intro s hs _ h
      obtain rfl := Analysis.result_follow_nil.1 h
      exact hs
    | cons u us ih =>
      rintro s ⟨H, hs⟩ hus h
      obtain ⟨two, htwo, h⟩ := Analysis.result_follow_cons.1 h
      obtain ⟨⟨K, hu⟩, hus⟩ := List.forall_mem_cons.1 hus
      exact ih two ⟨H ∪ K, hR.join hs hu htwo⟩ hus h
  obtain ⟨s, u, rest, rfl, hfold⟩ := result_join.1 h
  obtain ⟨hs, hrest⟩ := List.forall_mem_cons.1 hss
  exact hfollow (u :: rest) s hs hrest hfold

variable {ss : List State} {addresses : List Int} {joined after k : State}
  {continued : State → State}

/-- What accesses leave after a join is above all that they leave before it. -/
theorem join_precise_walk (hss : ∀ s ∈ ss, s.Orderly p)
    (hjoined : (p.join ss t).result = .ok joined)
    (hafter : (p.walk joined addresses t).result = .ok after)
    (hcontinued : ∀ s ∈ ss, (p.walk s addresses t').result = .ok (continued s))
    (hk : (p.join (ss.map continued) t').result = .ok k) : k.Precise after := by
  obtain ⟨-, hbound⟩ := join_precise_iff (fun s hs => (hss s hs).regular) hjoined
  have habove : ∀ s ∈ ss, s.Precise joined := (hbound joined).1 (State.Precise.refl joined)
  obtain ⟨_, hjoined⟩ := (p.tracks_orderly t).exists_join (fun s hs => ⟨∅, hss s hs⟩) hjoined
  have hregular : ∀ s ∈ ss, (continued s).Regular p := fun s hs =>
    ((p.tracks_orderly t').walk (H := ∅) (hss s hs) (hcontinued s hs)).regular
  rw [(join_precise_iff (List.forall_mem_map.2 hregular) hk).2, List.forall_mem_map]
  exact fun s hs => walk_precise (hss s hs) hjoined (habove s hs) (hcontinued s hs) hafter

/-- An access that succeeds is not refused. -/
theorem refusal?_of_access {a : Int} {s s' : State} (h : (p.access s a t).result = .ok s') :
    p.refusal? a = none := by
  cases p with
  | lruCache c => rfl
  | directMapped c => rfl
  | scratchpad p => exact Scratchpad.refusal?_of_access h

/-- Refusals depend on the addresses alone, not on the states. -/
theorem refusals_of_walk {s s' : State} (h : (p.walk s addresses t).result = .ok s') :
    addresses.findSome? p.refusal? = none := by
  induction addresses generalizing s with
  | nil => rfl
  | cons a addresses ih =>
    obtain ⟨next, hnext, h⟩ := Analysis.result_follow_cons.1 h
    rw [List.findSome?_cons, refusal?_of_access hnext]
    exact ih h

/-- Where accesses are possible after a join, they are possible before it, and so is the join
after them. -/
theorem exists_join_of_walk (hp : p.WellFormed) {u : Threshold} (hu : u.Bears p.capacity)
    (hss : ∀ s ∈ ss, p.Derivable s) (hjoined : (p.join ss t).result = .ok joined)
    (hafter : (p.walk joined addresses t).result = .ok after) :
    ∃ (continued : State → State) (k : State),
      (∀ s ∈ ss, (p.walk s addresses u).result = .ok (continued s)) ∧
      (p.join (ss.map continued) u).result = .ok k := by
  obtain ⟨R, hR, hS⟩ := exists_sustained hp hu
  have htracked : ∀ s ∈ ss, ∃ H, R H s := by
    intro s hs
    obtain ⟨d, t', hd⟩ := hss s hs
    exact ⟨_, d.tracked (hR t') hd⟩
  -- What the join allows, each of its states allows.
  have hwalk : ∀ s, ∃ s', s ∈ ss → (p.walk s addresses u).result = .ok s' := by
    intro s
    by_cases hs : s ∈ ss
    · obtain ⟨H, hH⟩ := htracked s hs
      obtain ⟨s', hs'⟩ := (hS.walk (hR u) hH addresses).1 (refusals_of_walk hafter)
      exact ⟨s', fun _ => hs'⟩
    · exact ⟨s, fun h => absurd h hs⟩
  choose continued hcontinued using hwalk
  have hlength : 2 ≤ (ss.map continued).length := by
    obtain ⟨s, u, rest, rfl, -⟩ := result_join.1 hjoined
    simp
  obtain ⟨k, hk⟩ := hS.join (hR u) hlength <| List.forall_mem_map.2 fun s hs => by
    obtain ⟨H, hH⟩ := htracked s hs
    exact ⟨_, (hR u).walk hH (hcontinued s hs)⟩
  exact ⟨continued, k, hcontinued, hk⟩

/-- **Accesses are monotone.**  If a derivable state is at least as precise as another, then it is
so after any accesses that both allow.  In particular what is known when accesses follow a join is
never more precise than what is known when each of the states goes on by itself and the results
are joined; and that can be done, for a memory that has been made and a threshold that bears
its capacity, wherever the accesses are possible after the join. -/
theorem walk_monotone (p : Policy) :
    (∀ (s u s' u' : State) (addresses : List Int) (t t' : Journal),
      p.Derivable s → p.Derivable u → s.Precise u →
      (p.walk s addresses t).result = .ok s' → (p.walk u addresses t').result = .ok u' →
      s'.Precise u') ∧
    ∀ (ss : List State) (joined after : State) (addresses : List Int) (t : Journal),
      (∀ s ∈ ss, p.Derivable s) → (p.join ss t).result = .ok joined →
      (p.walk joined addresses t).result = .ok after →
      (∀ (continued : State → State) (k : State) (t' : Journal),
        (∀ s ∈ ss, (p.walk s addresses t').result = .ok (continued s)) →
        (p.join (ss.map continued) t').result = .ok k → k.Precise after) ∧
      (p.WellFormed → ∀ u : Threshold, u.Bears p.capacity →
        ∃ (continued : State → State) (k : State),
          (∀ s ∈ ss, (p.walk s addresses u).result = .ok (continued s)) ∧
          (p.join (ss.map continued) u).result = .ok k) := by
  constructor
  · intro s u s' u' addresses t t' hs hu h hs' hu'
    exact walk_precise hs.orderly hu.orderly h hs' hu'
  · intro ss joined after addresses t hss hjoined hafter
    constructor
    · intro continued k t' hcontinued hk
      exact join_precise_walk (fun s hs => (hss s hs).orderly) hjoined hafter hcontinued hk
    · exact fun hp u hu => exists_join_of_walk hp hu hss hjoined hafter

-- The join loses the order of the functions, and the access does not bring it back.
theorem walk_monotone_after_join :
    let p := Policy.scratchpad Scratchpad.mixedSizes
    let s : State := ⟨[⟨3, 0⟩, ⟨2, 12⟩, ⟨1, 16⟩], [⟨3, 0⟩, ⟨2, 12⟩, ⟨1, 16⟩], 32⟩
    let v : State := ⟨[⟨1, 0⟩, ⟨2, 8⟩, ⟨3, 12⟩], [⟨1, 0⟩, ⟨2, 8⟩, ⟨3, 12⟩], 32⟩
    let joined : State := ⟨[⟨2, 12⟩, ⟨3, 12⟩, ⟨1, 16⟩], [⟨1, 0⟩, ⟨3, 0⟩, ⟨2, 8⟩], 32⟩
    let s' : State := ⟨[⟨2, 0⟩, ⟨3, 4⟩, ⟨1, 16⟩], [⟨2, 0⟩, ⟨3, 4⟩, ⟨1, 16⟩], 32⟩
    let after : State := ⟨[⟨2, 0⟩, ⟨3, 12⟩, ⟨1, 16⟩], [⟨2, 0⟩, ⟨1, 4⟩, ⟨3, 4⟩], 32⟩
    (∀ x ∈ [s, v], p.Derivable x) ∧ p.Derivable joined ∧ s.Precise joined ∧
      (p.walk s [2] none).result = .ok s' ∧ (p.walk joined [2] none).result = .ok after ∧
      s'.Precise after ∧ (p.join [s, v] none).result = .ok joined ∧
      ∃ (continued : State → State) (k : State),
        (∀ x ∈ [s, v], (p.walk x [2] none).result = .ok (continued x)) ∧
        (p.join ([s, v].map continued) none).result = .ok k ∧ k.Precise after := by
  intro p s v joined s' after
  have hs : p.Derivable s := ⟨.access (.access (.access .blank 1) 2) 3, none, by cbv⟩
  have hv : p.Derivable v := ⟨.access (.access (.access .blank 3) 2) 1, none, by cbv⟩
  have hu : p.Derivable joined := ⟨.join (.access (.access (.access .blank 1) 2) 3)
    (.access (.access (.access .blank 3) 2) 1) [], none, by cbv⟩
  have hss : ∀ x ∈ [s, v], p.Derivable x := by
    rw [List.forall_mem_cons, List.forall_mem_singleton]
    exact ⟨hs, hv⟩
  have hprecise : s.Precise joined := by simp [State.Precise, EntrySet.Within, s, joined]
  have hs' : (p.walk s [2] none).result = .ok s' := by cbv
  have hafter : (p.walk joined [2] none).result = .ok after := by cbv
  have hjoined : (p.join [s, v] none).result = .ok joined := by cbv
  obtain ⟨hmono, hjoin⟩ := walk_monotone p
  obtain ⟨habove, hexists⟩ := hjoin [s, v] joined after [2] none hss hjoined hafter
  obtain ⟨continued, k, hcontinued, hk⟩ := hexists trivial none fun h => absurd h Bool.false_ne_true
  refine ⟨hss, hu, hprecise, hs', hafter, ?_, hjoined, continued, k, hcontinued, hk, ?_⟩
  · exact hmono s joined s' after [2] none none hs hu hprecise hs' hafter
  · exact habove continued k none hcontinued hk

end Policy

end Residency
