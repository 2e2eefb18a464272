/-
Residency/Proofs/SinglePaths.lean

Single paths.  Without joins nothing is lost: a state that starts blank has the layout of
the memory in both of its sets, so every access is surely a hit or surely a miss.  By the
stack property the layout is the front part of the addresses in the order of their last
access, and an access is a hit if and only if the address fits together with the distinct
addresses that have been accessed since its last access.

`Policy.Layered` says what this rests on: the memory moves an address to the front and
forgets what does not fit then, and an access turns a state that knows the contents of the
memory into one that knows the new ones.  It holds of fully associative caches, with lines of
size 1, and of scratchpads, for functions that they have room for.  In both cases the rules
for MUST and MAY agree on a layout, where no two entries overlap.
-/
import Residency.Proofs.Inclusion
import Residency.Proofs.Judging
import Residency.Proofs.Recency
import Residency.Proofs.Silence

namespace Residency

open Text (isWritable)

/-! ### Results that do not depend on the journal -/

namespace Analysis

variable {α : Type} {n : Int} {a : α}

/-- The analysis returns the value, whatever is kept in the journal.  Only where everything is
kept and a number of the size of `n` cannot be written, it may stop at such a number. -/
def Returns (n : Int) (x : Analysis α) (a : α) : Prop :=
  ∀ t : Threshold, (x t).result = .ok a ∨
    ¬t.Bears n ∧ (x t).result = .error .unwritableNumber

theorem Returns.result_none {x : Analysis α} (h : x.Returns n a) : (x none).result = .ok a := by
  rcases h none with h | ⟨hbears, -⟩
  · exact h
  · exact absurd (fun hkept => nomatch hkept) hbears

/-- What is returned without records and is steady is returned under every threshold that bears the
number. -/
theorem Returns.of_steady {x : Analysis α} (h : (x none).result = .ok a)
    (hx : ∀ t : Threshold, x.Steady (¬t.Bears n) t) : x.Returns n a :=
  fun t => (hx t).imp_left fun hsilent => hsilent.result.trans h

end Analysis

/-! ### States that know the contents -/

/-- The state that knows the contents of a memory: both sets are the layout. -/
def State.knowing (size : Int → Int) (capacity : Int) (c : Contents) : State :=
  ⟨c.laidOut size 0, c.laidOut size 0, capacity⟩

namespace State

variable {size : Int → Int} {capacity a : Int} {c d : Contents}

/-- Both sets of a state that knows the contents are their layout. -/
theorem entries_knowing (kind : SetKind) :
    (knowing size capacity c).entries kind = c.laidOut size 0 := by
  cases kind <;> rfl

/-- Such a state gives a hit for the contents. -/
theorem verdict_knowing_hit : (knowing size capacity c).verdict a = .alwaysHit ↔ a ∈ c := by
  rw [verdict_eq_alwaysHit, knowing, Contents.addresses_laidOut]

/-- It gives a miss for everything else. -/
theorem verdict_knowing_miss : (knowing size capacity c).verdict a = .alwaysMiss ↔ a ∉ c := by
  rw [verdict_eq_alwaysMiss, knowing, Contents.addresses_laidOut, and_self_iff]

/-- A state knows the contents after an access if its rules resettle every address of the
layout to where it goes. -/
theorem eq_knowing_of_reloaded {s : State} {age : SetKind → Entry → Int}
    (hsize : ∀ x, 0 ≤ size x) (hc : c.Nodup) (hpos : ∀ b ∈ c.moveToFront a, 0 < size b)
    (ha : size a ≤ capacity) (hcapacity : s.capacity = capacity)
    (hentries : ∀ kind, s.entries kind = (EntrySet.reloaded size capacity (age kind)
      (c.laidOut size 0) a))
    (hage : ∀ kind, ∀ f ∈ c.laidOut size 0, ∀ k,
      Contents.Resettled size (c.laidOut size 0) a f k → age kind f = k)
    (hd : d.laidOut size 0 = ((c.moveToFront a).laidOut size 0).filter
      fun e => e.age + size e.address ≤ capacity) :
    s = knowing size capacity d := by
  refine eq_of_entries (fun kind => ?_) hcapacity
  rw [entries_knowing, hentries, hd]
  refine EntrySet.Ascending.eq_of_mem_iff
    (EntrySet.ascending_reloaded (Contents.distinct_laidOut size 0 hc))
    ((Contents.ascending_laidOut hsize hpos 0).filter _) fun e => ?_
  rw [EntrySet.mem_reloaded, List.mem_filter, Contents.mem_laidOut_moveToFront hsize hc,
    decide_eq_true_eq]
  constructor
  · rintro (rfl | ⟨f, hf, hfa, hfits, rfl⟩)
    · exact ⟨.inl rfl, (Int.zero_add _).symm ▸ ha⟩
    · obtain ⟨k, hk, -⟩ := Contents.exists_resettled hsize hc hf hfa
      obtain rfl := hage kind f hf k hk
      exact ⟨.inr ⟨f, hf, rfl, hfa, hk⟩, hfits⟩
  · rintro ⟨rfl | ⟨f, hf, hfe, hfa, hres⟩, hfits⟩
    · exact .inl rfl
    · refine .inr ⟨f, hf, hfa, ?_, ?_⟩
      · rw [hage kind f hf e.age hres, hfe]
        exact hfits
      · rw [hage kind f hf e.age hres, hfe]

end State

/-! ### Memories in layers -/

theorem Policy.WellFormed.capacity_ne_zero {p : Policy} (hp : p.WellFormed) : p.capacity ≠ 0 := by
  cases p with
  | lruCache c => exact (Int.lt_of_lt_of_le Int.one_pos hp).ne'
  | directMapped c => exact hp.1.ne'
  | scratchpad q => exact q.geometry.capacity_pos.ne'

/-- A memory that keeps what fits of its contents, most recently used first, and a policy that
follows it exactly, for addresses of the property. -/
structure Policy.Layered (p : Policy) (size : Int → Int) (A : Int → Prop) : Prop where
  nonneg (a : Int) : 0 ≤ size a
  pos {a : Int} (ha : A a) : 0 < size a
  wellFormed : p.WellFormed
  accepts {a : Int} (ha : A a) : p.refusal? a = none
  load (c : Contents) {a : Int} (ha : A a) : (p.load c a).laidOut size 0 =
    ((c.moveToFront a).laidOut size 0).filter fun e => e.age + size e.address ≤ p.capacity
  access {c : Contents} {a : Int} {t : Journal} {s : State} (hc : c.Nodup)
    (hA : ∀ b ∈ c.moveToFront a, A b)
    (h : (p.access (State.knowing size p.capacity c) a t).result = .ok s) :
    s = State.knowing size p.capacity (p.load c a)

namespace Policy.Layered

variable {p : Policy} {size : Int → Int} {A : Int → Prop} {t : Journal} {history : List Int}

/-- The contents are the front part of the addresses in the order of their last access. -/
theorem laidOut_contents (hp : p.Layered size A) (hh : ∀ a ∈ history, A a) :
    (p.contents history).laidOut size 0 = ((Contents.recent history).laidOut size 0).filter
      fun e => e.age + size e.address ≤ p.capacity := by
  induction history using List.reverseRecOn with
  | nil => rfl
  | append_singleton history a ih =>
    have hprev : ∀ b ∈ history, A b := fun b hb => hh b (List.mem_append_left _ hb)
    rw [contents_concat, hp.load _ (hh a (by simp)), Contents.recent_concat]
    -- what the memory has forgotten before makes no difference now
    refine Contents.laidOut_moveToFront_fitting hp.nonneg (Contents.nodup_recent history) ?_
      (ih hprev)
    rw [← Contents.recent_concat]
    exact fun b hb => hp.pos (hh b (Contents.mem_recent.1 hb))

/-- An address is in the memory if and only if it fits together with all that was accessed since
its last access. -/
theorem mem_contents_iff (hp : p.Layered size A) (hh : ∀ a ∈ history, A a) {a : Int} :
    a ∈ p.contents history ↔ ∃ earlier since, history = earlier ++ a :: since ∧ a ∉ since ∧
      (∑ b ∈ since.toFinset, size b) + size a ≤ p.capacity := by
  rw [← Contents.fits_recent_iff, ← hp.laidOut_contents hh, Contents.addresses_laidOut]

/-- An access to a state that knows the contents gives one that knows the next contents. -/
theorem access_contents (hp : p.Layered size A) {a : Int} (hh : ∀ b ∈ history ++ [a], A b)
    {s : State}
    (h : (p.access (.knowing size p.capacity (p.contents history)) a t).result = .ok s) :
    s = .knowing size p.capacity (p.contents (history ++ [a])) := by
  have hprev : ∀ b ∈ history, A b := fun b hb => hh b (List.mem_append_left _ hb)
  have hsub := Contents.sublist_of_laidOut (hp.laidOut_contents hprev)
  rw [contents_concat]
  refine hp.access ((Contents.nodup_recent history).sublist hsub) (fun b hb => ?_) h
  have hrecent : b ∈ Contents.recent (history ++ [a]) := by
    rw [Contents.recent_concat]
    exact ((hsub.filter _).cons_cons a).subset hb
  exact hh b (Contents.mem_recent.1 hrecent)

/-- A state that starts blank knows the contents of the memory along the whole path. -/
theorem walk_blank (hp : p.Layered size A) (hh : ∀ a ∈ history, A a) {s : State}
    (h : (p.walk (State.blank p.capacity) history t).result = .ok s) :
    s = .knowing size p.capacity (p.contents history) := by
  induction history using List.reverseRecOn generalizing s with
  | nil => exact (Analysis.result_follow_nil.1 h).symm
  | append_singleton history a ih =>
    obtain ⟨before, hbefore, h⟩ := Analysis.result_follow_append.1 h
    obtain ⟨after, hafter, h⟩ := Analysis.result_follow_cons.1 h
    obtain rfl := Analysis.result_follow_nil.1 h
    obtain rfl := ih (fun b hb => hh b (List.mem_append_left _ hb)) hbefore
    exact hp.access_contents hh hafter

/-- Along a single path every verdict is exact. -/
theorem judged_blank (hp : p.Layered size A) (hh : ∀ a ∈ history, A a) {summary : Summary}
    (h : (p.judgeAll (State.blank p.capacity) history t).result = .ok summary) :
    summary.final = .knowing size p.capacity (p.contents history) ∧
      summary.accesses.map Prod.fst = history ∧
      ∀ (i : Nat) a v, summary.accesses[i]? = some (a, v) →
        (v = .alwaysHit ↔ a ∈ p.contents (history.take i)) ∧
        (v = .alwaysMiss ↔ a ∉ p.contents (history.take i)) := by
  obtain ⟨hfinal, judged, haccesses, hfst, hjudged⟩ := judged_follow h
  rw [List.nil_append] at haccesses
  rw [haccesses]
  refine ⟨hp.walk_blank hh hfinal, hfst, fun i a v hi => ?_⟩
  obtain ⟨s, hs, rfl⟩ := hjudged i a v hi
  obtain rfl := hp.walk_blank (fun b hb => hh b (List.mem_of_mem_take hb)) hs
  exact ⟨State.verdict_knowing_hit, State.verdict_knowing_miss⟩

/-- Along a single path no access fails. -/
theorem walk_succeeds (hp : p.Layered size A) (hh : ∀ a ∈ history, A a) :
    (p.walk (State.blank p.capacity) history).Succeeds none := by
  obtain ⟨R, hR, hS⟩ := exists_sustained hp.wellFormed (t := none) fun h => (nomatch h)
  refine (hS.walk (hR none) (hR none).blank history).1 ?_
  rw [List.findSome?_eq_none_iff]
  exact fun a ha => hp.accepts (hh a ha)

/-- After a path both sets are what fits of the addresses in the order of their last access, and
an access is a hit or a miss according to what has been accessed since its last access. -/
theorem exact_verdicts (hp : p.Layered size A) (hh : ∀ a ∈ history, A a) {known : EntrySet}
    (hknown : ((Contents.recent history).laidOut size 0).filter
      (fun e => e.age + size e.address ≤ p.capacity) = known) :
    (p.walk (State.blank p.capacity) history).Returns p.capacity ⟨known, known, p.capacity⟩ ∧
    ∃ verdicts, (p.judgeAll (State.blank p.capacity) history).Returns p.capacity
        ⟨verdicts, ⟨known, known, p.capacity⟩⟩ ∧
      verdicts.map Prod.fst = history ∧
      ∀ (i : Nat) a v, verdicts[i]? = some (a, v) →
        (v = .alwaysHit ↔ ∃ earlier since, history.take i = earlier ++ a :: since ∧ a ∉ since ∧
          (∑ b ∈ since.toFinset, size b) + size a ≤ p.capacity) ∧
        (v = .alwaysMiss ↔ ¬∃ earlier since, history.take i = earlier ++ a :: since ∧ a ∉ since ∧
          (∑ b ∈ since.toFinset, size b) + size a ≤ p.capacity) := by
  have hafter : State.knowing size p.capacity (p.contents history) =
      ⟨known, known, p.capacity⟩ := by
    rw [State.knowing, hp.laidOut_contents hh, hknown]
  obtain ⟨s, hs⟩ := hp.walk_succeeds hh
  obtain ⟨⟨verdicts, final⟩, hsummary⟩ := exists_judged ⟨[], State.blank p.capacity⟩ hs
  obtain ⟨hfinal, hfst, hverdicts⟩ := hp.judged_blank hh hsummary
  obtain rfl := (hp.walk_blank hh hs).trans hafter
  obtain rfl : final = _ := hfinal.trans hafter
  have hquiet : ∀ t : Threshold, ∃ G, p.Quiet (¬t.Bears p.capacity) t G := fun t =>
    exists_quiet fun hbears ht => ⟨hp.wellFormed.capacity_ne_zero, not_not.1 hbears ht⟩
  refine ⟨.of_steady hs fun t => ?_, verdicts, .of_steady hsummary fun t => ?_, hfst, ?_⟩
  · obtain ⟨G, hG⟩ := hquiet t
    exact (hG.walk hG.blank history).steady
  · obtain ⟨G, hG⟩ := hquiet t
    exact (hG.judgeAll hG.blank history).steady
  · intro i a v hi
    have htake : ∀ b ∈ history.take i, A b := fun b hb => hh b (List.mem_of_mem_take hb)
    rw [← hp.mem_contents_iff htake]
    exact hverdicts i a v hi

end Policy.Layered

/-! ### Fully associative caches -/

namespace LruCache

variable {c : LruCache} {contents : Contents} {a : Int}

/-- On a layout both rules give an address the age that it really gets. -/
theorem ageAfter_laidOut (hn : contents.Nodup) (kind : SetKind) {f : Entry} {k : Int}
    (hk : Contents.Resettled (fun _ => 1) (contents.laidOut (fun _ => 1) 0) a f k) :
    ageAfter kind (contents.laidOut (fun _ => 1) 0) a f = k := by
  obtain ⟨hmiss, rfl⟩ | ⟨hit, hhit, ⟨hbehind, rfl⟩ | ⟨hbefore, rfl⟩⟩ :=
    hk.entry?_cases (Contents.distinct_laidOut _ 0 hn)
  · rw [ageAfter_miss hmiss]
  · rw [ageAfter_hit hhit, agedByHit, if_pos (.inl (by omega))]
  · rw [ageAfter_hit hhit, agedByHit, if_neg (by omega)]

/-- A cache keeps the most recent addresses. -/
theorem layered (hc : 1 ≤ c.lines) :
    (Policy.lruCache c).Layered (fun _ => 1) fun _ => True where
  nonneg _ := Int.one_nonneg
  pos _ := Int.one_pos
  wellFormed := hc
  accepts _ := rfl
  load contents a _ := laidOut_load hc contents a
  access := by
    intro contents a t s hn _ h
    obtain rfl := eq_step_of_access h
    refine State.eq_knowing_of_reloaded (fun _ => Int.one_nonneg) hn (fun _ _ => Int.one_pos) hc
      (State.capacityOr_self rfl) (fun kind => ?_)
      (fun kind f _ k hk => ageAfter_laidOut hn kind hk) (laidOut_load hc contents a)
    rw [entries_step, State.entries_knowing]
    rfl

/-- **Exactness of a cache on single paths.**  After a path both sets list the addresses in the
order of their last access, the most recent at age 0, as far as there are lines.  So every access
is a hit or a miss for sure, and it is a hit if and only if fewer other addresses than there are
lines have been accessed since the last access to its address. -/
theorem recency_exact (c : LruCache) (hc : 1 ≤ c.lines) (history : List Int) :
    let recent : EntrySet := ((Contents.recent history).take c.lines.toNat).mapIdx
      fun i a => ⟨a, i⟩
    let after : State := ⟨recent, recent, c.lines⟩
    ((Policy.lruCache c).walk (State.blank c.lines) history).Returns c.lines after ∧
    ∃ verdicts, ((Policy.lruCache c).judgeAll (State.blank c.lines) history).Returns c.lines
        ⟨verdicts, after⟩ ∧
      verdicts.map Prod.fst = history ∧
      ∀ (i : Nat) a v, verdicts[i]? = some (a, v) →
        v ≠ .notClassified ∧
        (v = .alwaysHit ↔ ∃ earlier since, history.take i = earlier ++ a :: since ∧ a ∉ since ∧
          (since.toFinset.card : Int) < c.lines) := by
  intro recent after
  have hknown : ((Contents.recent history).laidOut (fun _ => 1) 0).filter
      (fun e => e.age + 1 ≤ c.lines) = recent := by
    have htake := Contents.laidOut_take c.lines.toNat 0 (Contents.recent history)
    rw [show (0 : Int) + c.lines.toNat = c.lines by omega] at htake
    rw [← htake, Contents.laidOut_one_eq_mapIdx]
    simp only [Int.zero_add, recent]
  obtain ⟨hwalk, verdicts, hjudged, hfst, hverdicts⟩ :=
    (layered hc).exact_verdicts (fun _ _ => trivial) hknown
  refine ⟨hwalk, verdicts, hjudged, hfst, fun i a v hi => ?_⟩
  obtain ⟨hhit, hmiss⟩ := hverdicts i a v hi
  constructor
  · rintro rfl
    cases hmiss.2 fun h => by cases hhit.2 h
  · simp only [Finset.sum_const, nsmul_eq_mul, mul_one] at hhit
    exact hhit

-- Line 1 is evicted by line 3 and comes back in the place of line 2.
theorem recency_exact_reloading :
    let verdicts : List (Int × Verdict) := [(1, .alwaysMiss), (2, .alwaysMiss), (2, .alwaysHit),
      (3, .alwaysMiss), (1, .alwaysMiss), (3, .alwaysHit)]
    ((Policy.lruCache ⟨2⟩).walk (State.blank 2) [1, 2, 2, 3, 1, 3]).Returns 2
        ⟨[⟨3, 0⟩, ⟨1, 1⟩], [⟨3, 0⟩, ⟨1, 1⟩], 2⟩ ∧
      ((Policy.lruCache ⟨2⟩).judgeAll (State.blank 2) [1, 2, 2, 3, 1, 3]).Returns 2
        ⟨verdicts, ⟨[⟨3, 0⟩, ⟨1, 1⟩], [⟨3, 0⟩, ⟨1, 1⟩], 2⟩⟩ := by
  intro verdicts
  obtain ⟨hwalk, verdicts', hjudged, -⟩ :=
    recency_exact ⟨2⟩ (by decide) [1, 2, 2, 3, 1, 3]
  refine ⟨hwalk, ?_⟩
  have hverdicts : ((Policy.lruCache ⟨2⟩).judgeAll (State.blank 2) [1, 2, 2, 3, 1, 3] none).result =
      .ok ⟨verdicts, ⟨[⟨3, 0⟩, ⟨1, 1⟩], [⟨3, 0⟩, ⟨1, 1⟩], 2⟩⟩ := by cbv
  obtain ⟨rfl, -⟩ := Summary.mk.inj (Except.ok.inj (hverdicts.symm.trans hjudged.result_none))
  exact hjudged

end LruCache

/-! ### Scratchpads -/

namespace Scratchpad

variable {p : Scratchpad} {contents : Contents} {a : Int}

theorem admits_of_contains (ha : p.functions.contains a = true) (hle : p.bytesOf a ≤ p.capacity) :
    p.Admits a := by
  refine ⟨?_, hle⟩
  rw [FunctionTable.contains, List.any_eq_true, ← List.find?_isSome,
    Option.isSome_iff_exists] at ha
  obtain ⟨f, hf⟩ : ∃ f, p.functions.function? a = some f := ha
  rw [bytesOf, hf]
  exact roundUp_pos (roundUp_pos f.size_pos p.functions.blockSize_pos) p.geometry.blockSize_pos

/-- On a layout no functions overlap, and both rules give a function the age that it really gets. -/
theorem ageAfter_laidOut (hn : contents.Nodup) (ha : 0 < p.bytesOf a) (kind : SetKind) {f : Entry}
    (hf : 0 < p.bytesOf f.address) {k : Int}
    (hk : Contents.Resettled p.bytesOf (contents.laidOut p.bytesOf 0) a f k) :
    p.ageAfter kind (contents.laidOut p.bytesOf 0) a f = k := by
  obtain ⟨hmiss, rfl⟩ | ⟨hit, hhit, ⟨habove, rfl⟩ | ⟨hbelow, rfl⟩⟩ :=
    hk.entry?_cases (Contents.distinct_laidOut _ 0 hn)
  · rw [ageAfter_miss hmiss]
  · rw [ageAfter_hit hhit, agedByHit, if_neg (by rw [overlaps_iff]; omega), if_pos (by omega)]
  · rw [ageAfter_hit hhit, agedByHit, if_neg (by rw [overlaps_iff]; omega), if_neg (by omega)]

/-- A scratchpad keeps the most recent functions. -/
theorem layered (p : Scratchpad) : (Policy.scratchpad p).Layered p.bytesOf p.Admits where
  nonneg := p.bytesOf_nonneg
  pos ha := ha.1
  wellFormed := trivial
  accepts := refusal?_of_admits
  load contents _ ha := laidOut_load ha.2 contents
  access := by
    intro contents a t s hn hA h
    have hpos : ∀ b ∈ contents.moveToFront a, 0 < p.bytesOf b := fun b hb => (hA b hb).1
    have ha : p.Admits a := hA a List.mem_cons_self
    obtain ⟨-, ⟨hlarge, -⟩ | ⟨-, -, -, -, hcapacity⟩⟩ := access_cases h
    · exact absurd ha.2 (Int.not_le.2 hlarge)
    have hage : ∀ kind, ∀ f ∈ contents.laidOut p.bytesOf 0, ∀ k,
        Contents.Resettled p.bytesOf (contents.laidOut p.bytesOf 0) a f k →
          p.ageAfter kind (contents.laidOut p.bytesOf 0) a f = k := by
      intro kind f hf k hk
      have hmem := EntrySet.address_mem_addresses hf
      rw [Contents.addresses_laidOut] at hmem
      exact ageAfter_laidOut hn ha.1 kind (hpos _ (Contents.mem_moveToFront.2 (.inr hmem))) hk
    refine State.eq_knowing_of_reloaded p.bytesOf_nonneg hn hpos ha.2
      (hcapacity.trans (State.capacityOr_self rfl)) (fun kind => ?_) hage
      (laidOut_load ha.2 contents)
    rw [entries_access ha.2 h, State.entries_knowing]
    rfl

/-- **Exactness of a scratchpad on single paths.**  After a path both sets list the functions in
the order of their last access, each at the bytes of those in front of it, up to the first that
does not fit.  So every access is a hit or a miss for sure, and it is a hit if and only if the
function fits into the scratchpad together with those accessed since its last access. -/
theorem stack_distance_exact (p : Scratchpad) (history : List Int)
    (hh : ∀ a ∈ history, p.functions.contains a = true ∧ p.bytesOf a ≤ p.capacity) :
    let recent : EntrySet := ((Contents.recent history).laidOut p.bytesOf 0).takeWhile p.fits
    let after : State := ⟨recent, recent, p.capacity⟩
    (∀ a ∈ history, ∀ t, (p.room a t).result = .ok (p.bytesOf a)) ∧
    ((Policy.scratchpad p).walk (State.blank p.capacity) history).Returns p.capacity after ∧
    ∃ verdicts, ((Policy.scratchpad p).judgeAll (State.blank p.capacity) history).Returns p.capacity
        ⟨verdicts, after⟩ ∧
      verdicts.map Prod.fst = history ∧
      ∀ (i : Nat) a v, verdicts[i]? = some (a, v) →
        (v = .alwaysHit ↔ ∃ earlier since, history.take i = earlier ++ a :: since ∧ a ∉ since ∧
          (∑ b ∈ since.toFinset, p.bytesOf b) + p.bytesOf a ≤ p.capacity) ∧
        (v = .alwaysMiss ↔ ¬∃ earlier since, history.take i = earlier ++ a :: since ∧ a ∉ since ∧
          (∑ b ∈ since.toFinset, p.bytesOf b) + p.bytesOf a ≤ p.capacity) := by
  intro recent after
  have hadmits : ∀ a ∈ history, p.Admits a := fun a ha =>
    admits_of_contains (hh a ha).1 (hh a ha).2
  refine ⟨fun a ha t => room_of_pos (hadmits a ha).1 t, ?_⟩
  exact p.layered.exact_verdicts hadmits
    (Contents.filter_fits_eq_takeWhile p.bytesOf_nonneg p.capacity 0 _)

-- Functions 3 and 1 do not fit together, so 3 is evicted before it is accessed again.
theorem stack_distance_exact_reloading :
    let p := Scratchpad.halved
    let after : State := ⟨[⟨3, 0⟩, ⟨2, 12⟩], [⟨3, 0⟩, ⟨2, 12⟩], 16⟩
    let verdicts : List (Int × Verdict) := [(3, .alwaysMiss), (2, .alwaysMiss), (1, .alwaysMiss),
      (2, .alwaysHit), (3, .alwaysMiss)]
    (∀ a ∈ [3, 2, 1, 2, 3], p.functions.contains a = true ∧ p.bytesOf a ≤ p.capacity) ∧
      ((Policy.scratchpad p).walk (State.blank 16) [3, 2, 1, 2, 3]).Returns p.capacity after ∧
      ((Policy.scratchpad p).judgeAll (State.blank 16) [3, 2, 1, 2, 3]).Returns p.capacity
        ⟨verdicts, after⟩ := by
  intro p after verdicts
  have hh : ∀ a ∈ [3, 2, 1, 2, 3], p.functions.contains a = true ∧ p.bytesOf a ≤ p.capacity := by
    decide
  obtain ⟨-, hwalk, verdicts', hjudged, -⟩ := stack_distance_exact p [3, 2, 1, 2, 3] hh
  refine ⟨hh, hwalk, ?_⟩
  have hverdicts : ((Policy.scratchpad p).judgeAll (State.blank 16) [3, 2, 1, 2, 3] none).result =
      .ok ⟨verdicts, after⟩ := by cbv
  obtain ⟨rfl, -⟩ := Summary.mk.inj (Except.ok.inj (hverdicts.symm.trans hjudged.result_none))
  exact hjudged

end Scratchpad

end Residency
