/-
Residency/Proofs/Recency.lean

Recency.  `Contents.recent` lists the addresses of a history, the one accessed last in front,
and never forgets one.  A memory with least-recently-used replacement forgets what does not
fit, after every access, and yet it holds the front part of this list at every time:

    laidOut (contents history)  =  laidOut (recent history), as far as it fits

This is the stack property (`laidOut_moveToFront_fitting`): what has been pushed out is
pushed further by every access to another address, and an access to it brings it to the
front with or without a memory of where it was.  So whether an address is in the memory
depends on its last access and the addresses accessed since then, and on nothing else
(`fits_recent_iff`).
-/
import Mathlib.Algebra.BigOperators.Group.Finset.Basic
import Mathlib.Algebra.Ring.Int.Defs
import Residency.Proofs.RegularStates

namespace Residency

namespace EntrySet

/-- Behind other addresses only new ones are seen for the first time. -/
theorem firstSeen_append (as bs : List Int) :
    firstSeen (as ++ bs) = firstSeen as ++ (firstSeen bs).filter fun b => b ∉ as := by
  induction as with
  | nil => simp [firstSeen]
  | cons a as ih =>
    rw [List.cons_append, firstSeen, ih, List.filter_append, List.filter_filter, firstSeen,
      List.cons_append]
    congr 3
    funext b
    rw [Bool.eq_iff_iff]
    simp [not_or]

end EntrySet

namespace Contents

variable {size : Int → Int} {room a : Int} {c d : Contents} {history : List Int}

theorem mem_moveToFront {b : Int} : b ∈ c.moveToFront a ↔ b = a ∨ b ∈ c := by
  rw [moveToFront, List.mem_cons, List.mem_filter, bne_iff_ne]
  grind

/-! ### The order of last accesses -/

/-- The last access is the most recent one. -/
theorem recent_concat (history : List Int) (a : Int) :
    recent (history ++ [a]) = (recent history).moveToFront a := by
  rw [recent, List.foldl_append]
  rfl

/-- Read backwards, a history shows every address at its last access first. -/
theorem recent_eq_firstSeen (history : List Int) :
    recent history = EntrySet.firstSeen history.reverse := by
  induction history using List.reverseRecOn with
  | nil => rfl
  | append_singleton history a ih =>
    rw [recent_concat, List.reverse_append, List.reverse_singleton, List.singleton_append,
      EntrySet.firstSeen, ← ih]
    rfl

theorem nodup_recent (history : List Int) : (recent history).Nodup := by
  rw [recent_eq_firstSeen]
  exact EntrySet.nodup_firstSeen _

theorem mem_recent : a ∈ recent history ↔ a ∈ history := by
  rw [recent_eq_firstSeen, EntrySet.mem_firstSeen, List.mem_reverse]

/-- In front of an address are the addresses accessed after it. -/
theorem recent_last_access {since : List Int} (earlier : List Int) (ha : a ∉ since) :
    ∃ older, recent (earlier ++ a :: since) = recent since ++ a :: older := by
  have hreverse : (earlier ++ a :: since).reverse = since.reverse ++ a :: earlier.reverse := by
    simp
  refine ⟨((EntrySet.firstSeen earlier.reverse).filter (· != a)).filter fun b => b ∉ since.reverse,
    ?_⟩
  rw [recent_eq_firstSeen, recent_eq_firstSeen, hreverse, EntrySet.firstSeen_append,
    EntrySet.firstSeen, List.filter_cons_of_pos (by simpa using ha)]

/-- An address that was accessed has a last access. -/
theorem exists_last_access (ha : a ∈ history) :
    ∃ earlier since, history = earlier ++ a :: since ∧ a ∉ since := by
  obtain ⟨newer, older, hsplit, hnewer⟩ :=
    List.eq_append_cons_of_mem (List.mem_reverse.2 ha)
  refine ⟨older.reverse, newer.reverse, ?_, by simpa using hnewer⟩
  rw [← List.reverse_reverse history, hsplit]
  simp

/-- The recent addresses have the bytes of all addresses of the history, each counted once. -/
theorem sum_recent (size : Int → Int) (history : List Int) :
    ((recent history).map size).sum = ∑ b ∈ history.toFinset, size b := by
  have hmembers : (recent history).toFinset = history.toFinset := by
    ext b
    rw [List.mem_toFinset, List.mem_toFinset, mem_recent]
  rw [← List.sum_toFinset size (nodup_recent history), hmembers]

/-! ### Layouts in order -/

/-- A layout is in ascending order of ages. -/
theorem ascending_laidOut (hsize : ∀ x, 0 ≤ size x) (hpos : ∀ b ∈ c, 0 < size b) (top : Int) :
    EntrySet.Ascending (c.laidOut size top) := by
  induction c generalizing top with
  | nil => exact List.Pairwise.nil
  | cons b c ih =>
    refine List.Pairwise.cons (fun e he => .inl ?_)
      (ih (fun x hx => hpos x (List.mem_cons_of_mem b hx)) _)
    have hlater := le_age_of_mem_laidOut hsize he
    have hb := hpos b List.mem_cons_self
    show top < e.age
    omega

/-- What fits of a layout is its front part. -/
theorem filter_fits_eq_takeWhile (hsize : ∀ x, 0 ≤ size x) (room top : Int) (c : Contents) :
    (c.laidOut size top).filter (fun e => e.age + size e.address ≤ room) =
      (c.laidOut size top).takeWhile fun e => e.age + size e.address ≤ room := by
  induction c generalizing top with
  | nil => rfl
  | cons b c ih =>
    rw [filter_fits_cons hsize, laidOut]
    split
    · rename_i hfits
      rw [List.takeWhile_cons_of_pos (by simpa using hfits), ih]
    · rename_i hfits
      rw [List.takeWhile_cons_of_neg (by simpa using hfits)]

/-- With sizes of 1 ages are positions. -/
theorem laidOut_one_eq_mapIdx (c : Contents) (top : Int) :
    c.laidOut (fun _ => 1) top = c.mapIdx fun i b => ⟨b, top + i⟩ := by
  induction c generalizing top with
  | nil => rfl
  | cons b c ih =>
    rw [laidOut, ih, List.mapIdx_cons]
    simp [Int.add_assoc, Int.add_comm 1]

/-! ### The stack property -/

/-- No address comes closer to the front when another one is accessed. -/
theorem Resettled.le (hsize : ∀ x, 0 ≤ size x) {l : List Entry} {f : Entry} {k : Int}
    (h : Resettled size l a f k) : f.age ≤ k := by
  cases h with
  | pushed =>
    have := hsize a
    omega
  | kept => exact Int.le_refl _

/-- Where an address goes, said with the entry of the address that is accessed. -/
theorem Resettled.entry?_cases {l : EntrySet} (hl : l.Distinct) {f : Entry} {k : Int}
    (h : Resettled size l a f k) :
    (l.entry? a = none ∧ k = f.age + size a) ∨ ∃ hit, l.entry? a = some hit ∧
      (f.age + size f.address ≤ hit.age ∧ k = f.age + size a ∨
        hit.age + size a ≤ f.age ∧ k = f.age) := by
  cases h with
  | pushed hbehind =>
    cases hentry : l.entry? a with
    | none => exact .inl ⟨rfl, rfl⟩
    | some hit =>
      exact .inr ⟨hit, rfl, .inl ⟨hbehind hit (EntrySet.entry?_mem hentry)
        (EntrySet.entry?_address hentry), rfl⟩⟩
  | @kept g hg hga hbefore =>
    have hentry : l.entry? a = some g := by
      rw [← hga]
      exact hl.entry?_eq hg
    exact .inr ⟨g, hentry, .inr ⟨hbefore, rfl⟩⟩

/-- Where an address goes does not depend on what lies behind it. -/
theorem Resettled.of_fits (hsize : ∀ x, 0 ≤ size x) {l : List Entry} {f : Entry} {k : Int}
    (hf : f.age + size f.address ≤ room) (h : Resettled size l a f k) :
    Resettled size (l.filter fun e => e.age + size e.address ≤ room) a f k := by
  cases h with
  | pushed hbehind => exact .pushed fun g hg hga => hbehind g (List.mem_of_mem_filter hg) hga
  | @kept g hg hga hbefore =>
    refine .kept (List.mem_filter.2 ⟨hg, ?_⟩) hga hbefore
    have := hsize f.address
    rw [decide_eq_true_eq, hga]
    omega

/-- A layout that is part of another has part of its addresses, in the same order. -/
theorem sublist_of_laidOut {fits : Entry → Bool}
    (hd : d.laidOut size 0 = (c.laidOut size 0).filter fits) : d.Sublist c := by
  rw [← addresses_laidOut size 0 d, ← addresses_laidOut size 0 c, hd]
  exact List.filter_sublist.map _

/-- Forgetting what does not fit makes no difference to what fits after an access. -/
theorem laidOut_moveToFront_fitting (hsize : ∀ x, 0 ≤ size x) (hc : c.Nodup)
    (hpos : ∀ b ∈ c.moveToFront a, 0 < size b)
    (hd : d.laidOut size 0 = (c.laidOut size 0).filter fun e => e.age + size e.address ≤ room) :
    ((d.moveToFront a).laidOut size 0).filter (fun e => e.age + size e.address ≤ room) =
      ((c.moveToFront a).laidOut size 0).filter fun e => e.age + size e.address ≤ room := by
  have hsub : d.Sublist c := sublist_of_laidOut hd
  have hdn : d.Nodup := hc.sublist hsub
  have hposd : ∀ b ∈ d.moveToFront a, 0 < size b := by
    intro b hb
    apply hpos
    exact mem_moveToFront.2 ((mem_moveToFront.1 hb).imp_right fun h => hsub.subset h)
  refine EntrySet.Ascending.eq_of_mem_iff ((ascending_laidOut hsize hposd 0).filter _)
    ((ascending_laidOut hsize hpos 0).filter _) fun e => ?_
  rw [List.mem_filter, List.mem_filter, mem_laidOut_moveToFront hsize hdn,
    mem_laidOut_moveToFront hsize hc, hd]
  refine and_congr_left fun hfits => or_congr_right ?_
  rw [decide_eq_true_eq] at hfits
  constructor
  · rintro ⟨f, hf, hfe, hfa, hres⟩
    obtain ⟨hfc, hffits⟩ := List.mem_filter.1 hf
    obtain ⟨k, hk, -⟩ := exists_resettled hsize hc hfc hfa
    rw [decide_eq_true_eq] at hffits
    obtain rfl := (hk.of_fits hsize hffits).unique hsize hres
    exact ⟨f, hfc, hfe, hfa, hk⟩
  · rintro ⟨f, hf, hfe, hfa, hres⟩
    -- the address was in front of where it goes, so it was not forgotten
    have hffits : f.age + size f.address ≤ room := by
      have := hres.le hsize
      rw [hfe]
      omega
    exact ⟨f, List.mem_filter.2 ⟨hf, decide_eq_true hffits⟩, hfe, hfa, hres.of_fits hsize hffits⟩

/-- An address fits if it fits together with what has been accessed since its last access. -/
theorem fits_recent_iff :
    a ∈ EntrySet.addresses (((recent history).laidOut size 0).filter
        fun e => e.age + size e.address ≤ room) ↔
      ∃ earlier since, history = earlier ++ a :: since ∧ a ∉ since ∧
        (∑ b ∈ since.toFinset, size b) + size a ≤ room := by
  have hd := distinct_laidOut size 0 (nodup_recent history)
  -- the entry of an address in the layout, read off a split at its last access
  have hentry : ∀ earlier since, history = earlier ++ a :: since → a ∉ since →
      (⟨a, ∑ b ∈ since.toFinset, size b⟩ : Entry) ∈ (recent history).laidOut size 0 := by
    rintro earlier since rfl hsince
    obtain ⟨older, hrecent⟩ := recent_last_access earlier hsince
    rw [mem_laidOut_iff]
    exact ⟨recent since, older, hrecent, by rw [sum_recent, Int.zero_add]⟩
  rw [EntrySet.mem_addresses]
  constructor
  · rintro ⟨e, he, rfl⟩
    obtain ⟨hmem, hfits⟩ := List.mem_filter.1 he
    have hhistory : e.address ∈ history := by
      rw [← mem_recent, ← addresses_laidOut size 0 (recent history)]
      exact EntrySet.address_mem_addresses hmem
    obtain ⟨earlier, since, hsplit, hsince⟩ := exists_last_access hhistory
    refine ⟨earlier, since, hsplit, hsince, ?_⟩
    have heq := hd.eq_of_address hmem (hentry earlier since hsplit hsince) rfl
    rw [decide_eq_true_eq, heq] at hfits
    exact hfits
  · rintro ⟨earlier, since, hsplit, hsince, hfits⟩
    exact ⟨_, List.mem_filter.2 ⟨hentry earlier since hsplit hsince, decide_eq_true hfits⟩, rfl⟩

end Contents

end Residency
