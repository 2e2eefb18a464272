/-
Residency/Proofs/Joins.lean

Joins of regular states.  A join is the least upper bound of its states in the precision
order (`Policy.join_precise_iff`), so it depends on neither their order nor on how often one
of them occurs: regular states that are as precise as each other are equal.

Nor does it depend on the order whether a join succeeds.  On regular states nothing can fail
but the reports, at the lowest level, of the states that are joined and of those that
come about on the way; and an entry that is reported on the way is an entry of a state that
is joined.  So a join succeeds if and only if each of its states can be reported
(`Policy.join_succeeds_iff`).
-/
import Residency.Proofs.RegularStates
import Residency.Proofs.Wording

namespace Residency

/-! ### Bounds -/

namespace EntrySet

variable {r s t : EntrySet}

/-- What is in common is the largest set within both. -/
theorem within_common_iff (ht : t.Distinct) :
    r.Within (common s t) ↔ r.Within s ∧ r.Within t := by
  constructor
  · intro h
    exact ⟨h.trans (common_within_left s t), h.trans (common_within_right s t)⟩
  · rintro ⟨hs, ht'⟩ e he
    obtain ⟨f, hf, hfe, hle⟩ := hs e he
    obtain ⟨g, hg, hge, hle'⟩ := ht' e he
    have hentry : t.entry? f.address = some g := by
      rw [hfe, ← hge]
      exact ht.entry?_eq hg
    exact ⟨_, mem_common.2 ⟨f, hf, g, hentry, rfl⟩, hfe, Int.max_le.2 ⟨hle, hle'⟩⟩

/-- The merged set is the smallest set that has both within it. -/
theorem merged_within_iff (ht : t.Distinct) :
    (merged s t).Within r ↔ s.Within r ∧ t.Within r := by
  constructor
  · intro h
    exact ⟨(within_merged_left s t).trans h, (within_merged_right s ht).trans h⟩
  · rintro ⟨hs, ht'⟩ e he
    have he' : e ∈ joined .may s t := he
    exact (mem_or_mem_of_mem_joined he').elim (hs e) (ht' e)

end EntrySet

namespace Policy

variable {p : Policy} {t : Journal} {s u v joined : State}

/-- A join of two states is their least upper bound. -/
theorem joinTwo_precise_iff (hs : s.Regular p) (hu : u.Regular p)
    (h : (p.joinTwo s u t).result = .ok joined) :
    joined.Precise v ↔ s.Precise v ∧ u.Precise v := by
  obtain ⟨hentries, -⟩ := joinTwo_cases hs hu h
  have hmust : v.must.Within joined.must ↔ v.must.Within s.must ∧ v.must.Within u.must := by
    rw [show joined.must = (EntrySet.common s.must u.must).sorted from hentries .must,
      EntrySet.within_sorted]
    exact EntrySet.within_common_iff (hu.distinct .must)
  have hmay : joined.may.Within v.may ↔ s.may.Within v.may ∧ u.may.Within v.may := by
    rw [show joined.may = (EntrySet.merged s.may u.may).sorted from hentries .may,
      EntrySet.sorted_within]
    exact EntrySet.merged_within_iff (hu.distinct .may)
  rw [State.Precise, State.Precise, State.Precise, hmust, hmay]
  exact and_and_and_comm

/-- Joining state after state gives the least upper bound of all, and a regular state. -/
theorem follow_precise_iff {us : List State} (hs : s.Regular p) (hus : ∀ u ∈ us, u.Regular p)
    (h : (Analysis.follow p.joinTwo s us t).result = .ok joined) :
    joined.Regular p ∧ ∀ v, joined.Precise v ↔ ∀ x ∈ s :: us, x.Precise v := by
  induction us generalizing s with
  | nil =>
    obtain rfl := Analysis.result_follow_nil.1 h
    exact ⟨hs, fun v => by simp⟩
  | cons u us ih =>
    obtain ⟨two, htwo, h⟩ := Analysis.result_follow_cons.1 h
    have hu := hus u List.mem_cons_self
    obtain ⟨hregular, hprecise⟩ := ih (regular_joinTwo hs hu htwo)
      (fun x hx => hus x (List.mem_cons_of_mem u hx)) h
    refine ⟨hregular, fun v => ?_⟩
    rw [hprecise, List.forall_mem_cons, joinTwo_precise_iff hs hu htwo, List.forall_mem_cons,
      List.forall_mem_cons, and_assoc]

/-- A join is the least upper bound of its states. -/
theorem join_precise_iff {ss : List State} (hss : ∀ s ∈ ss, s.Regular p)
    (h : (p.join ss t).result = .ok joined) :
    joined.Regular p ∧ ∀ v, joined.Precise v ↔ ∀ s ∈ ss, s.Precise v := by
  obtain ⟨s, u, rest, rfl, hfold⟩ := result_join.1 h
  exact follow_precise_iff (hss s List.mem_cons_self)
    (fun x hx => hss x (List.mem_cons_of_mem s hx)) hfold

end Policy

/-! ### Reports -/

/-- A cache whose states have an entry can find slots. -/
theorem DirectMapped.requireSlots_of_merge {c : DirectMapped} {s u : State}
    (hs : s.Regular (.directMapped c)) (hu : u.Regular (.directMapped c))
    (h : (!(c.merge s u).isEmpty) = true) : c.requireSlots = .ok () := by
  have hentry : ∃ kind, ∃ e, e ∈ (c.merge s u).entries kind := by
    by_contra hnone
    have hempty : ∀ kind, (c.merge s u).entries kind = [] := fun kind =>
      List.eq_nil_iff_forall_not_mem.2 fun e he => hnone ⟨kind, e, he⟩
    have hmust : (c.merge s u).must = [] := hempty .must
    have hmay : (c.merge s u).may = [] := hempty .may
    rw [State.isEmpty, hmust, hmay] at h
    cases h
  obtain ⟨kind, e, he⟩ := hentry
  rw [merge_of_regular hs hu, EntrySet.mem_sorted] at he
  rcases EntrySet.mem_or_mem_of_mem_joined he with he | he
  · exact (slotOf_eq_ok.1 (hs.inSlots c rfl kind e he)).1
  · exact (slotOf_eq_ok.1 (hu.inSlots c rfl kind e he)).1

namespace Policy

variable {p : Policy} {t : Journal} {s u joined : State}

/-- The text of an entry can be written. -/
def Wordable : Policy → Entry → Prop
  | scratchpad p, e =>
    0 < p.bytesOf e.address ∧ (e.rangeText (p.bytesOf e.address)).Written
  | _, e => e.text.Written

/-- A set can be written if and only if each entry can. -/
theorem succeeds_setText_iff {s : EntrySet} :
    (p.setText s).Succeeds t ↔ ∀ e ∈ s, p.Wordable e := by
  have hwrite : (Analysis.write s.text).Succeeds t ↔ ∀ e ∈ s, e.text.Written :=
    Analysis.succeeds_write_iff.trans EntrySet.written_text
  cases p with
  | lruCache c => exact hwrite
  | directMapped c => exact hwrite
  | scratchpad p =>
    constructor
    · intro h e he
      obtain ⟨texts, htexts, -⟩ := h.of_bind
      obtain ⟨o, ho⟩ := Analysis.exists_result_of_collect htexts e he
      obtain ⟨size, hsize, ho⟩ := Analysis.result_bind_eq_ok.1 ho
      obtain ⟨rfl, hpos⟩ := Scratchpad.room_eq_ok hsize
      obtain ⟨text, htext, -⟩ := Analysis.result_bind_eq_ok.1 ho
      exact ⟨hpos, Analysis.succeeds_write_iff.1 ⟨text, htext⟩⟩
    · intro h
      refine (Analysis.succeeds_collect fun e he => ?_).bind fun _ _ => Analysis.succeeds_pure _ t
      obtain ⟨hpos, hwritten⟩ := h e he
      refine Analysis.Succeeds.bind ⟨_, Scratchpad.room_of_pos hpos t⟩ fun size hsize => ?_
      obtain ⟨rfl, -⟩ := Scratchpad.room_eq_ok hsize
      exact (Analysis.succeeds_write_iff.2 hwritten).bind fun _ _ => Analysis.succeeds_pure _ t

/-- The sets of a state can be reported, or need not be. -/
def Reports (p : Policy) (t : Journal) (s : State) : Prop :=
  t.admits .debug = true → ∀ kind, ∀ e ∈ s.entries kind, p.Wordable e

/-- What is to be joined can be reported if and only if both sets can be written. -/
theorem succeeds_reportJoin_iff (kind : SetKind) : (p.reportJoin kind s u).Succeeds t ↔
    (∀ e ∈ s.entries kind, p.Wordable e) ∧ ∀ e ∈ u.entries kind, p.Wordable e := by
  rw [← succeeds_setText_iff (t := t), ← succeeds_setText_iff (t := t)]
  constructor
  · intro h
    obtain ⟨a, ha, h⟩ := h.of_bind
    obtain ⟨b, hb, -⟩ := h.of_bind
    exact ⟨⟨a, ha⟩, ⟨b, hb⟩⟩
  · rintro ⟨hs, hu⟩
    exact hs.bind fun _ _ => hu.bind fun _ _ => ⟨(), Analysis.result_note _ _ _ t⟩

/-- A joined set can be written where the sets that are joined can, as its entries are theirs. -/
theorem wordable_joined (hs : p.Reports t s) (hu : p.Reports t u) (ht : t.admits .debug = true)
    (kind : SetKind) :
    ∀ e ∈ (EntrySet.joined kind (s.entries kind) (u.entries kind)).sorted, p.Wordable e := by
  intro e he
  rw [EntrySet.mem_sorted] at he
  exact (EntrySet.mem_or_mem_of_mem_joined he).elim (hs ht kind e) (hu ht kind e)

/-- A policy that counts ages merges two states without fault if the sets that it searches hold no
address twice and the entries can be reported, because the entries of the join are among these. -/
theorem succeeds_mergeTwo_of_distinct (hp : ∀ c, p ≠ .directMapped c) (hmust : u.must.Distinct)
    (hs : s.may.Distinct) (hu : u.may.Distinct) (hs' : p.Reports t s) (hu' : p.Reports t u) :
    (p.mergeTwo s u).Succeeds t := by
  have hmust : s.must.joinMust u.must = .ok (EntrySet.common s.must u.must).sorted :=
    EntrySet.joinMust_eq_ok.2 ⟨hmust, rfl⟩
  have hmay : s.may.joinMay u.may = .ok (EntrySet.merged s.may u.may).sorted :=
    EntrySet.joinMay_eq_ok.2 ⟨hs, hu, rfl⟩
  cases p with
  | lruCache c =>
    have hreport : ∀ kind, (LruCache.reportSet kind
        (EntrySet.joined kind (s.entries kind) (u.entries kind)).sorted).Succeeds t := by
      intro kind
      refine Analysis.succeeds_noteInDetail_iff.2 fun ht => ?_
      exact EntrySet.written_text.2 (wordable_joined hs' hu' ht kind)
    have hmerge : c.merge s u = .ok ⟨_, _, s.capacityOr c.lines⟩ :=
      LruCache.merge_eq_ok.2 ⟨hmust, hmay, rfl⟩
    refine Analysis.Succeeds.bind ⟨_, hmerge⟩ fun joined hjoined => ?_
    obtain rfl := Except.ok.inj (hmerge.symm.trans hjoined)
    exact (hreport .must).bind fun _ _ => (hreport .may).bind_pure _
  | directMapped c => exact absurd rfl (hp c)
  | scratchpad q =>
    have hmerge : q.merge s u = .ok ⟨_, _, s.capacityOr q.capacity⟩ :=
      Scratchpad.merge_eq_ok.2 ⟨hmust, hmay, rfl⟩
    refine Analysis.Succeeds.bind ⟨_, hmerge⟩ fun joined hjoined => ?_
    obtain rfl := Except.ok.inj (hmerge.symm.trans hjoined)
    refine Analysis.Succeeds.bind_pure (Analysis.succeeds_inDetail_iff.2 fun ht => ?_) _
    have hreport : ∀ kind, (q.reportSet kind
        (EntrySet.joined kind (s.entries kind) (u.entries kind)).sorted).Succeeds t := fun kind =>
      (succeeds_setText_iff.2 (wordable_joined hs' hu' ht kind)).bind fun _ _ =>
        ⟨(), Analysis.result_note _ _ _ t⟩
    exact (hreport .must).bind fun _ _ => hreport .may

/-- What the model of a memory does with two regular states succeeds if their entries can be
reported. -/
theorem succeeds_mergeTwo (hs : s.Regular p) (hu : u.Regular p) (hs' : p.Reports t s)
    (hu' : p.Reports t u) : (p.mergeTwo s u).Succeeds t := by
  by_cases hp : ∃ c, p = .directMapped c
  · obtain ⟨c, rfl⟩ := hp
    have hreport : ∀ kind, (DirectMapped.reportSet kind
        ((c.merge s u).entries kind)).Succeeds t := by
      intro kind
      refine Analysis.succeeds_noteInDetail_iff.2 fun ht => ?_
      rw [DirectMapped.merge_of_regular hs hu]
      exact EntrySet.written_text.2 (wordable_joined hs' hu' ht kind)
    have hreports : Analysis.Succeeds (do
        DirectMapped.reportSet .must (c.merge s u).must
        DirectMapped.reportSet .may (c.merge s u).may
        return c.merge s u) t :=
      (hreport .must).bind fun _ _ => (hreport .may).bind_pure _
    show (c.joinTwo s u).Succeeds t
    rw [DirectMapped.joinTwo]
    split
    · rename_i hnonempty
      refine Analysis.Succeeds.bind ⟨(), ?_⟩ fun _ _ => hreports
      exact DirectMapped.requireSlots_of_merge hs hu hnonempty
    · exact hreports
  · exact succeeds_mergeTwo_of_distinct (not_exists.1 hp) (hu.distinct .must) (hs.distinct .may)
      (hu.distinct .may) hs' hu'

theorem succeeds_reportJoins_iff : (Analysis.inDetail do
      p.reportJoin .must s u
      p.reportJoin .may s u).Succeeds t ↔ p.Reports t s ∧ p.Reports t u := by
  rw [Analysis.succeeds_inDetail_iff]
  constructor
  · intro hreports
    have hkinds : t.admits .debug = true → ∀ kind, (∀ e ∈ s.entries kind, p.Wordable e) ∧
        ∀ e ∈ u.entries kind, p.Wordable e := by
      intro ht kind
      obtain ⟨_, hmust, hmay⟩ := (hreports ht).of_bind
      cases kind with
      | must => exact (succeeds_reportJoin_iff .must).1 ⟨_, hmust⟩
      | may => exact (succeeds_reportJoin_iff .may).1 hmay
    exact ⟨fun ht kind => (hkinds ht kind).1, fun ht kind => (hkinds ht kind).2⟩
  · rintro ⟨hs, hu⟩ ht
    have hkinds : ∀ kind, (p.reportJoin kind s u).Succeeds t := fun kind =>
      (succeeds_reportJoin_iff kind).2 ⟨hs ht kind, hu ht kind⟩
    exact (hkinds .must).bind fun _ _ => hkinds .may

/-- Regular states can be joined if and only if they can be reported. -/
theorem joinTwo_succeeds_iff (hs : s.Regular p) (hu : u.Regular p) :
    (p.joinTwo s u).Succeeds t ↔ p.Reports t s ∧ p.Reports t u := by
  rw [← succeeds_reportJoins_iff]
  constructor
  · intro h
    obtain ⟨_, hreports, -⟩ := h.of_bind
    exact ⟨_, hreports⟩
  · intro hreports
    obtain ⟨hs', hu'⟩ := succeeds_reportJoins_iff.1 hreports
    exact hreports.bind fun _ _ => succeeds_mergeTwo hs hu hs' hu'

/-- Then the join can be reported too. -/
theorem reports_joinTwo (hs : s.Regular p) (hu : u.Regular p) (hs' : p.Reports t s)
    (hu' : p.Reports t u) (h : (p.joinTwo s u t).result = .ok joined) : p.Reports t joined :=
  fun ht kind e he => (mem_or_mem_of_joinTwo hs hu h kind he).elim (hs' ht kind e) (hu' ht kind e)

/-- States that can be reported can be joined one after another. -/
theorem follow_succeeds {us : List State} (hs : s.Regular p) (hs' : p.Reports t s)
    (hus : ∀ u ∈ us, u.Regular p ∧ p.Reports t u) :
    Analysis.Succeeds (Analysis.follow p.joinTwo s us) t := by
  induction us generalizing s with
  | nil => exact Analysis.succeeds_pure s t
  | cons u us ih =>
    obtain ⟨hu, hu'⟩ := hus u List.mem_cons_self
    refine ((joinTwo_succeeds_iff hs hu).2 ⟨hs', hu'⟩).bind fun two htwo => ?_
    exact ih (regular_joinTwo hs hu htwo) (reports_joinTwo hs hu hs' hu' htwo)
      fun x hx => hus x (List.mem_cons_of_mem u hx)

/-- States that were joined one after another can all be reported. -/
theorem reports_of_follow {us : List State} (hs : s.Regular p) (hu : u.Regular p)
    (hus : ∀ u ∈ us, u.Regular p)
    (h : Analysis.Succeeds (Analysis.follow p.joinTwo s (u :: us)) t) :
    p.Reports t s ∧ ∀ x ∈ u :: us, p.Reports t x := by
  induction us generalizing s u with
  | nil =>
    obtain ⟨two, htwo, -⟩ := h.of_bind
    obtain ⟨hs', hu'⟩ := (joinTwo_succeeds_iff hs hu).1 ⟨two, htwo⟩
    exact ⟨hs', List.forall_mem_singleton.2 hu'⟩
  | cons x us ih =>
    obtain ⟨two, htwo, h⟩ := h.of_bind
    obtain ⟨hs', hu'⟩ := (joinTwo_succeeds_iff hs hu).1 ⟨two, htwo⟩
    obtain ⟨-, hrest⟩ := ih (regular_joinTwo hs hu htwo) (hus x List.mem_cons_self)
      (fun y hy => hus y (List.mem_cons_of_mem x hy)) h
    exact ⟨hs', List.forall_mem_cons.2 ⟨hu', hrest⟩⟩

/-- A join of regular states succeeds if and only if each of them can be reported. -/
theorem join_succeeds_iff {ss : List State} (hlength : 2 ≤ ss.length)
    (hss : ∀ s ∈ ss, s.Regular p) : (p.join ss).Succeeds t ↔ ∀ s ∈ ss, p.Reports t s := by
  match ss, hlength, hss with
  | s :: u :: rest, _, hss =>
    obtain ⟨hs, hus⟩ := List.forall_mem_cons.1 hss
    obtain ⟨hu, hrest⟩ := List.forall_mem_cons.1 hus
    rw [List.forall_mem_cons]
    constructor
    · rintro ⟨joined, hjoined⟩
      obtain ⟨_, _, _, heq, hfold⟩ := result_join.1 hjoined
      obtain ⟨rfl, rfl, rfl⟩ := by simpa using heq
      exact reports_of_follow hs hu hrest ⟨joined, hfold⟩
    · rintro ⟨hs', hus'⟩
      obtain ⟨joined, hjoined⟩ := follow_succeeds hs hs' fun x hx => ⟨hus x hx, hus' x hx⟩
      exact ⟨joined, result_join.2 ⟨s, u, rest, rfl, hjoined⟩⟩

end Policy

end Residency
