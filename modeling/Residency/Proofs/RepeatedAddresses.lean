/-
Residency/Proofs/RepeatedAddresses.lean

Repeated addresses at joins.  No derivable state holds an address twice in one set, but the
joins are defined on all states, and they refuse an address that occurs twice.  They do so
for three of the four sets only: the search runs through MUST of the second state, MAY of the
first and MAY of the second (`State.repeated?`), and MUST of the first state is never searched.

So a join of two states with the same sets may succeed in one order and be refused in the
other, and what it yields may hold an address twice in MUST, namely one that the second state
holds and the first one repeats.  `Policy.join_refuses_repeats` says all this for every two
states of a policy that counts ages, and whatever is kept in the journal: wording the two
states can stop a join too, but never with a fault of this kind (`stopsOutside_reportJoin`).
-/
import Mathlib.Data.List.Nodup
import Residency.Proofs.Joins
import Residency.Proofs.ScratchpadFaults

namespace Residency

/-! ### The search -/

namespace EntrySet

variable {s t u : EntrySet} {a : Int} {f : Fault}

/-- There is no first repeat exactly in distinct sets. -/
theorem firstRepeat?_eq_none_iff : s.firstRepeat? = none ↔ s.Distinct := by
  rw [firstRepeat?, repeatAfter?_eq_none_iff]
  simp

/-- The check names the first address that repeats. -/
theorem refuseRepeats_eq_error :
    s.refuseRepeats = .error f ↔ ∃ a, s.firstRepeat? = some a ∧ f = .duplicateAddress a := by
  rw [refuseRepeats]
  cases s.firstRepeat? with
  | none => simp
  | some a => simp [refuse, Fault.stated_duplicateAddress, eq_comm]

/-- A MUST join fails for the first repeat in its second set and for nothing else. -/
theorem joinMust_eq_error :
    joinMust s t = .error f ↔ ∃ a, t.firstRepeat? = some a ∧ f = .duplicateAddress a := by
  rw [joinMust, ← refuseRepeats_eq_error]
  cases t.refuseRepeats with
  | error e => simp [bind, Except.bind]
  | ok => simp [bind, Except.bind, pure, Except.pure]

/-- A MAY join fails for the first repeat in its first set, or else in its second. -/
theorem joinMay_eq_error : joinMay s t = .error f ↔
    ∃ a, s.firstRepeat?.or t.firstRepeat? = some a ∧ f = .duplicateAddress a := by
  cases hs : s.firstRepeat? with
  | some a =>
    have hrefused : s.refuseRepeats = .error (.duplicateAddress a) :=
      refuseRepeats_eq_error.2 ⟨a, hs, rfl⟩
    simp [joinMay, hrefused, bind, Except.bind, eq_comm]
  | none =>
    have hpassed := refuseRepeats_eq_ok.2 (firstRepeat?_eq_none_iff.1 hs)
    rw [Option.none_or, ← refuseRepeats_eq_error, joinMay, hpassed]
    cases t.refuseRepeats with
    | error e => simp [bind, Except.bind]
    | ok => simp [bind, Except.bind, pure, Except.pure]

/-! ### What MUST keeps of a repetition -/

/-- In common are the addresses of the first set that the second one has, in their order. -/
theorem addresses_common (s t : EntrySet) :
    (common s t).addresses = s.addresses.filter fun a => t.holds a := by
  induction s with
  | nil => rfl
  | cons e s ih =>
    show addresses (common (e :: s) t) = (e.address :: addresses s).filter fun a => t.holds a
    rw [List.filter_cons, ← ih, common, List.filterMap_cons]
    cases he : t.entry? e.address with
    | none =>
      have hholds : t.holds e.address = false := by
        rw [Bool.eq_false_iff, ne_eq, holds_iff]
        exact entry?_eq_none_iff.1 he
      rw [hholds]
      rfl
    | some f =>
      have hholds : t.holds e.address = true := by
        rw [holds_iff, ← entry?_address he]
        exact address_mem_addresses (entry?_mem he)
      rw [hholds]
      rfl

/-- What both sets hold is free of repetitions if the first set repeats nothing that the second
one holds. -/
theorem distinct_common_iff :
    (common s t).Distinct ↔ ∀ a ∈ t.addresses, s.addresses.count a ≤ 1 := by
  rw [Distinct, addresses_common, List.nodup_iff_count_le_one]
  constructor
  · intro h a ha
    have hcount := h a
    rwa [List.count_filter (holds_iff.2 ha)] at hcount
  · intro h a
    by_cases ha : a ∈ t.addresses
    · rw [List.count_filter (holds_iff.2 ha)]
      exact h a ha
    · have hnot : a ∉ s.addresses.filter fun a => t.holds a := by
        rw [List.mem_filter, holds_iff]
        exact fun hmem => ha hmem.2
      rw [List.count_eq_zero_of_not_mem hnot]
      exact Nat.zero_le 1

end EntrySet

/-! ### Two states -/

namespace State

variable {s u j : State} {capacity : Int} {f : Fault}

/-- The repetition that a join of two states meets first. -/
def repeated? (s u : State) : Option Int :=
  u.must.firstRepeat?.or (s.may.firstRepeat?.or u.may.firstRepeat?)

/-- Nothing repeats if and only if the sets that are looked at are distinct. -/
theorem repeated?_eq_none_iff :
    s.repeated? u = none ↔ u.must.Distinct ∧ s.may.Distinct ∧ u.may.Distinct := by
  rw [repeated?, Option.or_eq_none_iff, Option.or_eq_none_iff,
    EntrySet.firstRepeat?_eq_none_iff, EntrySet.firstRepeat?_eq_none_iff,
    EntrySet.firstRepeat?_eq_none_iff]

/-- Why the joins of caches and scratchpads fail. -/
theorem join_eq_error :
    (do
      let must ← s.must.joinMust u.must
      let may ← s.may.joinMay u.may
      return ⟨must, may, capacity⟩ : Except Fault State) = .error f ↔
    ∃ a, s.repeated? u = some a ∧ f = .duplicateAddress a := by
  rw [repeated?]
  cases hmust : s.must.joinMust u.must with
  | error e =>
    obtain ⟨a, ha, rfl⟩ := EntrySet.joinMust_eq_error.1 hmust
    simp [ha, bind, Except.bind, eq_comm]
  | ok must =>
    have hnone := EntrySet.firstRepeat?_eq_none_iff.2 (EntrySet.joinMust_eq_ok.1 hmust).1
    rw [hnone, Option.none_or, ← EntrySet.joinMay_eq_error]
    cases s.may.joinMay u.may with
    | error e => simp [bind, Except.bind]
    | ok may => simp [bind, Except.bind, pure, Except.pure]

end State

/-! ### Reports -/

namespace Analysis

variable {α β : Type} {t : Journal} {P : Fault → Prop}

/-- If the analysis stops, then with a fault that does not have the property. -/
def StopsOutside (P : Fault → Prop) (x : Analysis α) (t : Journal) : Prop :=
  ∀ e, (x t).result = .error e → ¬P e

theorem Succeeds.stopsOutside {x : Analysis α} (h : x.Succeeds t) : x.StopsOutside P t := by
  obtain ⟨a, ha⟩ := h
  intro e he
  rw [ha] at he
  cases he

/-- If both parts stop only outside of the property, so does the whole. -/
theorem StopsOutside.bind {x : Analysis α} {f : α → Analysis β} (hx : x.StopsOutside P t)
    (hf : ∀ a, (f a).StopsOutside P t) : (x >>= f).StopsOutside P t := by
  intro e he
  cases h : (x t).result with
  | error e' =>
    rw [result_bind_of_error h] at he
    obtain rfl := Except.error.inj he
    exact hx e' h
  | ok a =>
    rw [result_bind_of_ok h] at he
    exact hf a e he

theorem stopsOutside_fail {e : Fault} (h : ¬P e.stated) :
    (fail e : Analysis α).StopsOutside P t := by
  intro e' he
  obtain rfl : e.stated = e' := Except.error.inj he
  exact h

theorem stopsOutside_write (h : ¬P .unwritableNumber) (m : Text.Phrase) :
    (write m).StopsOutside P t := by
  rw [write]
  cases m.text? with
  | none => exact stopsOutside_fail h
  | some text => exact (succeeds_pure text t).stopsOutside

theorem stopsOutside_note (l : Level) (c : Component) (m : String) :
    (note l c m).StopsOutside P t :=
  Succeeds.stopsOutside ⟨(), result_note l c m t⟩

theorem stopsOutside_collect {f : α → Analysis (Option β)} (hf : ∀ a, (f a).StopsOutside P t)
    (as : List α) : (collect f as).StopsOutside P t := by
  induction as with
  | nil => exact (succeeds_pure [] t).stopsOutside
  | cons a as ih =>
    exact (hf a).bind fun b => ih.bind fun bs => (succeeds_pure _ t).stopsOutside

end Analysis

/-- The fault says that an invariant is broken. -/
def Fault.IsInvariant (e : Fault) : Prop :=
  e.diagnostic.kind = .invariant

theorem Scratchpad.stopsOutside_room (p : Scratchpad) (a : Int) (t : Journal) :
    (p.room a).StopsOutside Fault.IsInvariant t := by
  have hexact : (p.functions.exactSize a).StopsOutside Fault.IsInvariant t := by
    rw [FunctionTable.exactSize]
    cases p.functions.function? a with
    | some f => exact (Analysis.succeeds_pure f.size t).stopsOutside
    | none =>
      refine (Analysis.stopsOutside_note _ _ _).bind fun _ => ?_
      have hstated : (Fault.unknownFunction a).stated = .unknownFunction a :=
        Fault.stated_of_written rfl
      apply Analysis.stopsOutside_fail
      rw [hstated]
      exact FaultKind.noConfusion
  refine Analysis.StopsOutside.bind (hexact.bind fun size => ?_) fun rounded => ?_
  · exact (Analysis.succeeds_pure _ t).stopsOutside
  · exact (Analysis.succeeds_pure _ t).stopsOutside

namespace Policy

variable {p : Policy} {t : Journal} {s u j : State}

/-- The text of a set fails for other reasons than repeats. -/
theorem stopsOutside_setText (p : Policy) (s : EntrySet) (t : Journal) :
    (p.setText s).StopsOutside Fault.IsInvariant t := by
  cases p with
  | lruCache c => exact Analysis.stopsOutside_write FaultKind.noConfusion _
  | directMapped c => exact Analysis.stopsOutside_write FaultKind.noConfusion _
  | scratchpad q =>
    refine (Analysis.stopsOutside_collect (fun e => ?_) s).bind fun texts => ?_
    · refine (q.stopsOutside_room e.address t).bind fun size => ?_
      refine (Analysis.stopsOutside_write FaultKind.noConfusion _).bind fun text => ?_
      exact (Analysis.succeeds_pure _ t).stopsOutside
    · exact (Analysis.succeeds_pure _ t).stopsOutside

theorem stopsOutside_reportJoin (p : Policy) (kind : SetKind) (s u : State) (t : Journal) :
    (p.reportJoin kind s u).StopsOutside Fault.IsInvariant t :=
  (p.stopsOutside_setText _ t).bind fun _ => (p.stopsOutside_setText _ t).bind fun _ =>
    Analysis.stopsOutside_note _ _ _

/-! ### Joins of two states -/

/-- A join of two states is the join of the two. -/
theorem result_join_two (p : Policy) (s u : State) (t : Journal) :
    (p.join [s, u] t).result = (p.joinTwo s u t).result := by
  have hjoin : p.join [s, u] = (p.joinTwo s u >>= pure) >>= fun joined => do
      Analysis.count joined.usage
      return joined := rfl
  rw [hjoin, bind_pure, Analysis.result_bind]
  cases (p.joinTwo s u t).result <;> rfl

/-- Where an address repeats the model refuses to join. -/
theorem result_mergeTwo_of_repeated (hp : ∀ c, p ≠ .directMapped c) {a : Int}
    (h : s.repeated? u = some a) : (p.mergeTwo s u t).result = .error (.duplicateAddress a) := by
  cases p with
  | lruCache c => exact Analysis.result_bind_of_error (State.join_eq_error.2 ⟨a, h, rfl⟩)
  | directMapped c => exact absurd rfl (hp c)
  | scratchpad q => exact Analysis.result_bind_of_error (State.join_eq_error.2 ⟨a, h, rfl⟩)

/-- Where the model joins, both sets are joined. -/
theorem merged_of_mergeTwo (hp : ∀ c, p ≠ .directMapped c)
    (h : (p.mergeTwo s u t).result = .ok j) :
    s.must.joinMust u.must = .ok j.must ∧ s.may.joinMay u.may = .ok j.may := by
  cases p with
  | lruCache c =>
    obtain ⟨hmust, hmay, -⟩ := LruCache.merge_eq_ok.1 (LruCache.merge_of_joinTwo h)
    exact ⟨hmust, hmay⟩
  | directMapped c => exact absurd rfl (hp c)
  | scratchpad q =>
    obtain ⟨hmust, hmay, -⟩ := Scratchpad.merge_eq_ok.1 (Scratchpad.merge_of_joinTwo h)
    exact ⟨hmust, hmay⟩

/-- In a memory with ages states can be joined if they can be reported and nothing repeats. -/
theorem joinTwo_succeeds_iff_of_ages (hp : ∀ c, p ≠ .directMapped c) :
    (p.joinTwo s u).Succeeds t ↔ p.Reports t s ∧ p.Reports t u ∧ s.repeated? u = none := by
  rw [← and_assoc, ← succeeds_reportJoins_iff]
  constructor
  · intro h
    obtain ⟨_, hreports, j, hj⟩ := h.of_bind
    refine ⟨⟨_, hreports⟩, ?_⟩
    cases hrepeated : s.repeated? u with
    | none => rfl
    | some a =>
      rw [result_mergeTwo_of_repeated hp hrepeated] at hj
      cases hj
  · rintro ⟨hreports, hrepeated⟩
    obtain ⟨hmust, hs, hu⟩ := State.repeated?_eq_none_iff.1 hrepeated
    obtain ⟨hs', hu'⟩ := succeeds_reportJoins_iff.1 hreports
    exact hreports.bind fun _ _ => succeeds_mergeTwo_of_distinct hp hmust hs hu hs' hu'

/-- A join of two states says that an invariant is broken exactly if it finds a repetition. -/
theorem joinTwo_eq_invariant_iff (hp : ∀ c, p ≠ .directMapped c) {f : Fault} (hf : f.IsInvariant) :
    (p.joinTwo s u t).result = .error f ↔ p.Reports t s ∧ p.Reports t u ∧
      ∃ a, s.repeated? u = some a ∧ f = .duplicateAddress a := by
  rw [← and_assoc, ← succeeds_reportJoins_iff]
  have houtside : (Analysis.inDetail do
      p.reportJoin .must s u
      p.reportJoin .may s u).StopsOutside Fault.IsInvariant t := by
    by_cases ht : t.admits .debug = true
    · have hboth := (p.stopsOutside_reportJoin .must s u t).bind fun _ =>
        p.stopsOutside_reportJoin .may s u t
      intro e he
      rw [Analysis.inDetail, if_pos ht] at he
      exact hboth e he
    · exact (Analysis.succeeds_inDetail_iff.2 fun ht' => absurd ht' ht).stopsOutside
  constructor
  · intro h
    cases hreports : (Analysis.inDetail (do
        p.reportJoin .must s u
        p.reportJoin .may s u) t).result with
    | error e =>
      obtain rfl := Except.error.inj ((Analysis.result_bind_of_error hreports).symm.trans h)
      exact absurd hf (houtside e hreports)
    | ok =>
      refine ⟨⟨_, hreports⟩, ?_⟩
      have hmerge := (Analysis.result_bind_of_ok hreports).symm.trans h
      cases hrepeated : s.repeated? u with
      | some a =>
        rw [result_mergeTwo_of_repeated hp hrepeated] at hmerge
        exact ⟨a, rfl, (Except.error.inj hmerge).symm⟩
      | none =>
        -- nothing is repeated, so the join would have succeeded
        obtain ⟨hs', hu'⟩ := succeeds_reportJoins_iff.1 ⟨_, hreports⟩
        obtain ⟨j, hj⟩ := (joinTwo_succeeds_iff_of_ages hp).2 ⟨hs', hu', hrepeated⟩
        rw [h] at hj
        cases hj
  · rintro ⟨⟨_, hreports⟩, a, ha, rfl⟩
    exact (Analysis.result_bind_of_ok hreports).trans (result_mergeTwo_of_repeated hp ha)

/-- **Repeated addresses at joins.**  A policy that counts ages refuses a join of two states, with
the code for duplicate addresses, exactly if the two states can be reported and one of the three
searched sets holds an address twice, and it succeeds exactly if they can be reported and none of
them does.  The join then holds no address twice in MAY; in MUST it holds none twice exactly if the
first state repeats none there that the second state holds.  The two orders differ exactly if
nothing but a repetition in one of the two MUST sets stands in the way. -/
theorem join_refuses_repeats (p : Policy) (hp : ∀ c, p ≠ .directMapped c) (a b : State)
    (t : Journal) :
    ((∃ f, (p.join [a, b] t).result = .error f ∧ f.diagnostic.kind = .invariant ∧
        f.diagnostic.code = StandardCode.duplicateAddress.code) ↔
      p.Reports t a ∧ p.Reports t b ∧
        (¬b.must.Distinct ∨ ¬a.may.Distinct ∨ ¬b.may.Distinct)) ∧
    ((p.join [a, b]).Succeeds t ↔ p.Reports t a ∧ p.Reports t b ∧
      b.must.Distinct ∧ a.may.Distinct ∧ b.may.Distinct) ∧
    (∀ j, (p.join [a, b] t).result = .ok j → j.may.Distinct ∧
      (j.must.Distinct ↔ ∀ x ∈ b.must.addresses, a.must.addresses.count x ≤ 1)) ∧
    (¬((p.join [a, b]).Succeeds t ↔ (p.join [b, a]).Succeeds t) ↔
      p.Reports t a ∧ p.Reports t b ∧ a.may.Distinct ∧ b.may.Distinct ∧
        ¬(a.must.Distinct ↔ b.must.Distinct)) := by
  have hsucceeds : ∀ s u : State, (p.join [s, u]).Succeeds t ↔ p.Reports t s ∧ p.Reports t u ∧
      u.must.Distinct ∧ s.may.Distinct ∧ u.may.Distinct := by
    intro s u
    rw [← State.repeated?_eq_none_iff, ← joinTwo_succeeds_iff_of_ages hp, Analysis.Succeeds,
      result_join_two]
    rfl
  refine ⟨?_, hsucceeds a b, ?_, ?_⟩
  · rw [result_join_two]
    have hnone := State.repeated?_eq_none_iff (s := a) (u := b)
    constructor
    · rintro ⟨f, hf, hkind, -⟩
      obtain ⟨ha, hb, x, hx, -⟩ := (joinTwo_eq_invariant_iff hp hkind).1 hf
      have hsome : a.repeated? b ≠ none := by simp [hx]
      rw [ne_eq, hnone] at hsome
      exact ⟨ha, hb, by tauto⟩
    · rintro ⟨ha, hb, hrepeats⟩
      have hsome : a.repeated? b ≠ none := by
        rw [ne_eq, hnone]
        tauto
      obtain ⟨x, hx⟩ := Option.ne_none_iff_exists'.1 hsome
      have hinvariant : (Fault.duplicateAddress x).IsInvariant := rfl
      exact ⟨_, (joinTwo_eq_invariant_iff hp hinvariant).2 ⟨ha, hb, x, hx, rfl⟩, rfl, rfl⟩
  · intro j hj
    rw [result_join_two] at hj
    obtain ⟨hmust, hmay⟩ := merged_of_mergeTwo hp (joinTwo_mergeTwo hj)
    refine ⟨EntrySet.distinct_joinMay hmay, ?_⟩
    rw [(EntrySet.joinMust_eq_ok.1 hmust).2, EntrySet.distinct_sorted, EntrySet.distinct_common_iff]
  · rw [hsucceeds a b, hsucceeds b a]
    tauto

-- The address 1 stands twice in MUST of the first state only.
theorem join_refuses_repeats_one_order :
    let p : Policy := .lruCache ⟨4⟩
    let a : State := ⟨[⟨1, 0⟩, ⟨1, 1⟩], [⟨1, 0⟩], 4⟩
    let b : State := ⟨[⟨1, 2⟩], [⟨1, 0⟩], 4⟩
    (∀ c, p ≠ .directMapped c) ∧
    (p.join [a, b] none).result = .ok ⟨[⟨1, 2⟩, ⟨1, 2⟩], [⟨1, 0⟩], 4⟩ ∧
    (p.join [b, a] none).result = .error (.duplicateAddress 1) ∧
    ¬(∃ f, (p.join [a, b] none).result = .error f ∧ f.diagnostic.kind = .invariant ∧
      f.diagnostic.code = StandardCode.duplicateAddress.code) ∧
    ¬((p.join [a, b]).Succeeds none ↔ (p.join [b, a]).Succeeds none) := by
  intro p a b
  have hp : ∀ c, p ≠ .directMapped c := fun c => Policy.noConfusion
  have ha : ¬a.must.Distinct := by decide
  have hb : b.must.Distinct ∧ a.may.Distinct ∧ b.may.Distinct := by decide
  have hreports : ∀ s, p.Reports none s := fun s h => Bool.noConfusion h
  obtain ⟨hfault, -, -, horders⟩ := join_refuses_repeats p hp a b none
  refine ⟨hp, by rfl, by rfl, fun h => ?_, horders.2 ?_⟩
  · obtain ⟨-, -, hrepeats⟩ := hfault.1 h
    tauto
  · exact ⟨hreports a, hreports b, hb.2.1, hb.2.2, fun h => ha (h.2 hb.1)⟩

end Policy

end Residency
