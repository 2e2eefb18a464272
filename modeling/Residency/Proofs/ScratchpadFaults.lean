/-
Residency/Proofs/ScratchpadFaults.lean

Faults of a scratchpad.  An access is refused for what is wrong with the function alone: no
table has it, or it is larger than the scratchpad and such functions are not ignored
(`Scratchpad.refusal?`).  On a packed state nothing else stops an access, and nothing stops a
join.

The fault to be excluded is the one that a hit raises when it would push a MUST entry out.
The rule for overlapping entries puts `g` behind `f` if there is no room for it in front of
`f`, and then the two of them must fit into the scratchpad together.  Neither entry says
that they do; it follows from the fact that MUST as a whole has no more bytes than the
scratchpad (`State.Packed.bytesWithin_must_le`).
-/
import Residency.Proofs.Packing
import Residency.Proofs.Wording

namespace Residency

open Text (isWritable)

/-! ### Faults that are stated -/

/-- A fault whose message can be written is stated as it is. -/
theorem Fault.stated_of_written {e : Fault} (h : e.diagnostic.message.Written) : e.stated = e := by
  obtain ⟨text, htext⟩ := Option.isSome_iff_exists.1 h
  rw [stated, htext]

theorem Fault.stated_duplicateAddress (a : Int) :
    (duplicateAddress a).stated = .duplicateAddress a :=
  stated_of_written rfl

/-- Stating a fault changes it to nothing but the one about its wording. -/
theorem Fault.stated_cases (e : Fault) : e.stated = e ∨ e.stated = .unwritableNumber := by
  rw [stated]
  split
  · exact .inl rfl
  · exact .inr rfl

/-- Tidy states can be joined. -/
theorem State.Tidy.exists_merge {size : Int → Int} {room : Int} {s u : State}
    (hs : s.Tidy size room) (hu : u.Tidy size room) (capacity : Int) :
    ∃ joined : State, s.must.joinMust u.must = .ok joined.must ∧
      s.may.joinMay u.may = .ok joined.may ∧ joined.capacity = capacity :=
  ⟨⟨_, _, capacity⟩, EntrySet.joinMust_eq_ok.2 ⟨hu.mustDistinct, rfl⟩,
    EntrySet.joinMay_eq_ok.2 ⟨hs.mayDistinct, hu.mayDistinct, rfl⟩, rfl⟩

namespace Scratchpad

variable {p : Scratchpad} {kind : SetKind} {s : EntrySet} {a : Int} {t : Threshold}

/-- Why an access to the address is refused, if it is. -/
def refusal? (p : Scratchpad) (address : Int) : Option Fault :=
  match p.functions.function? address with
  | none => some (.unknownFunction address)
  | some _ =>
    if p.capacity < p.bytesOf address ∧ p.geometry.ignoreOutsized = false then
      some (.outsizedFunction address (p.bytesOf address) p.capacity)
    else none

/-- The bytes of all functions together. -/
def totalBytes (p : Scratchpad) : Int :=
  ((p.functions.functions.map fun f => f.address).map p.bytesOf).sum

/-- No message about an access holds a larger number. -/
def largest (p : Scratchpad) : Int :=
  p.capacity + p.totalBytes

/-! ### Bounds -/

/-- A function that takes room is registered. -/
theorem mem_functions_of_pos (ha : 0 < p.bytesOf a) :
    a ∈ p.functions.functions.map fun f => f.address := by
  rw [bytesOf] at ha
  cases hf : p.functions.function? a with
  | none =>
    rw [hf] at ha
    exact absurd ha (Int.lt_irrefl 0)
  | some f =>
    have haddress : f.address = a := by simpa using List.find?_some hf
    exact List.mem_map.2 ⟨f, List.mem_of_find?_eq_some hf, haddress⟩

/-- Different functions have no more bytes than all of them together. -/
theorem sum_le_totalBytes {as : Contents} (hn : as.Nodup) (h : ∀ a ∈ as, 0 < p.bytesOf a) :
    (as.map p.bytesOf).sum ≤ p.totalBytes :=
  Contents.sum_le_sum_of_subset p.bytesOf_nonneg hn fun a ha => mem_functions_of_pos (h a ha)

theorem bytesOf_le_totalBytes (ha : 0 < p.bytesOf a) : p.bytesOf a ≤ p.totalBytes := by
  have hsum : ([a].map p.bytesOf).sum ≤ p.totalBytes := by
    refine sum_le_totalBytes (List.nodup_singleton a) fun b hb => ?_
    obtain rfl := List.mem_singleton.1 hb
    exact ha
  simpa using hsum

/-- The numbers of a message about an access can be written if a bound of them can. -/
theorem isWritable_of_largest (hw : isWritable p.largest = true) (ha : 0 < p.bytesOf a) :
    isWritable (p.bytesOf a) = true ∧ isWritable p.capacity = true := by
  have hcapacity : 0 < p.capacity := p.geometry.capacity_pos
  have htotal := bytesOf_le_totalBytes ha
  rw [largest] at hw
  exact ⟨Text.isWritable_of_le (by omega) (by omega) hw,
    Text.isWritable_of_le (by omega) (by omega) hw⟩

/-! ### Reports -/

/-- The numbers in the text of an entry are places in the scratchpad. -/
theorem written_rangeText (hw : isWritable p.capacity = true)
    (hs : s.Inside p.bytesOf p.capacity) {e : Entry} (he : e ∈ s) :
    (e.rangeText (p.bytesOf e.address)).Written := by
  obtain ⟨hage, hpos, hend⟩ := hs e he
  have hwritten : ∀ n, 0 ≤ n → n ≤ p.capacity → isWritable n = true :=
    fun n hn hle => Text.isWritable_of_le hn hle hw
  simp [Entry.rangeText, hwritten e.age hage (by omega),
    hwritten (e.age + p.bytesOf e.address) (by omega) hend,
    hwritten (p.bytesOf e.address) (by omega) (by omega)]

/-- A set inside the memory can be written where the capacity can. -/
theorem succeeds_setText (hw : isWritable p.capacity = true) (hs : s.Inside p.bytesOf p.capacity)
    (t : Journal) : (p.setText s).Succeeds t := by
  refine (Analysis.succeeds_collect fun e he => ?_).bind fun _ _ => Analysis.succeeds_pure _ t
  obtain ⟨-, hpos, -⟩ := hs e he
  refine Analysis.Succeeds.bind ⟨_, room_of_pos hpos t⟩ fun size hsize => ?_
  obtain rfl := Except.ok.inj ((room_of_pos hpos t).symm.trans hsize)
  refine (Analysis.succeeds_write_iff.2 (written_rangeText hw hs he)).bind fun _ _ => ?_
  exact Analysis.succeeds_pure _ t

theorem succeeds_reportSet (hw : isWritable p.capacity = true) (kind : SetKind)
    (hs : s.Inside p.bytesOf p.capacity) (t : Journal) : (p.reportSet kind s).Succeeds t :=
  (succeeds_setText hw hs t).bind fun _ _ => ⟨(), Analysis.result_note _ _ _ t⟩

/-! ### One set -/

/-- A hit pushes no MUST entry out if the two entries fit into the scratchpad together. -/
theorem agedByHit_must_add_le {ageF sizeF ageG sizeG room : Int} (hF : 0 < sizeF)
    (hendF : ageF + sizeF ≤ room) (hendG : ageG + sizeG ≤ room) (hboth : sizeF + sizeG ≤ room) :
    agedByHit .must ageF sizeF ageG sizeG + sizeG ≤ room := by
  rw [agedByHit]
  split
  · show max ageG (sizeF + max (ageF - sizeG) 0) + sizeG ≤ room
    omega
  · rename_i hover
    rw [overlaps_iff] at hover
    split <;> omega

/-- Two entries of a set have no more bytes than the set. -/
theorem add_bytesOf_le_sum {e f : Entry} (he : e ∈ s) (hf : f ∈ s)
    (hne : e.address ≠ f.address) :
    p.bytesOf f.address + p.bytesOf e.address ≤ (s.map fun e => p.bytesOf e.address).sum := by
  have hsub : [f.address, e.address] ⊆ s.addresses := by
    intro b hb
    rcases List.mem_cons.1 hb with rfl | hb
    · exact EntrySet.address_mem_addresses hf
    · obtain rfl := List.mem_singleton.1 hb
      exact EntrySet.address_mem_addresses he
  have hsum := Contents.sum_le_sum_of_subset p.bytesOf_nonneg (by simp [hne.symm]) hsub
  rw [EntrySet.sum_sizes]
  simpa using hsum

theorem succeeds_shifted {e : Entry} (he : 0 < p.bytesOf e.address) (size : Int) :
    (p.shifted size e).Succeeds t := by
  refine Analysis.Succeeds.bind ⟨_, room_of_pos he t⟩ fun own _ => ?_
  split
  · exact (Analysis.succeeds_note _ _ _ t).bind_pure none
  · exact Analysis.succeeds_pure _ t

/-- On a hit an entry of a packed set finds room or leaves. -/
theorem succeeds_moved (hs : s.Inside p.bytesOf p.capacity)
    (hroom : kind = .must → (s.map fun e => p.bytesOf e.address).sum ≤ p.capacity)
    {e f : Entry} (he : e ∈ s) (hf : f ∈ s) (hne : e.address ≠ f.address) :
    (p.moved kind f (p.bytesOf f.address) e).Succeeds t := by
  obtain ⟨-, hpos, hend⟩ := hs e he
  obtain ⟨-, hposF, hendF⟩ := hs f hf
  refine Analysis.Succeeds.bind ⟨_, room_of_pos hpos t⟩ fun own hown => ?_
  obtain rfl := Except.ok.inj ((room_of_pos hpos t).symm.trans hown)
  cases kind with
  | must =>
    -- Here the analysis would stop, but MUST as a whole fits, and so do the two entries.
    have hboth := (add_bytesOf_le_sum he hf hne).trans (hroom rfl)
    have hin := agedByHit_must_add_le hposF hendF hend hboth
    dsimp only
    rw [if_neg (Int.not_lt.2 hin)]
    exact Analysis.succeeds_pure _ t
  | may =>
    dsimp only
    split
    · exact (Analysis.succeeds_note _ _ _ t).bind_pure none
    · exact Analysis.succeeds_pure _ t

/-- What an access leaves of a packed set can be found. -/
theorem succeeds_survivors (hs : s.Inside p.bytesOf p.capacity)
    (hroom : kind = .must → (s.map fun e => p.bytesOf e.address).sum ≤ p.capacity) :
    (p.survivors kind s a (p.bytesOf a)).Succeeds t := by
  rw [survivors]
  cases hhit : s.entry? a with
  | none =>
    refine (Analysis.succeeds_note _ _ _ t).bind fun _ _ => ?_
    exact Analysis.succeeds_collect fun e he => succeeds_shifted (hs e he).2.1 _
  | some hit =>
    refine (Analysis.succeeds_note _ _ _ t).bind fun _ _ => ?_
    refine Analysis.succeeds_collect fun e he => ?_
    obtain ⟨hes, hne⟩ := EntrySet.mem_without.1 he
    obtain rfl := EntrySet.entry?_address hhit
    exact succeeds_moved hs hroom hes (EntrySet.entry?_mem hhit) hne

/-- An access to a packed set succeeds, as long as the set can be written. -/
theorem succeeds_accessed (ht : t.Bears p.capacity) (hs : s.Inside p.bytesOf p.capacity)
    (hroom : kind = .must → (s.map fun e => p.bytesOf e.address).sum ≤ p.capacity)
    (ha : 0 < p.bytesOf a) (hfits : p.bytesOf a ≤ p.capacity) :
    (p.accessed kind s a (p.bytesOf a)).Succeeds t := by
  refine (succeeds_survivors hs hroom).bind fun kept hkept => ?_
  obtain ⟨rfl, -⟩ := survivors_eq_ok hkept
  have hinside : (s.reloaded p.bytesOf p.capacity (p.ageAfter kind s a) a).Inside
      p.bytesOf p.capacity :=
    EntrySet.inside_reloaded hs ha hfits
      fun e he => ageAfter_nonneg (fun e he => (hs e he).1) ha he
  have hpos := fun e he => (hinside e he).2.1
  refine (Analysis.succeeds_inDetail_iff.2 fun hk => ?_).bind_pure _
  refine (succeeds_reportSet (ht hk) kind hinside t).bind fun _ _ => ?_
  refine Analysis.Succeeds.bind ⟨_, occupied_of_pos hpos t⟩ fun used _ => ?_
  exact Analysis.succeeds_note _ _ _ t

/-! ### Accesses and joins -/

theorem refusal?_eq_none (h : p.refusal? a = none) :
    0 < p.bytesOf a ∧ (p.capacity < p.bytesOf a → p.geometry.ignoreOutsized = true) := by
  rw [refusal?] at h
  cases hf : p.functions.function? a with
  | none =>
    rw [hf] at h
    cases h
  | some f =>
    rw [hf] at h
    refine ⟨?_, fun hlarge => ?_⟩
    · rw [bytesOf, hf]
      exact roundUp_pos (roundUp_pos f.size_pos p.functions.blockSize_pos)
        p.geometry.blockSize_pos
    · simpa [hlarge] using h

/-- A function is refused because it is not registered or because it is too large. -/
theorem refusal?_cases {e : Fault} (h : p.refusal? a = some e) :
    (p.functions.function? a = none ∧ e = .unknownFunction a) ∨
      (0 < p.bytesOf a ∧ p.capacity < p.bytesOf a ∧ p.geometry.ignoreOutsized = false ∧
        e = .outsizedFunction a (p.bytesOf a) p.capacity) := by
  rw [refusal?] at h
  cases hf : p.functions.function? a with
  | none =>
    rw [hf] at h
    exact .inl ⟨rfl, (Option.some.inj h).symm⟩
  | some f =>
    rw [hf] at h
    dsimp only at h
    split at h
    · rename_i hcond
      have hcapacity : 0 < p.capacity := p.geometry.capacity_pos
      exact .inr ⟨by omega, hcond.1, hcond.2, (Option.some.inj h).symm⟩
    · cases h

/-- An access that is not refused succeeds in a packed state. -/
theorem succeeds_access {H : Set (List Int)} {s : State} (ht : t.Bears p.capacity)
    (hs : s.Packed (.scratchpad p) p.bytesOf p.capacity H) (ha : p.refusal? a = none) :
    (p.access s a).Succeeds t := by
  obtain ⟨hpos, hignored⟩ := refusal?_eq_none ha
  refine (Analysis.succeeds_note _ _ _ t).bind fun _ _ => ?_
  refine Analysis.Succeeds.bind ⟨_, room_of_pos hpos t⟩ fun size hsize => ?_
  obtain rfl := Except.ok.inj ((room_of_pos hpos t).symm.trans hsize)
  split
  · rename_i hlarge
    rw [outsized, if_pos (hignored hlarge)]
    exact (Analysis.succeeds_note _ _ _ t).bind fun _ _ => ⟨s, rfl⟩
  · rename_i hfits
    have hroom : (s.must.map fun e => p.bytesOf e.address).sum ≤ p.capacity := by
      rw [← EntrySet.bytesWithin_eq_sum hs.tidy.must]
      exact hs.bytesWithin_must_le p.bytesOf_nonneg (Int.le_of_lt p.geometry.capacity_pos)
    have hmust : (p.accessed .must s.must a (p.bytesOf a)).Succeeds t :=
      succeeds_accessed ht hs.tidy.must (fun _ => hroom) hpos (by omega)
    have hmay : (p.accessed .may s.may a (p.bytesOf a)).Succeeds t :=
      succeeds_accessed ht hs.tidy.may SetKind.noConfusion hpos (by omega)
    exact hmust.bind fun _ _ => hmay.bind fun _ _ => ⟨_, rfl⟩

/-- What is refused is refused in every state. -/
theorem result_access_of_refusal {e : Fault} (ha : p.refusal? a = some e) (s : State)
    (t : Threshold) : (p.access s a t).result = .error e.stated := by
  rw [access, Analysis.result_note_bind (by rfl), Analysis.result_bind]
  rcases refusal?_cases ha with ⟨hf, rfl⟩ | ⟨hpos, hlarge, hstrict, rfl⟩
  · -- The size is looked up before it is compared with the capacity.
    have hroom : (p.room a t).result = .error (Fault.unknownFunction a).stated := by
      rw [room, Analysis.result_bind, FunctionTable.roundedSize, Analysis.result_bind,
        FunctionTable.exactSize, hf]
      dsimp only
      rw [Analysis.result_note_bind (by rfl)]
      rfl
    rw [hroom]
    rfl
  · rw [room_of_pos hpos t]
    show ((if p.bytesOf a > p.capacity then p.outsized s a (p.bytesOf a) else _) t).result = _
    rw [if_pos hlarge, outsized, hstrict, if_neg Bool.false_ne_true, Analysis.result_bind,
      Analysis.result_note_journal]
    rfl

/-- An access that succeeds was not refused, whatever the journal keeps. -/
theorem refusal?_of_access {j : Journal} {s s' : State} (h : (p.access s a j).result = .ok s') :
    p.refusal? a = none := by
  cases ha : p.refusal? a with
  | none => rfl
  | some e =>
    obtain ⟨_, -, h⟩ := Analysis.result_bind_eq_ok.1 h
    obtain ⟨size, hsize, h⟩ := Analysis.result_bind_eq_ok.1 h
    obtain ⟨rfl, hpos⟩ := room_eq_ok hsize
    rcases refusal?_cases ha with ⟨hf, -⟩ | ⟨-, hlarge, hstrict, -⟩
    · rw [bytesOf, hf] at hpos
      exact absurd hpos (Int.lt_irrefl 0)
    · rw [if_pos hlarge, outsized, hstrict, if_neg Bool.false_ne_true] at h
      obtain ⟨_, -, h⟩ := Analysis.result_bind_eq_ok.1 h
      exact absurd h (Analysis.result_fail_ne_ok j)

/-- Tidy states can be joined, as long as their sets can be written. -/
theorem succeeds_joinTwo {s u : State} (ht : t.Bears p.capacity)
    (hs : s.Tidy p.bytesOf p.capacity) (hu : u.Tidy p.bytesOf p.capacity) :
    (p.joinTwo s u).Succeeds t := by
  obtain ⟨joined, hmerge⟩ := hs.exists_merge hu (s.capacityOr p.capacity)
  refine Analysis.Succeeds.bind ⟨joined, merge_eq_ok.2 hmerge⟩ fun joined' hjoined' => ?_
  obtain rfl := Except.ok.inj ((merge_eq_ok.2 hmerge).symm.trans hjoined')
  refine (Analysis.succeeds_inDetail_iff.2 fun hk => ?_).bind_pure _
  have hjoined := hs.join hu hmerge.1 hmerge.2.1
  refine (succeeds_reportSet (ht hk) .must hjoined.must t).bind fun _ _ => ?_
  exact succeeds_reportSet (ht hk) .may hjoined.may t

/-! ### What a refusal says -/

/-- Where the largest number can be written, a refusal is stated as it is. -/
theorem stated_refusal {e : Fault} (hw : isWritable p.largest = true)
    (ha : p.refusal? a = some e) : e.stated = e := by
  rcases refusal?_cases ha with ⟨-, rfl⟩ | ⟨hpos, -, -, rfl⟩
  · rfl
  · obtain ⟨hsize, hcapacity⟩ := isWritable_of_largest hw hpos
    apply Fault.stated_of_written
    simp [Fault.diagnostic, Diagnostic.outsizedFunction, Diagnostic.ofKind, hsize, hcapacity]

/-- A refusal is never the fault of the library itself. -/
theorem kind_of_refusal {e : Fault} (ha : p.refusal? a = some e) :
    e.stated.diagnostic.kind ≠ .invariant := by
  rcases e.stated_cases with h | h
  · rw [h]
    rcases refusal?_cases ha with ⟨-, rfl⟩ | ⟨-, -, -, rfl⟩
    · exact FaultKind.noConfusion
    · exact FaultKind.noConfusion
  · rw [h]
    exact FaultKind.noConfusion

end Scratchpad

end Residency
