/-
Residency/Proofs/Faults.lean

The faults of the transfer functions.  On derivable states of a policy that was selected for
a memory, joins never fail, accesses to a cache never fail, and accesses to a scratchpad fail
for what `Scratchpad.refusal?` says of the first address that it refuses
(`Policy.faults_of_derivable`).  In particular no derivation ever finds that an invariant of
its states is violated.

Long numbers limit this.  Where everything is on record, the sets are written out, so a memory
with a capacity that is too long to be written stops its operations; and a fault whose message
would hold such a number turns into the fault that says so.

`Policy.Sustains` says of a property of states what accesses and joins of such states do;
`Derivation.state_onlyRefuses` carries it along derivations once for all policies.
-/
import Residency.Policy.Selection
import Residency.Proofs.DirectMappedPaths
import Residency.Proofs.ScratchpadFaults

namespace Residency

open Text (isWritable)

variable {t : Journal}

/-! ### Policies that go on -/

namespace Policy

variable {p : Policy} {R : Set (List Int) → State → Prop}

/-- Why an access to the address is refused, if it is.  Caches refuse nothing. -/
def refusal? : Policy → Int → Option Fault
  | lruCache _, _ => none
  | directMapped _, _ => none
  | scratchpad p, address => p.refusal? address

/-- No message about an access holds a larger number. -/
def largest : Policy → Int
  | lruCache c => c.lines
  | directMapped c => c.lines
  | scratchpad p => p.largest

/-- The analysis fails only with the faults of refused accesses. -/
def OnlyRefuses {α : Type} (p : Policy) (t : Journal) (x : Analysis α) : Prop :=
  ∀ e, (x t).result = .error e → ∃ a refusal, p.refusal? a = some refusal ∧ e = refusal.stated

theorem OnlyRefuses.of_succeeds {α : Type} {x : Analysis α} (h : x.Succeeds t) :
    p.OnlyRefuses t x := by
  intro e he
  obtain ⟨a, ha⟩ := h
  rw [ha] at he
  cases he

/-- If both parts fail only with the faults of refused accesses, so does the whole. -/
theorem OnlyRefuses.bind {α β : Type} {x : Analysis α} {f : α → Analysis β}
    (hx : p.OnlyRefuses t x) (hf : ∀ a, (x t).result = .ok a → p.OnlyRefuses t (f a)) :
    p.OnlyRefuses t (x >>= f) := by
  intro e he
  cases h : (x t).result with
  | error e' =>
    rw [Analysis.result_bind_of_error h] at he
    obtain rfl := Except.error.inj he
    exact hx _ h
  | ok a => exact hf a h e ((Analysis.result_bind_of_ok h).symm.trans he)

/-- In states of the property an access does what `refusal?` says, and joins succeed. -/
structure Sustains (p : Policy) (t : Journal) (R : Set (List Int) → State → Prop) : Prop where
  goes {H : Set (List Int)} {s : State} {a : Int} (hs : R H s) (ha : p.refusal? a = none) :
    (p.access s a).Succeeds t
  stops {H : Set (List Int)} {s : State} {a : Int} {e : Fault} (hs : R H s)
    (ha : p.refusal? a = some e) : (p.access s a t).result = .error e.stated
  joins {H K : Set (List Int)} {s u : State} (hs : R H s) (hu : R K u) :
    (p.joinTwo s u).Succeeds t

/-- A walk goes through if no access is refused, and stops with the first refusal otherwise. -/
theorem Sustains.walk (hS : p.Sustains t R) (hR : p.Tracks t R) {H : Set (List Int)} {s : State}
    (hs : R H s) (addresses : List Int) :
    (addresses.findSome? p.refusal? = none → (p.walk s addresses).Succeeds t) ∧
    ∀ e, addresses.findSome? p.refusal? = some e →
      (p.walk s addresses t).result = .error e.stated := by
  induction addresses generalizing H s with
  | nil => exact ⟨fun _ => Analysis.succeeds_pure s t, fun e he => nomatch he⟩
  | cons a addresses ih =>
    rw [List.findSome?_cons]
    cases ha : p.refusal? a with
    | none =>
      -- The access goes through and leaves a state of the property, so the rest decides.
      obtain ⟨s', hs'⟩ := hS.goes hs ha
      obtain ⟨hgoes, hstops⟩ := ih (hR.access hs hs')
      constructor
      · intro hnone
        obtain ⟨s'', hs''⟩ := hgoes hnone
        exact ⟨s'', Analysis.result_follow_cons.2 ⟨s', hs', hs''⟩⟩
      · intro e he
        exact (Analysis.result_bind_of_ok hs').trans (hstops e he)
    | some e =>
      refine ⟨fun hnone => (nomatch hnone), fun e' he' => ?_⟩
      obtain rfl := Option.some.inj he'
      exact Analysis.result_bind_of_error (hS.stops hs ha)

/-- Two states or more can be joined. -/
theorem Sustains.join (hS : p.Sustains t R) (hR : p.Tracks t R) {ss : List State}
    (hlength : 2 ≤ ss.length) (hss : ∀ s ∈ ss, ∃ H, R H s) : (p.join ss).Succeeds t := by
  have hfollow : ∀ (us : List State) (H : Set (List Int)) (s : State), R H s →
      (∀ u ∈ us, ∃ K, R K u) → Analysis.Succeeds (Analysis.follow p.joinTwo s us) t := by
    intro us
    induction us with
    | nil =>
      intro H s _ _
      exact Analysis.succeeds_pure s t
    | cons u us ih =>
      intro H s hs hus
      obtain ⟨K, hu⟩ := hus u List.mem_cons_self
      refine (hS.joins hs hu).bind fun joined hjoined => ?_
      exact ih _ joined (hR.join hs hu hjoined) fun v hv => hus v (List.mem_cons_of_mem u hv)
  match ss, hlength, hss with
  | s :: u :: rest, _, hss =>
    obtain ⟨H, hs⟩ := hss s List.mem_cons_self
    obtain ⟨joined, hjoined⟩ := hfollow (u :: rest) H s hs
      fun v hv => hss v (List.mem_cons_of_mem s hv)
    exact ⟨joined, result_join.2 ⟨s, u, rest, rfl, hjoined⟩⟩

/-- A join of two states succeeds if the sets can be reported and the model can join them. -/
theorem succeeds_joinTwo {s u : State}
    (hs : t.admits .debug = true → ∀ kind, (p.setText (s.entries kind)).Succeeds t)
    (hu : t.admits .debug = true → ∀ kind, (p.setText (u.entries kind)).Succeeds t)
    (hmerge : (p.mergeTwo s u).Succeeds t) : (p.joinTwo s u).Succeeds t := by
  have hreport : t.admits .debug = true → ∀ kind, (p.reportJoin kind s u).Succeeds t :=
    fun hk kind => (hs hk kind).bind fun _ _ => (hu hk kind).bind fun _ _ =>
      ⟨(), Analysis.result_note _ _ _ t⟩
  refine (Analysis.succeeds_inDetail_iff.2 fun hk => ?_).bind fun _ _ => hmerge
  exact (hreport hk .must).bind fun _ _ => hreport hk .may

end Policy

/-! ### Derivations -/

namespace Derivation

variable {p : Policy} {R : Set (List Int) → State → Prop}

mutual

/-- A derivation fails only at an access that is refused. -/
theorem state_onlyRefuses (hS : p.Sustains t R) (hR : p.Tracks t R) :
    ∀ d : Derivation, p.OnlyRefuses t (d.state p)
  | blank => .of_succeeds ⟨_, state_blank.2 rfl⟩
  | access d a => by
    rw [state]
    refine (state_onlyRefuses hS hR d).bind fun s hs => ?_
    have hstate := tracked hR d hs
    cases ha : p.refusal? a with
    | none => exact .of_succeeds (hS.goes hstate ha)
    | some e =>
      intro e' he'
      exact ⟨a, e, ha, Except.error.inj (he'.symm.trans (hS.stops hstate ha))⟩
  | join d e rest => by
    rw [state]
    refine (state_onlyRefuses hS hR d).bind fun s hs => ?_
    refine (state_onlyRefuses hS hR e).bind fun u hu => ?_
    refine (statesOfAll_onlyRefuses hS hR rest).bind fun ss hss => .of_succeeds ?_
    -- All states of the derivations have the property, so their join succeeds.
    exact hS.join hR (by simp) (exists_tracked hR (.cons hs (.cons hu (states_iff.1 hss))))

theorem statesOfAll_onlyRefuses (hS : p.Sustains t R) (hR : p.Tracks t R) :
    ∀ ds : List Derivation, p.OnlyRefuses t (statesOfAll p ds)
  | [] => .of_succeeds ⟨[], rfl⟩
  | d :: ds => by
    rw [statesOfAll]
    refine (state_onlyRefuses hS hR d).bind fun s _ => ?_
    refine (statesOfAll_onlyRefuses hS hR ds).bind fun ss _ => ?_
    exact .of_succeeds (Analysis.succeeds_pure _ t)

end

end Derivation

/-! ### Fully associative caches -/

section

variable {t : Threshold}

namespace LruCache

variable {c : LruCache} {kind : SetKind} {s : EntrySet} {a : Int}

/-- The text of a set can be written where the number of lines can, since ages are smaller. -/
theorem written_text (hw : isWritable c.lines = true) (hs : s.Inside (fun _ => 1) c.lines) :
    s.text.Written := by
  refine EntrySet.written_text.2 fun e he => Entry.written_text.2 ?_
  obtain ⟨hage, -, hend⟩ := hs e he
  exact Text.isWritable_of_le hage (by dsimp only at hend; omega) hw

theorem succeeds_reportSet (ht : t.Bears c.lines) (kind : SetKind)
    (hs : s.Inside (fun _ => 1) c.lines) : (reportSet kind s).Succeeds t :=
  Analysis.succeeds_noteInDetail_iff.2 fun hk => written_text (ht hk) hs

/-- The records of an access can be made. -/
theorem succeeds_reportAccess (ht : t.Bears c.lines)
    (hnext : (c.accessed kind s a).Inside (fun _ => 1) c.lines) :
    (c.reportAccess kind s a).Succeeds t := by
  refine (Analysis.succeeds_forM fun e _ => ?_).bind fun _ _ => succeeds_reportSet ht kind hnext
  exact Analysis.succeeds_note _ _ _ t

/-- In a cache no access and no join fails, as long as its sets can be written. -/
theorem sustains_packed (hc : 1 ≤ c.lines) (ht : t.Bears c.lines) :
    (Policy.lruCache c).Sustains t (State.Packed (.lruCache c) (fun _ => 1) c.lines) where
  goes := by
    intro H s a hs _
    have hnext := tidy_step hc hs.tidy a
    refine (succeeds_reportAccess ht hnext.must).bind fun _ _ => ?_
    refine (succeeds_reportAccess ht hnext.may).bind fun _ _ => ?_
    exact ⟨_, rfl⟩
  stops := fun _ ha => nomatch ha
  joins := by
    intro H K s u hs hu
    have htext : ∀ x : State, x.Tidy (fun _ => 1) c.lines → t.journal.admits .debug = true →
        ∀ kind, ((Policy.lruCache c).setText (x.entries kind)).Succeeds t := fun x hx hk kind =>
      Analysis.succeeds_write_iff.2 (written_text (ht hk) (hx.inside kind))
    refine Policy.succeeds_joinTwo (htext s hs.tidy) (htext u hu.tidy) ?_
    obtain ⟨joined, hmerge⟩ := hs.tidy.exists_merge hu.tidy (s.capacityOr c.lines)
    refine Analysis.Succeeds.bind ⟨joined, merge_eq_ok.2 hmerge⟩ fun joined' hjoined' => ?_
    obtain rfl := Except.ok.inj ((merge_eq_ok.2 hmerge).symm.trans hjoined')
    have hjoined := hs.tidy.join hu.tidy hmerge.1 hmerge.2.1
    refine (succeeds_reportSet ht .must hjoined.must).bind fun _ _ => ?_
    exact (succeeds_reportSet ht .may hjoined.may).bind_pure _

end LruCache

/-! ### Direct-mapped caches -/

namespace DirectMapped

variable {c : DirectMapped} {s : EntrySet} {a : Int}

theorem Exact.inSlots {H : Set (List Int)} {s : State} (hs : c.Exact H s) :
    ∀ kind, c.InSlots (s.entries kind)
  | .must => hs.mustSlots
  | .may => hs.maySlots

theorem written_text (hc : 0 < c.lines) (hw : isWritable c.lines = true) (hs : c.InSlots s) :
    s.text.Written := by
  refine EntrySet.written_text.2 fun e he => Entry.written_text.2 ?_
  rw [hs e he]
  exact Text.isWritable_of_le (Int.fmod_nonneg_of_pos _ hc)
    (Int.le_of_lt (Int.fmod_lt_of_pos _ hc)) hw

theorem succeeds_reportSet (hc : 0 < c.lines) (ht : t.Bears c.lines) (kind : SetKind)
    (hs : c.InSlots s) : (reportSet kind s).Succeeds t :=
  Analysis.succeeds_noteInDetail_iff.2 fun hk => written_text hc (ht hk) hs

theorem succeeds_reportAccess (c : DirectMapped) (s : EntrySet) (a : Int) (t : Threshold) :
    (c.reportAccess s a).Succeeds t := by
  rw [reportAccess]
  split
  · exact Analysis.succeeds_pure () t
  · exact Analysis.succeeds_note _ _ _ t

/-- In a direct-mapped cache no access and no join fails, as long as its sets can be written. -/
theorem sustains_exact (hc : 0 < c.lines) (hbits : 0 ≤ c.lineBits) (ht : t.Bears c.lines) :
    (Policy.directMapped c).Sustains t c.Exact where
  goes := by
    intro H s a _ _
    have hslots : c.requireSlots = .ok () := by rw [requireSlots, if_neg (Int.not_lt.2 hbits)]
    refine Analysis.Succeeds.bind ⟨(), hslots⟩ fun _ _ => ?_
    refine (c.succeeds_reportAccess s.must a t).bind fun _ _ => ?_
    refine (c.succeeds_reportAccess s.may a t).bind fun _ _ => ?_
    exact ⟨_, rfl⟩
  stops := fun _ ha => nomatch ha
  joins := by
    intro H K s u hs hu
    have htext : ∀ x : State, (∀ kind, c.InSlots (x.entries kind)) →
        t.journal.admits .debug = true →
        ∀ kind, ((Policy.directMapped c).setText (x.entries kind)).Succeeds t := fun x hx hk kind =>
      Analysis.succeeds_write_iff.2 (written_text hc (ht hk) (hx kind))
    refine Policy.succeeds_joinTwo (htext s hs.inSlots) (htext u hu.inSlots) ?_
    have hslots : c.requireSlots = .ok () := by rw [requireSlots, if_neg (Int.not_lt.2 hbits)]
    have hreport : Analysis.Succeeds (do
        reportSet .must (c.merge s u).must
        reportSet .may (c.merge s u).may
        return c.merge s u) t := by
      refine (succeeds_reportSet hc ht .must (inSlots_merge_must s u)).bind fun _ _ => ?_
      exact (succeeds_reportSet hc ht .may (inSlots_merge_may s u)).bind_pure _
    show (c.joinTwo s u).Succeeds t
    rw [joinTwo]
    split
    · exact Analysis.Succeeds.bind ⟨(), hslots⟩ fun _ _ => hreport
    · exact hreport

end DirectMapped

/-! ### Scratchpads -/

/-- In a scratchpad accesses fail by refusal only and joins do not fail, as long as its sets can be
written. -/
theorem Scratchpad.sustains_packed {p : Scratchpad} (ht : t.Bears p.capacity) :
    (Policy.scratchpad p).Sustains t (State.Packed (.scratchpad p) p.bytesOf p.capacity) where
  goes := fun hs ha => succeeds_access ht hs ha
  stops := fun {_ s _ _} _ ha => result_access_of_refusal ha s t
  joins := by
    intro H K s u hs hu
    have htext : ∀ x : State, x.Tidy p.bytesOf p.capacity → t.journal.admits .debug = true →
        ∀ kind, ((Policy.scratchpad p).setText (x.entries kind)).Succeeds t :=
      fun x hx hk kind => succeeds_setText (ht hk) (hx.inside kind) t
    exact Policy.succeeds_joinTwo (htext s hs.tidy) (htext u hu.tidy)
      (succeeds_joinTwo ht hs.tidy hu.tidy)

end

/-! ### Selected policies -/

namespace Policy

variable {p : Policy} {source : MemorySource} {functions : Option FunctionTable}

/-- The numbers of the memory make sense. -/
def WellFormed : Policy → Prop
  | lruCache c => 1 ≤ c.lines
  | directMapped c => 0 < c.lines ∧ 0 ≤ c.lineBits
  | scratchpad _ => True

/-- A policy for a checked cache is well formed. -/
theorem wellFormed_of_ofCache {g : CacheGeometry} (h : ofCache g = .ok p) : p.WellFormed := by
  have hlines := g.lines_pos
  rw [ofCache] at h
  split at h
  · rw [LruCache.make, if_neg (by omega)] at h
    obtain rfl := Except.ok.inj h
    exact hlines
  · rw [DirectMapped.make, if_neg (by omega)] at h
    obtain rfl := Except.ok.inj h
    exact ⟨hlines, Int.natCast_nonneg g.lineBits⟩
  · cases h

/-- A policy for a checked scratchpad is well formed. -/
theorem wellFormed_of_ofScratchpad {g : ScratchpadGeometry}
    (h : ofScratchpad g functions = .ok p) : p.WellFormed := by
  unfold ofScratchpad at h
  split at h
  · obtain rfl := Except.ok.inj h
    trivial
  · cases h
  · cases h

/-- So is every policy that can be selected. -/
theorem wellFormed_of_select (h : (select source functions t).result = .ok p) :
    p.WellFormed := by
  obtain ⟨q, hq, h⟩ := Analysis.result_bind_eq_ok.1 h
  obtain rfl := Analysis.eq_of_result_bind_pure h
  cases source with
  | settings s =>
    cases hm : s.memory with
    | cache =>
      rw [ofSource, ofSettings, hm] at hq
      obtain ⟨g, -, hq⟩ := Analysis.result_bind_eq_ok.1 hq
      exact wellFormed_of_ofCache hq
    | scratchpad =>
      rw [ofSource, ofSettings, hm] at hq
      obtain ⟨g, -, hq⟩ := Analysis.result_bind_eq_ok.1 hq
      exact wellFormed_of_ofScratchpad hq
  | cache g => exact wellFormed_of_ofCache hq
  | scratchpad g => exact wellFormed_of_ofScratchpad hq
  | foreign d => exact absurd hq (Analysis.result_fail_ne_ok t)

/-- For every well-formed policy there is a property of its derived states in which accesses and
joins do as they should. -/
theorem exists_sustained {t : Threshold} (hp : p.WellFormed) (ht : t.Bears p.capacity) :
    ∃ R : Set (List Int) → State → Prop, (∀ t', p.Tracks t' R) ∧ p.Sustains t R := by
  cases p with
  | lruCache c => exact ⟨_, LruCache.tracks_packed hp, LruCache.sustains_packed hp ht⟩
  | directMapped c => exact ⟨_, c.tracks_exact, DirectMapped.sustains_exact hp.1 hp.2 ht⟩
  | scratchpad p => exact ⟨_, p.tracks_packed, Scratchpad.sustains_packed ht⟩

/-- Where all numbers can be written, a refusal is stated as it is. -/
theorem stated_refusal {a : Int} {e : Fault} (hw : isWritable p.largest = true)
    (ha : p.refusal? a = some e) : e.stated = e := by
  cases p with
  | lruCache => cases ha
  | directMapped => cases ha
  | scratchpad p => exact Scratchpad.stated_refusal hw ha

/-- A refusal is never the fault of the library itself. -/
theorem kind_of_refusal {a : Int} {e : Fault} (ha : p.refusal? a = some e) :
    e.stated.diagnostic.kind ≠ .invariant := by
  cases p with
  | lruCache => cases ha
  | directMapped => cases ha
  | scratchpad p => exact Scratchpad.kind_of_refusal ha

/-- **Faults of derivable states.**  With a selected policy, whose capacity can be written or
whose sets are not, joins of derivable states succeed, accesses to a cache succeed, and accesses
to a scratchpad succeed until the first one that is refused, whose fault they end with if its
message can be written.  No derivation ends with a violated invariant. -/
theorem faults_of_derivable (source : MemorySource) (functions : Option FunctionTable)
    (t₀ : Journal) (p : Policy) (hp : (select source functions t₀).result = .ok p)
    (t : Threshold) (ht : t.Bears p.capacity) :
    (∀ ss : List State, 2 ≤ ss.length → (∀ s ∈ ss, p.Derivable s) →
      ∃ s', (p.join ss t).result = .ok s') ∧
    (∀ s addresses, p.Derivable s →
      ((∀ q, p ≠ scratchpad q) → ∃ s', (p.walk s addresses t).result = .ok s') ∧
      (addresses.findSome? p.refusal? = none → ∃ s', (p.walk s addresses t).result = .ok s') ∧
      ∀ e, addresses.findSome? p.refusal? = some e →
        (p.walk s addresses t).result = .error e.stated ∧
          (isWritable p.largest = true → e.stated = e)) ∧
    ∀ (d : Derivation) (e : Fault), (d.state p t).result = .error e →
      e.diagnostic.kind ≠ .invariant := by
  obtain ⟨R, hR, hS⟩ := exists_sustained (wellFormed_of_select hp) ht
  have hderivable : ∀ s, p.Derivable s → ∃ H, R H s := by
    rintro s ⟨d, t', hd⟩
    exact ⟨_, d.tracked (hR t') hd⟩
  refine ⟨fun ss hlength hss => ?_, fun s addresses hs => ?_, fun d e he => ?_⟩
  · exact hS.join (hR t) hlength fun s hs => hderivable s (hss s hs)
  · obtain ⟨H, hs⟩ := hderivable s hs
    obtain ⟨hgoes, hstops⟩ := hS.walk (hR t) hs addresses
    refine ⟨fun hcache => hgoes ?_, hgoes, fun e he => ⟨hstops e he, fun hw => ?_⟩⟩
    · cases p with
      | lruCache => exact List.findSome?_eq_none_iff.2 fun _ _ => rfl
      | directMapped => exact List.findSome?_eq_none_iff.2 fun _ _ => rfl
      | scratchpad q => exact absurd rfl (hcache q)
    · obtain ⟨a, -, ha⟩ := List.exists_of_findSome?_eq_some he
      exact stated_refusal hw ha
  · obtain ⟨a, refusal, ha, rfl⟩ := d.state_onlyRefuses hS (hR t) e he
    exact kind_of_refusal ha

end Policy

/-- A scratchpad that does not ignore functions for which it is too small, and such a function. -/
def Scratchpad.strict : Scratchpad where
  geometry := { Scratchpad.mixedSizes.geometry with ignoreOutsized := false }
  functions := Scratchpad.mixedSizes.functions.insert ⟨4, 40, none, by decide⟩

-- After a join that lost the order of the functions, with everything on record.
theorem Policy.faults_of_strict_scratchpad :
    let p : Policy := .scratchpad .strict
    let s : State := ⟨[⟨2, 0⟩, ⟨3, 12⟩, ⟨1, 16⟩], [⟨2, 0⟩, ⟨1, 4⟩, ⟨3, 4⟩], 32⟩
    let t : Threshold := some .debug
    (Policy.select (.scratchpad Scratchpad.strict.geometry) (some Scratchpad.strict.functions)
      none).result = .ok p ∧ p.Derivable s ∧ t.Bears p.capacity ∧
    (∃ s', (p.join [s, s] t).result = .ok s') ∧
    (∃ s', (p.walk s [3, 1, 2] t).result = .ok s') ∧
    (p.walk s [3, 4, 9] t).result = .error (.outsizedFunction 4 40 32) ∧
    (p.walk s [2, 9, 4] t).result = .error (.unknownFunction 9) := by
  intro p s t
  have hselect : (Policy.select (.scratchpad Scratchpad.strict.geometry)
      (some Scratchpad.strict.functions) none).result = .ok p := rfl
  have hs : p.Derivable s :=
    ⟨.access (.join (.access (.access (.access .blank 1) 2) 3)
      (.access (.access (.access .blank 3) 2) 1) []) 2, none, by cbv⟩
  have hw : isWritable p.capacity = true := by decide
  obtain ⟨hjoin, hwalk, -⟩ := faults_of_derivable _ _ none p hselect t fun _ => hw
  refine ⟨hselect, hs, fun _ => hw, hjoin [s, s] (by decide) (by simpa using hs), ?_, ?_, ?_⟩
  · exact (hwalk s [3, 1, 2] hs).2.1 (by decide)
  · exact ((hwalk s [3, 4, 9] hs).2.2 _ (by rfl)).1
  · exact ((hwalk s [2, 9, 4] hs).2.2 _ (by rfl)).1

end Residency
