/-
Residency/Proofs/Silence.lean

Analyses that do the same whatever the journal keeps.  An analysis is silent at a journal if
its result and its usage are those of a run that keeps no records (`Analysis.Silent`).  A record
by itself is silent at every threshold, also if it cannot be worded.  What could break silence is
the detail that is prepared where everything is kept.  A set with an age that is too long cannot
be written out, and this stops the analysis: it is a lapse, and `Analysis.Steady` says that
nothing else happens.  And to write out a set of a scratchpad, the sizes of its functions are
looked up, which would stop the analysis if an entry had no function; but every entry of a tidy
state has one.

`Analysis.Keeps` adds a property of the value and is closed under composition, so `Policy.Quiet`,
which speaks of a single access, a join of two and the report of a set, carries over to
sequences, joins of many and verdicts.  Every policy is quiet up to lapses, and there are none if
its capacity can be written (`Policy.exists_quiet`), because no number in a set is larger.
-/
import Residency.Proofs.Faults
import Residency.Proofs.Joins
import Residency.Verdict

namespace Residency

open Text (isWritable)

/-! ### Analyses -/

namespace Analysis

variable {α β : Type} {lapse : Prop} {t : Journal} {P : α → Prop} {Q : β → Prop}

/-- The result and the usage are those of a run that keeps no records. -/
structure Silent (x : Analysis α) (t : Journal) : Prop where
  result : (x t).result = (x none).result
  usage : (x t).usage = (x none).usage

/-- The analysis is silent or, where lapses can occur, stops at a number that is too long. -/
def Steady (lapse : Prop) (x : Analysis α) (t : Journal) : Prop :=
  x.Silent t ∨ lapse ∧ (x t).result = .error .unwritableNumber

/-- The analysis is steady, and without records it yields only values of the property. -/
structure Keeps (lapse : Prop) (P : α → Prop) (x : Analysis α) (t : Journal) : Prop where
  steady : x.Steady lapse t
  value : ∀ a, (x none).result = .ok a → P a

/-- A report: it succeeds and counts nothing or, where lapses can occur, stops at a number that
is too long. -/
def Harmless (lapse : Prop) (x : Analysis α) (t : Journal) : Prop :=
  (x.Succeeds t ∧ (x t).usage = Usage.zero) ∨ lapse ∧ (x t).result = .error .unwritableNumber

/-- Without lapses to be steady is to be silent. -/
theorem steady_false_iff {x : Analysis α} : x.Steady False t ↔ x.Silent t := by
  rw [Steady, false_and, or_false]

theorem silent_pure (a : α) (t : Journal) : Silent (pure a) t := ⟨rfl, rfl⟩

theorem silent_fail (e : Fault) (t : Journal) : (fail e : Analysis α).Silent t := ⟨rfl, rfl⟩

theorem silent_ofExcept (r : Except Fault α) (t : Journal) : (ofExcept r).Silent t := ⟨rfl, rfl⟩

theorem silent_count (u : Usage) (t : Journal) : (count u).Silent t := ⟨rfl, rfl⟩

/-- If both parts are silent, so is the whole. -/
theorem Silent.bind {x : Analysis α} {f : α → Analysis β} (hx : x.Silent t)
    (hf : ∀ a, (x none).result = .ok a → (f a).Silent t) : (x >>= f).Silent t := by
  cases h : (x none).result with
  | error e =>
    have ht := hx.result.trans h
    constructor
    · rw [bind_error ht, bind_error h]
    · rw [bind_error ht, bind_error h]
      exact hx.usage
  | ok a =>
    have ht := hx.result.trans h
    constructor
    · rw [bind_ok ht, bind_ok h]
      exact (hf a h).result
    · rw [bind_ok ht, bind_ok h, hx.usage, (hf a h).usage]

/-- Both runs of a silent analysis have one result, so what comes next decides. -/
theorem Silent.bind_or {x : Analysis α} {f : α → Analysis β} {P : Except Fault β → Prop}
    (hx : x.Silent t)
    (hf : ∀ a, (x none).result = .ok a → (f a).Silent t ∨ P (f a t).result) :
    (x >>= f).Silent t ∨ P ((x >>= f) t).result := by
  by_cases hall : ∀ a, (x none).result = .ok a → (f a).Silent t
  · exact .inl (hx.bind hall)
  · push Not at hall
    obtain ⟨a, ha, hfa⟩ := hall
    rw [result_bind_of_ok (hx.result.trans ha)]
    exact .inr ((hf a ha).resolve_left hfa)

/-- If both parts are steady, so is the whole. -/
theorem Steady.bind {x : Analysis α} {f : α → Analysis β} (hx : x.Steady lapse t)
    (hf : ∀ a, (x none).result = .ok a → (f a).Steady lapse t) : (x >>= f).Steady lapse t := by
  rcases hx with hx | ⟨hlapse, hx⟩
  · exact hx.bind_or (P := fun r => lapse ∧ r = .error .unwritableNumber) hf
  · exact .inr ⟨hlapse, result_bind_of_error hx⟩

theorem Steady.bind_pure {x : Analysis α} (hx : x.Steady lapse t) (f : α → β) :
    Steady lapse (x >>= fun a => pure (f a)) t :=
  hx.bind fun _ _ => .inl (silent_pure _ t)

theorem keeps_pure {a : α} (h : P a) : Keeps lapse P (pure a) t where
  steady := .inl (silent_pure a t)
  value := fun _ ha => Except.ok.inj ha ▸ h

/-- If the first part keeps the property, the second part may rely on it. -/
theorem Keeps.bind {x : Analysis α} {f : α → Analysis β} (hx : x.Keeps lapse P t)
    (hf : ∀ a, P a → (f a).Keeps lapse Q t) : (x >>= f).Keeps lapse Q t where
  steady := hx.steady.bind fun a ha => (hf a (hx.value a ha)).steady
  value := by
    intro b hb
    obtain ⟨a, ha, hb⟩ := result_bind_eq_ok.1 hb
    exact (hf a (hx.value a ha)).value b hb

/-- What is steady may go before, whatever it yields. -/
theorem Steady.bind_keeps {x : Analysis α} {f : α → Analysis β} (hx : x.Steady lapse t)
    (hf : ∀ a, (f a).Keeps lapse Q t) : (x >>= f).Keeps lapse Q t :=
  Keeps.bind (P := fun _ => True) ⟨hx, fun _ _ => trivial⟩ fun a _ => hf a

theorem keeps_fail (e : Fault) : Keeps lapse P (fail e) t where
  steady := .inl (silent_fail e t)
  value := fun _ h => absurd h (result_fail_ne_ok none)

/-- To count a state and return it keeps what holds of the state. -/
theorem keeps_count {u : Usage} {a : α} (h : P a) :
    Keeps lapse P (count u >>= fun _ => pure a) t :=
  Steady.bind_keeps (.inl (silent_count u t)) fun _ => keeps_pure h

/-- A property that each member of a list keeps is kept along the list. -/
theorem keeps_follow {f : β → α → Analysis β} {as : List α}
    (hf : ∀ b, Q b → ∀ a ∈ as, (f b a).Keeps lapse Q t) {b : β} (hb : Q b) :
    (follow f b as).Keeps lapse Q t := by
  induction as generalizing b with
  | nil => exact keeps_pure hb
  | cons a as ih =>
    refine (hf b hb a List.mem_cons_self).bind fun b' hb' => ?_
    exact ih (fun b hb c hc => hf b hb c (List.mem_cons_of_mem a hc)) hb'

/-- A collection is steady if all its members are. -/
theorem steady_collect {f : α → Analysis (Option β)} {l : List α}
    (h : ∀ a ∈ l, (f a).Steady lapse t) : (collect f l).Steady lapse t := by
  induction l with
  | nil => exact .inl (silent_pure [] t)
  | cons a l ih =>
    refine (h a List.mem_cons_self).bind fun b _ => ?_
    exact (ih fun c hc => h c (List.mem_cons_of_mem a hc)).bind_pure _

theorem silent_collect {f : α → Analysis (Option β)} {l : List α}
    (h : ∀ a ∈ l, (f a).Silent t) : (collect f l).Silent t :=
  steady_false_iff.1 (steady_collect fun a ha => steady_false_iff.2 (h a ha))

theorem silent_forM {f : α → Analysis Unit} {l : List α} (h : ∀ a ∈ l, (f a).Silent t) :
    Silent (l.forM f) t := by
  induction l with
  | nil => exact silent_pure _ t
  | cons a l ih =>
    show Silent (f a >>= fun _ => l.forM f) t
    exact (h a List.mem_cons_self).bind fun _ _ => ih fun c hc => h c (List.mem_cons_of_mem a hc)

/-! ### Reports -/

theorem harmless_pure (a : α) : Harmless lapse (pure a) t :=
  .inl ⟨succeeds_pure a t, rfl⟩

/-- If both parts do no harm, neither does the whole. -/
theorem Harmless.bind {x : Analysis α} {f : α → Analysis β} (hx : x.Harmless lapse t)
    (hf : ∀ a, (x t).result = .ok a → (f a).Harmless lapse t) : (x >>= f).Harmless lapse t := by
  rcases hx with ⟨⟨a, ha⟩, husage⟩ | ⟨hlapse, hx⟩
  · rcases hf a ha with ⟨⟨b, hb⟩, husage'⟩ | ⟨hlapse, hfa⟩
    · refine .inl ⟨⟨b, (result_bind_of_ok ha).trans hb⟩, ?_⟩
      rw [bind_ok ha, husage, husage', Usage.zero_add]
    · exact .inr ⟨hlapse, (result_bind_of_ok ha).trans hfa⟩
  · exact .inr ⟨hlapse, result_bind_of_error hx⟩

/-- A collection does no harm if its members do none. -/
theorem harmless_collect {f : α → Analysis (Option β)} {l : List α}
    (h : ∀ a ∈ l, (f a).Harmless lapse t) : (collect f l).Harmless lapse t := by
  induction l with
  | nil => exact harmless_pure []
  | cons a l ih =>
    refine (h a List.mem_cons_self).bind fun b _ => ?_
    exact (ih fun c hc => h c (List.mem_cons_of_mem a hc)).bind fun _ _ => harmless_pure _

/-- Following a list does no harm if its members do none. -/
theorem harmless_follow {f : β → α → Analysis β} {as : List α} {b : β}
    (h : ∀ b, ∀ a ∈ as, (f b a).Harmless lapse t) : (follow f b as).Harmless lapse t := by
  induction as generalizing b with
  | nil => exact harmless_pure b
  | cons a as ih =>
    refine (h b a List.mem_cons_self).bind fun b' _ => ?_
    exact ih fun b c hc => h b c (List.mem_cons_of_mem a hc)

/-- Writing does no harm, except for numbers that are too long. -/
theorem harmless_write {m : Text.Phrase} (h : ¬lapse → m.Written) : (write m).Harmless lapse t := by
  rw [Text.Phrase.Written] at h
  rw [write]
  cases htext : m.text? with
  | some text => exact harmless_pure text
  | none =>
    rw [htext] at h
    exact .inr ⟨not_not.1 fun hlapse => Bool.false_ne_true (h hlapse), rfl⟩

/-- Under a threshold a record does no harm. -/
theorem harmless_note (l : Level) (c : Component) (m : Text.Phrase) (t : Threshold) :
    (note l c m).Harmless lapse t :=
  .inl ⟨succeeds_note l c m t, usage_note l c m t⟩

/-- Under a threshold a record is silent, whether it can be worded or not. -/
theorem silent_note (l : Level) (c : Component) (m : Text.Phrase) (t : Threshold) :
    (note l c m).Silent t :=
  ⟨result_note_journal l c m t, usage_note l c m t⟩

/-- A record before whatever comes next. -/
theorem keeps_note_bind (l : Level) (c : Component) (m : Text.Phrase) {t : Threshold}
    {f : Unit → Analysis β} (hf : ∀ u, (f u).Keeps lapse Q t) :
    (note l c m >>= f).Keeps lapse Q t :=
  Steady.bind_keeps (.inl (silent_note l c m t)) hf

/-- What is done only for the journal is steady if it is harmless. -/
theorem steady_inDetail {x : Analysis Unit} (h : t.admits .debug = true → x.Harmless lapse t) :
    (inDetail x).Steady lapse t := by
  by_cases hl : t.admits .debug = true
  · have hx : inDetail x t = x t := if_pos hl
    rcases h hl with ⟨⟨u, hu⟩, husage⟩ | ⟨hlapse, hstop⟩
    · exact .inl ⟨by rw [hx, hu]; rfl, by rw [hx, husage]; rfl⟩
    · exact .inr ⟨hlapse, by rw [hx, hstop]⟩
  · exact .inl ⟨congrArg Outcome.result (if_neg hl), congrArg Outcome.usage (if_neg hl)⟩

/-- A record with a costly text is steady if the text can be written, but for lapses. -/
theorem steady_noteInDetail {t : Threshold} {detail : Text.Phrase} (c : Component)
    (message : String) (h : t.journal.admits .debug = true → ¬lapse → detail.Written) :
    (noteInDetail c message detail).Steady lapse t :=
  steady_inDetail fun ht => (harmless_write (h ht)).bind fun _ _ => harmless_note _ _ _ t

end Analysis

/-! ### Joins -/

namespace Policy

variable {p : Policy} {lapse : Prop} {t : Threshold} {G : State → Prop}

/-- In states of the property the journal has no influence but lapses. -/
structure Quiet (p : Policy) (lapse : Prop) (t : Threshold) (G : State → Prop) : Prop where
  blank : G (State.blank p.capacity)
  access {s : State} (hs : G s) (a : Int) : (p.access s a).Keeps lapse G t
  join {s u : State} (hs : G s) (hu : G u) : (p.joinTwo s u).Keeps lapse G t
  report {s : State} (hs : G s) (ht : t.journal.admits .debug = true) (kind : SetKind) :
    (p.setText (s.entries kind)).Harmless lapse t

/-- A join is steady if the sets can be reported and the model of the memory is steady. -/
theorem steady_joinTwo {s u : State}
    (hs : t.journal.admits .debug = true →
      ∀ kind, (p.setText (s.entries kind)).Harmless lapse t)
    (hu : t.journal.admits .debug = true →
      ∀ kind, (p.setText (u.entries kind)).Harmless lapse t)
    (hmerge : (p.mergeTwo s u).Steady lapse t) : (p.joinTwo s u).Steady lapse t := by
  have hreport : t.journal.admits .debug = true →
      ∀ kind, (p.reportJoin kind s u).Harmless lapse t := by
    intro ht kind
    refine (hs ht kind).bind fun _ _ => ?_
    exact (hu ht kind).bind fun _ _ => Analysis.harmless_note _ _ _ t
  refine (Analysis.steady_inDetail fun ht => ?_).bind fun _ _ => hmerge
  exact (hreport ht .must).bind fun _ _ => hreport ht .may

end Policy

/-! ### Caches -/

section

variable {lapse : Prop} {t : Threshold}

/-- The ages in the set can be written where they are, if lapses do not occur. -/
def EntrySet.Legible (lapse : Prop) (t : Threshold) (s : EntrySet) : Prop :=
  ¬lapse → ∀ e ∈ s, t.Bears e.age

theorem EntrySet.Legible.written {s : EntrySet} (hs : s.Legible lapse t)
    (ht : t.journal.admits .debug = true) (h : ¬lapse) : s.text.Written :=
  EntrySet.written_text.2 fun e he => Entry.written_text.2 (hs h e he ht)

/-- The text of a legible set can be written without harm. -/
theorem EntrySet.Legible.harmless {s : EntrySet} (hs : s.Legible lapse t)
    (ht : t.journal.admits .debug = true) : (Analysis.write s.text).Harmless lapse t :=
  Analysis.harmless_write (hs.written ht)

/-- A number can be written if a larger one can. -/
theorem Text.isWritable_of_natAbs_le {m n : Int} (h : m.natAbs ≤ n.natAbs)
    (hn : isWritable n = true) : isWritable m = true := by
  rw [isWritable, decide_eq_true_eq] at hn ⊢
  rw [Nat.length_toDigits_le_iff (by decide) (by decide)] at hn ⊢
  omega

end

namespace LruCache

variable {c : LruCache} {lapse : Prop} {t : Threshold} {kind : SetKind} {s : EntrySet}

/-- The ages in the set are not negative and can be written. -/
structure Spoken (lapse : Prop) (t : Threshold) (s : EntrySet) : Prop where
  nonneg : ∀ e ∈ s, 0 ≤ e.age
  legible : s.Legible lapse t

theorem spoken_nil (lapse : Prop) (t : Threshold) : Spoken lapse t [] where
  nonneg := fun _ he => nomatch he
  legible := fun _ _ he => nomatch he

/-- An access to a set that can be spoken of leaves such a set. -/
theorem spoken_accessed (hc : ¬lapse → t.Bears c.lines) (hs : Spoken lapse t s)
    (kind : SetKind) (a : Int) : Spoken lapse t (c.accessed kind s a) := by
  have hage : ∀ f ∈ s, 0 ≤ ageAfter kind s a f := fun f hf => ageAfter_nonneg hs.nonneg a hf
  rw [accessed_eq_reloaded]
  constructor
  · intro e he
    rcases EntrySet.mem_reloaded.1 he with rfl | ⟨f, hf, -, -, rfl⟩
    · exact Int.le_refl 0
    · exact hage f hf
  · intro h e he
    rcases EntrySet.mem_reloaded.1 he with rfl | ⟨f, hf, -, hfits, rfl⟩
    · intro _
      show isWritable 0 = true
      decide
    · -- An entry that stays is below the number of lines.
      have hlt : ageAfter kind s a f + 1 ≤ c.lines := hfits
      exact (hc h).mono (hage f hf) (Int.le_of_lt hlt)

/-- So does a merge. -/
theorem spoken_merge {s u joined : State} (hs : ∀ kind, Spoken lapse t (s.entries kind))
    (hu : ∀ kind, Spoken lapse t (u.entries kind)) (h : c.merge s u = .ok joined) (kind : SetKind) :
    Spoken lapse t (joined.entries kind) := by
  have hmem : ∀ e ∈ joined.entries kind, e ∈ s.entries kind ∨ e ∈ u.entries kind := by
    intro e he
    obtain ⟨hmust, hmay, -⟩ := merge_eq_ok.1 h
    have hjoined : e ∈ EntrySet.joined kind (s.entries kind) (u.entries kind) := by
      cases kind with
      | must =>
        rw [State.entries, (EntrySet.joinMust_eq_ok.1 hmust).2, EntrySet.mem_sorted] at he
        exact he
      | may =>
        rw [State.entries, (EntrySet.joinMay_eq_ok.1 hmay).2.2, EntrySet.mem_sorted] at he
        exact he
    exact EntrySet.mem_or_mem_of_mem_joined hjoined
  constructor
  · intro e he
    exact (hmem e he).elim ((hs kind).nonneg e) ((hu kind).nonneg e)
  · intro hlapse e he
    exact (hmem e he).elim ((hs kind).legible hlapse e) ((hu kind).legible hlapse e)

theorem steady_reportSet (hs : s.Legible lapse t) (kind : SetKind) :
    (reportSet kind s).Steady lapse t :=
  Analysis.steady_noteInDetail _ _ hs.written

/-- The records of an access to a cache have no other effect, but for lapses. -/
theorem steady_reportAccess (hc : ¬lapse → t.Bears c.lines) (hs : Spoken lapse t s)
    (kind : SetKind) (a : Int) : (c.reportAccess kind s a).Steady lapse t := by
  refine Analysis.Steady.bind (.inl (Analysis.silent_forM fun e _ => ?_)) fun _ _ => ?_
  · exact Analysis.silent_note _ _ _ t
  · exact steady_reportSet (spoken_accessed hc hs kind a).legible kind

/-- Requests to a cache are steady in states that can be spoken of. -/
theorem quiet (hc : ¬lapse → t.Bears c.lines) :
    (Policy.lruCache c).Quiet lapse t fun s => ∀ kind, Spoken lapse t (s.entries kind) where
  blank := by
    rintro (_ | _)
    · exact spoken_nil lapse t
    · exact spoken_nil lapse t
  access := by
    intro s hs a
    have hstep : ∀ kind, Spoken lapse t ((c.step s a).entries kind) := by
      rintro (_ | _)
      · exact spoken_accessed hc (hs .must) .must a
      · exact spoken_accessed hc (hs .may) .may a
    refine (steady_reportAccess hc (hs .must) .must a).bind_keeps fun _ => ?_
    refine (steady_reportAccess hc (hs .may) .may a).bind_keeps fun _ => ?_
    exact Analysis.keeps_count hstep
  join := by
    intro s u hs hu
    refine ⟨?_, fun joined h => ?_⟩
    · refine Policy.steady_joinTwo (fun ht kind => (hs kind).legible.harmless ht)
        (fun ht kind => (hu kind).legible.harmless ht) ?_
      refine Analysis.Steady.bind (.inl (Analysis.silent_ofExcept _ t)) fun joined h => ?_
      have hjoined := spoken_merge hs hu h
      refine (steady_reportSet (hjoined .must).legible .must).bind fun _ _ => ?_
      exact (steady_reportSet (hjoined .may).legible .may).bind_pure _
    · exact spoken_merge hs hu (merge_of_joinTwo (Policy.joinTwo_mergeTwo h))
  report := fun hs ht kind => (hs kind).legible.harmless ht

end LruCache

namespace DirectMapped

variable {c : DirectMapped} {lapse : Prop} {t : Threshold} {s : EntrySet}

/-- A slot is no longer a number than that of the lines, also if this is negative. -/
theorem natAbs_slot_le (hc : c.lines ≠ 0) (a : Int) : (c.slot a).natAbs ≤ c.lines.natAbs := by
  have hpos : ∀ x l : Int, 0 < l → (x.fmod l).natAbs ≤ l.natAbs := by
    intro x l hl
    have hnonneg := Int.fmod_nonneg_of_pos x hl
    have hlt := Int.fmod_lt_of_pos x hl
    omega
  rw [slot]
  rcases Int.lt_or_gt_of_ne hc with hneg | hline
  · have hle := hpos (-(a >>> c.lineBits.toNat)) (-c.lines) (by omega)
    rwa [Int.neg_fmod_neg, Int.natAbs_neg, Int.natAbs_neg] at hle
  · exact hpos _ _ hline

/-- A slot can be written if the number of lines can. -/
theorem isWritable_slot (hc : c.lines ≠ 0) (hw : isWritable c.lines = true) (a : Int) :
    isWritable (c.slot a) = true :=
  Text.isWritable_of_natAbs_le (natAbs_slot_le hc a) hw

/-- An access to a direct-mapped cache leaves legible sets. -/
theorem legible_step (hc : ¬lapse → ∀ a, t.Bears (c.slot a)) {s : State}
    (hs : ∀ kind, (s.entries kind).Legible lapse t) (a : Int) (kind : SetKind) :
    ((c.step s a).entries kind).Legible lapse t := by
  have haccessed : ∀ s : EntrySet, s.Legible lapse t → (c.accessed s a).Legible lapse t := by
    intro s hs h e he
    rw [accessed, EntrySet.mem_sorted, List.mem_append, List.mem_singleton] at he
    rcases he with he | rfl
    · exact hs h e (List.mem_filter.1 he).1
    · exact hc h a
  cases kind with
  | must => exact haccessed s.must (hs .must)
  | may => exact haccessed s.may (hs .may)

/-- A join gives every entry its slot anew. -/
theorem legible_merge (hc : ¬lapse → ∀ a, t.Bears (c.slot a)) (s u : State)
    (kind : SetKind) : ((c.merge s u).entries kind).Legible lapse t := by
  have hslots : c.InSlots ((c.merge s u).entries kind) := by
    cases kind with
    | must => exact inSlots_merge_must s u
    | may => exact inSlots_merge_may s u
  intro h e he
  rw [hslots e he]
  exact hc h e.address

/-- The records of an access to a direct-mapped cache have no other effect. -/
theorem silent_reportAccess (c : DirectMapped) (s : EntrySet) (a : Int) (t : Threshold) :
    (c.reportAccess s a).Silent t := by
  rw [reportAccess]
  split
  · exact Analysis.silent_pure () t
  · exact Analysis.silent_note _ _ _ t

/-- A join in a direct-mapped cache is steady. -/
theorem steady_joinTwo (hc : ¬lapse → ∀ a, t.Bears (c.slot a)) (s u : State) :
    (c.joinTwo s u).Steady lapse t := by
  have hset : ∀ kind, (reportSet kind ((c.merge s u).entries kind)).Steady lapse t := fun kind =>
    Analysis.steady_noteInDetail _ _ (legible_merge hc s u kind).written
  have hreport : Analysis.Steady lapse (do
      reportSet .must (c.merge s u).must
      reportSet .may (c.merge s u).may
      return c.merge s u) t :=
    (hset .must).bind fun _ _ => (hset .may).bind_pure _
  rw [joinTwo]
  split
  · exact Analysis.Steady.bind (.inl (Analysis.silent_ofExcept _ t)) fun _ _ => hreport
  · exact hreport

/-- Requests to a direct-mapped cache are steady in legible states. -/
theorem quiet (hc : ¬lapse → ∀ a, t.Bears (c.slot a)) :
    (Policy.directMapped c).Quiet lapse t fun s => ∀ kind, (s.entries kind).Legible lapse t where
  blank := by
    rintro (_ | _)
    · exact fun _ _ he => nomatch he
    · exact fun _ _ he => nomatch he
  access := by
    intro s hs a
    refine Analysis.Steady.bind_keeps (.inl (Analysis.silent_ofExcept _ t)) fun _ => ?_
    refine Analysis.Steady.bind_keeps (.inl (c.silent_reportAccess s.must a t)) fun _ => ?_
    refine Analysis.Steady.bind_keeps (.inl (c.silent_reportAccess s.may a t)) fun _ => ?_
    exact Analysis.keeps_count (legible_step hc hs a)
  join := by
    intro s u hs hu
    refine ⟨Policy.steady_joinTwo (fun ht kind => (hs kind).harmless ht)
      (fun ht kind => (hu kind).harmless ht) (steady_joinTwo hc s u), fun joined h => ?_⟩
    rw [eq_merge_of_joinTwo (Policy.joinTwo_mergeTwo h)]
    exact legible_merge hc s u
  report := fun hs ht kind => (hs kind).harmless ht

end DirectMapped

/-! ### Scratchpads -/

namespace Scratchpad

variable {p : Scratchpad} {lapse : Prop} {t : Threshold} {kind : SetKind} {s : EntrySet} {a : Int}

/-- Looking for the room of a function is silent, also where there is no such function. -/
theorem silent_room (p : Scratchpad) (a : Int) (t : Threshold) : (p.room a).Silent t := by
  have hexact : (p.functions.exactSize a).Silent t := by
    rw [FunctionTable.exactSize]
    split
    · exact Analysis.silent_pure _ t
    · exact (Analysis.silent_note _ _ _ t).bind fun _ _ => Analysis.silent_fail _ t
  exact (hexact.bind fun _ _ => Analysis.silent_pure _ t).bind fun _ _ => Analysis.silent_pure _ t

/-- The size of a function that is there is looked up without further effect. -/
theorem harmless_room (ha : 0 < p.bytesOf a) : (p.room a).Harmless lapse t := by
  refine .inl ⟨⟨_, room_of_pos ha t⟩, ?_⟩
  cases hf : p.functions.function? a with
  | none =>
    rw [bytesOf, hf] at ha
    cases ha
  | some f =>
    rw [room, FunctionTable.roundedSize, FunctionTable.exactSize, hf]
    rfl

/-- Every entry of the set has a function, and its text can be written if there are no lapses. -/
structure Readable (p : Scratchpad) (lapse : Prop) (s : EntrySet) : Prop where
  pos : ∀ e ∈ s, 0 < p.bytesOf e.address
  written : ¬lapse → ∀ e ∈ s, (e.rangeText (p.bytesOf e.address)).Written

/-- A set inside the memory is readable where the capacity can be written. -/
theorem readable_of_inside (hs : s.Inside p.bytesOf p.capacity)
    (hw : ¬lapse → isWritable p.capacity = true) : p.Readable lapse s where
  pos := fun e he => (hs e he).2.1
  written := fun h _ he => written_rangeText (hw h) hs he

/-- The text of a readable set can be written without harm. -/
theorem harmless_setText (hs : p.Readable lapse s) : (p.setText s).Harmless lapse t := by
  refine (Analysis.harmless_collect fun e he => ?_).bind fun _ _ => Analysis.harmless_pure _
  refine (harmless_room (hs.pos e he)).bind fun size hsize => ?_
  obtain ⟨rfl, -⟩ := room_eq_ok hsize
  exact (Analysis.harmless_write fun h => hs.written h e he).bind fun _ _ =>
    Analysis.harmless_pure _

theorem harmless_reportSet (hs : p.Readable lapse s) (kind : SetKind) :
    (p.reportSet kind s).Harmless lapse t :=
  (harmless_setText hs).bind fun _ _ => Analysis.harmless_note _ _ _ t

/-- The bytes of a set can be added up without harm. -/
theorem harmless_occupied (hs : ∀ e ∈ s, 0 < p.bytesOf e.address) :
    (p.occupied s).Harmless lapse t :=
  Analysis.harmless_follow fun _ e he =>
    (harmless_room (hs e he)).bind fun _ _ => Analysis.harmless_pure _

theorem silent_shifted (p : Scratchpad) (size : Int) (e : Entry) (t : Threshold) :
    (p.shifted size e).Silent t := by
  refine (p.silent_room e.address t).bind fun own _ => ?_
  split
  · exact (Analysis.silent_note _ _ _ t).bind fun _ _ => Analysis.silent_pure _ t
  · exact Analysis.silent_pure _ t

theorem silent_moved (p : Scratchpad) (kind : SetKind) (f : Entry) (size : Int) (e : Entry)
    (t : Threshold) : (p.moved kind f size e).Silent t := by
  refine (p.silent_room e.address t).bind fun own _ => ?_
  dsimp only
  split
  · cases kind with
    | must => exact Analysis.silent_fail _ t
    | may => exact (Analysis.silent_note _ _ _ t).bind fun _ _ => Analysis.silent_pure _ t
  · exact Analysis.silent_pure _ t

/-- What survives an access is found silently. -/
theorem silent_survivors (p : Scratchpad) (kind : SetKind) (s : EntrySet) (a size : Int)
    (t : Threshold) : (p.survivors kind s a size).Silent t := by
  rw [survivors]
  split
  · exact (Analysis.silent_note _ _ _ t).bind fun _ _ =>
      Analysis.silent_collect fun e _ => p.silent_shifted size e t
  · exact (Analysis.silent_note _ _ _ t).bind fun _ _ =>
      Analysis.silent_collect fun e _ => p.silent_moved kind _ size e t

/-- Only the report of the new set can lapse.  Its entries have been looked up before. -/
theorem steady_accessed (ha : 0 < p.bytesOf a) (kind : SetKind) (s : EntrySet)
    (hw : t.journal.admits .debug = true → ¬lapse →
      ∀ e ∈ s.reloaded p.bytesOf p.capacity (p.ageAfter kind s a) a,
        (e.rangeText (p.bytesOf e.address)).Written) :
    (p.accessed kind s a (p.bytesOf a)).Steady lapse t := by
  have hsurvivors := p.silent_survivors kind s a (p.bytesOf a) t
  refine Analysis.Steady.bind (.inl hsurvivors) fun kept hkept => ?_
  obtain ⟨rfl, hpos⟩ := survivors_eq_ok hkept
  have hresult : ∀ e ∈ s.reloaded p.bytesOf p.capacity (p.ageAfter kind s a) a,
      0 < p.bytesOf e.address := by
    intro e he
    rcases EntrySet.mem_reloaded.1 he with rfl | ⟨f, hf, hfa, -, rfl⟩
    · exact ha
    · exact hpos f (EntrySet.mem_without.2 ⟨hf, hfa⟩)
  refine (Analysis.steady_inDetail fun ht => ?_).bind_pure _
  refine (harmless_reportSet ⟨hresult, hw ht⟩ kind).bind fun _ _ => ?_
  exact (harmless_occupied hresult).bind fun _ _ => Analysis.harmless_note _ _ _ t

/-- An access to a scratchpad is steady if what it leaves can be written. -/
theorem steady_access {s : State} (hw : t.journal.admits .debug = true → ¬lapse →
      0 < p.bytesOf a → p.bytesOf a ≤ p.capacity → ∀ kind,
      ∀ e ∈ (s.entries kind).reloaded p.bytesOf p.capacity (p.ageAfter kind (s.entries kind) a) a,
        (e.rangeText (p.bytesOf e.address)).Written) : (p.access s a).Steady lapse t := by
  refine Analysis.Steady.bind (.inl (Analysis.silent_note _ _ _ t)) fun _ _ => ?_
  refine Analysis.Steady.bind (.inl (p.silent_room a t)) fun size hsize => ?_
  obtain ⟨rfl, ha⟩ := room_eq_ok hsize
  split
  · refine .inl ?_
    rw [outsized]
    split
    · refine (Analysis.silent_note _ _ _ t).bind fun _ _ => ?_
      exact (Analysis.silent_count _ t).bind fun _ _ => Analysis.silent_pure _ t
    · exact (Analysis.silent_note _ _ _ t).bind fun _ _ => Analysis.silent_fail _ t
  · rename_i hfits
    have hset : ∀ kind, (p.accessed kind (s.entries kind) a (p.bytesOf a)).Steady lapse t :=
      fun kind => steady_accessed ha kind _ fun ht h => hw ht h ha (Int.not_lt.1 hfits) kind
    refine (hset .must).bind fun must _ => ?_
    refine (hset .may).bind fun may _ => ?_
    exact Analysis.Steady.bind_pure (.inl (Analysis.silent_count _ t)) _

/-- A join in a scratchpad is steady in tidy states. -/
theorem steady_joinTwo {s u : State} (hs : s.Tidy p.bytesOf p.capacity)
    (hu : u.Tidy p.bytesOf p.capacity) (hw : ¬lapse → t.Bears p.capacity) :
    (p.joinTwo s u).Steady lapse t := by
  refine Analysis.Steady.bind (.inl (Analysis.silent_ofExcept _ t)) fun joined hjoined => ?_
  obtain ⟨hmust, hmay, -⟩ := merge_eq_ok.1 hjoined
  have hinside := (hs.join hu hmust hmay).inside
  refine (Analysis.steady_inDetail fun ht => ?_).bind_pure _
  have hreadable : ∀ kind, p.Readable lapse (joined.entries kind) := fun kind =>
    readable_of_inside (hinside kind) fun h => hw h ht
  exact (harmless_reportSet (hreadable .must) .must).bind fun _ _ =>
    harmless_reportSet (hreadable .may) .may

/-- Requests to a scratchpad are steady in packed states. -/
theorem quiet (hw : ¬lapse → t.Bears p.capacity) : (Policy.scratchpad p).Quiet lapse t fun s =>
    ∃ H, s.Packed (.scratchpad p) p.bytesOf p.capacity H where
  blank := ⟨_, (p.tracks_packed t).blank⟩
  access := by
    rintro s ⟨H, hs⟩ a
    refine ⟨steady_access fun ht h hpos hfits kind e he => ?_, fun s' h => ?_⟩
    · refine written_rangeText (hw h ht) (EntrySet.inside_reloaded (hs.tidy.inside kind) hpos hfits
        fun f hf => ?_) he
      exact ageAfter_nonneg (fun g hg => (hs.tidy.inside kind g hg).1) hpos hf
    · exact ⟨_, (p.tracks_packed none).access hs h⟩
  join := by
    rintro s u ⟨H, hs⟩ ⟨K, hu⟩
    have htext : ∀ x : State, x.Tidy p.bytesOf p.capacity → t.journal.admits .debug = true →
        ∀ kind, (p.setText (x.entries kind)).Harmless lapse t := fun x hx ht kind =>
      harmless_setText (readable_of_inside (hx.inside kind) fun h => hw h ht)
    refine ⟨Policy.steady_joinTwo (htext s hs.tidy) (htext u hu.tidy)
      (steady_joinTwo hs.tidy hu.tidy hw), fun s' h => ?_⟩
    exact ⟨_, (p.tracks_packed none).join hs hu h⟩
  report := by
    rintro s ⟨H, hs⟩ ht kind
    exact harmless_setText (readable_of_inside (hs.tidy.inside kind) fun h => hw h ht)

end Scratchpad

/-! ### Policies -/

namespace Policy

variable {p : Policy} {lapse : Prop} {t : Threshold} {G : State → Prop}

/-- The memory has room, as every policy asks for when it is made, and its capacity can be
written. -/
structure Written (p : Policy) : Prop where
  capacity : p.capacity ≠ 0
  writable : isWritable p.capacity = true

/-- Every policy is quiet, and there is no need to allow for lapses if its capacity can be
written or its sets are not written out. -/
theorem exists_quiet (h : ¬lapse → t.journal.admits .debug = true → p.Written) :
    ∃ G, p.Quiet lapse t G := by
  cases p with
  | lruCache c => exact ⟨_, LruCache.quiet fun hl ht => (h hl ht).writable⟩
  | directMapped c =>
    refine ⟨_, DirectMapped.quiet fun hl a ht => ?_⟩
    exact DirectMapped.isWritable_slot (h hl ht).capacity (h hl ht).writable a
  | scratchpad p => exact ⟨_, Scratchpad.quiet fun hl ht => (h hl ht).writable⟩

/-! ### Sequences, joins of many and verdicts -/

/-- A walk is steady and keeps the property. -/
theorem Quiet.walk (hq : p.Quiet lapse t G) {s : State} (hs : G s) (addresses : List Int) :
    (p.walk s addresses).Keeps lapse G t :=
  Analysis.keeps_follow (fun _ hu a _ => hq.access hu a) hs

/-- So does a join of many states. -/
theorem Quiet.joinAll (hq : p.Quiet lapse t G) {ss : List State} (hss : ∀ s ∈ ss, G s) :
    (p.join ss).Keeps lapse G t := by
  rcases ss with _ | ⟨s, _ | ⟨u, rest⟩⟩
  · exact Analysis.keeps_fail _
  · exact Analysis.keeps_fail _
  · obtain ⟨hs, hrest⟩ := List.forall_mem_cons.1 hss
    have hjoin : Analysis.Keeps lapse G (do
        let joined ← Analysis.follow p.joinTwo s (u :: rest)
        Analysis.count joined.usage
        return joined) t := by
      refine (Analysis.keeps_follow (fun x hx y hy => hq.join hx (hrest y hy)) hs).bind ?_
      exact fun joined hjoined => Analysis.keeps_count hjoined
    rw [Policy.join]
    split
    · exact Analysis.keeps_note_bind _ _ _ fun _ => hjoin
    · exact hjoin

/-- So do the verdicts along a walk. -/
theorem Quiet.judgeAll (hq : p.Quiet lapse t G) {s : State} (hs : G s) (addresses : List Int) :
    (p.judgeAll s addresses).Keeps lapse (fun summary => G summary.final) t := by
  refine Analysis.keeps_follow (fun done hdone a _ => ?_) hs
  refine Analysis.keeps_note_bind _ _ _ fun _ => ?_
  exact (hq.access hdone a).bind fun _ hnext => Analysis.keeps_pure hnext

end Policy

end Residency
