/-
Residency/Proofs/Wording.lean

Analyses that succeed, and the texts that let them.  Nearly every operation makes records, and
a record never stops it: what the library attaches to the journal loses a record that cannot be
worded (`Analysis.succeeds_note`).  The sets are different.  They are written out before their
record is made, and this fails if an age is too long to be written.

It happens only where records of the lowest level are kept.  A threshold bears a number if it
keeps no such records or if the number can be written; what it bears is closed downwards
(`Threshold.Bears.mono`), so a bound on the ages of a memory is enough for all its sets.
`Analysis.Succeeds` is closed under composition and brings the question whether an operation
succeeds down to these bounds and to the faults that it raises itself.
-/
import Residency.Policy.Basic
import Residency.Proofs.Results

namespace Residency

/-! ### Writing -/

namespace Text

/-- A number is no harder to write than a larger one. -/
theorem isWritable_of_le {m n : Int} (hm : 0 ≤ m) (h : m ≤ n) (hn : isWritable n = true) :
    isWritable m = true := by
  rw [isWritable, decide_eq_true_eq] at hn ⊢
  rw [Nat.length_toDigits_le_iff (by decide) (by decide)] at hn ⊢
  omega

namespace Phrase

/-- The phrase can be written. -/
def Written (p : Phrase) : Prop :=
  p.text?.isSome = true

@[simp] theorem written_ofString (s : String) : (ofString s).Written := rfl

/-- Two phrases can be written together if both can be written. -/
@[simp] theorem written_append {p q : Phrase} : (p ++ q).Written ↔ p.Written ∧ q.Written := by
  rw [Written, Written, Written, text?_append]
  cases p.text? <;> cases q.text? <;> simp

/-- A number can be written if it has few enough digits. -/
@[simp] theorem written_decimal {n : Int} : (decimal n).Written ↔ isWritable n = true := by
  rw [decimal]
  split
  · simp [*, Written]
  · simp [*, Written]

/-- Phrases can be written together if each can be written. -/
theorem written_join {ps : List Phrase} : (join ps).Written ↔ ∀ p ∈ ps, p.Written := by
  have hfold : ∀ (ps : List Phrase) (done : Phrase),
      (ps.foldl (· ++ ·) done).Written ↔ done.Written ∧ ∀ p ∈ ps, p.Written := by
    intro ps
    induction ps with
    | nil => simp
    | cons p ps ih =>
      intro done
      rw [List.foldl_cons, ih, written_append, List.forall_mem_cons, and_assoc]
  exact (hfold ps _).trans (and_iff_right (written_ofString ""))

end Phrase

end Text

theorem Entry.written_text {e : Entry} : e.text.Written ↔ Text.isWritable e.age = true := by
  simp [Entry.text]

/-- A set can be written if all its ages can. -/
theorem EntrySet.written_text {s : EntrySet} : s.text.Written ↔ ∀ e ∈ s, e.text.Written := by
  rw [EntrySet.text, Text.Phrase.written_join, List.forall_mem_map]

namespace Threshold

variable {t : Threshold} {m n : Int}

/-- Records of the lowest level are not kept, or the number can be written. -/
def Bears (t : Threshold) (n : Int) : Prop :=
  t.journal.admits .debug = true → Text.isWritable n = true

/-- A threshold that bears a number bears the smaller ones. -/
theorem Bears.mono (h : t.Bears n) (hm : 0 ≤ m) (hle : m ≤ n) : t.Bears m :=
  fun ht => Text.isWritable_of_le hm hle (h ht)

/-- A journal of the library's own stops no one. -/
theorem isStrict_journal (t : Threshold) : t.journal.isStrict = false := by
  cases t <;> rfl

end Threshold

/-! ### Success -/

namespace Analysis

variable {α β : Type} {t : Journal}

/-- The analysis returns a value. -/
def Succeeds (x : Analysis α) (t : Journal) : Prop :=
  ∃ a, (x t).result = .ok a

theorem succeeds_pure (a : α) (t : Journal) : Succeeds (pure a) t :=
  ⟨a, rfl⟩

/-- If the first part succeeds and the second one does from there, the whole succeeds. -/
theorem Succeeds.bind {x : Analysis α} {f : α → Analysis β} (hx : x.Succeeds t)
    (hf : ∀ a, (x t).result = .ok a → (f a).Succeeds t) : (x >>= f).Succeeds t := by
  obtain ⟨a, ha⟩ := hx
  obtain ⟨b, hb⟩ := hf a ha
  exact ⟨b, result_bind_eq_ok.2 ⟨a, ha, hb⟩⟩

/-- If the whole succeeds, so do both parts. -/
theorem Succeeds.of_bind {x : Analysis α} {f : α → Analysis β} (h : (x >>= f).Succeeds t) :
    ∃ a, (x t).result = .ok a ∧ (f a).Succeeds t := by
  obtain ⟨b, hb⟩ := h
  obtain ⟨a, ha, hf⟩ := result_bind_eq_ok.1 hb
  exact ⟨a, ha, b, hf⟩

theorem result_bind_of_ok {x : Analysis α} {f : α → Analysis β} {a : α}
    (h : (x t).result = .ok a) : ((x >>= f) t).result = (f a t).result := by
  rw [result_bind, h]
  rfl

theorem result_bind_of_error {x : Analysis α} {f : α → Analysis β} {e : Fault}
    (h : (x t).result = .error e) : ((x >>= f) t).result = .error e := by
  rw [result_bind, h]
  rfl

/-- Counting and reporting do not change whether an analysis succeeds. -/
theorem Succeeds.bind_pure {x : Analysis α} (hx : x.Succeeds t) (b : β) :
    Succeeds (x >>= fun _ => pure b) t :=
  hx.bind fun _ _ => succeeds_pure b t

/-- A record that can be worded is made in every journal. -/
theorem result_note_of_written {l : Level} {c : Component} {m : Text.Phrase} (h : m.Written) :
    (note l c m t).result = .ok () := by
  obtain ⟨text, htext⟩ := Option.isSome_iff_exists.1 h
  rw [note, htext]
  split <;> rfl

/-- A record that is lost does not stop the analysis. -/
theorem result_note_journal (l : Level) (c : Component) (m : Text.Phrase) (t : Threshold) :
    (note l c m t).result = .ok () := by
  rw [note]
  split
  · split
    · rfl
    · rw [lose, t.isStrict_journal, if_neg Bool.false_ne_true]
  · rfl

theorem succeeds_note (l : Level) (c : Component) (m : Text.Phrase) (t : Threshold) :
    (note l c m).Succeeds t :=
  ⟨(), result_note_journal l c m t⟩

/-- Writing succeeds exactly for phrases that can be written. -/
theorem succeeds_write_iff {m : Text.Phrase} : (write m).Succeeds t ↔ m.Written := by
  rw [write, Text.Phrase.Written]
  cases m.text? with
  | none =>
    constructor
    · rintro ⟨_, h⟩
      exact absurd h (result_fail_ne_ok t)
    · intro h
      cases h
  | some text => exact ⟨fun _ => rfl, fun _ => succeeds_pure text t⟩

/-- What is done only in detail can fail only if details are kept. -/
theorem succeeds_inDetail_iff {x : Analysis Unit} :
    (inDetail x).Succeeds t ↔ (t.admits .debug = true → x.Succeeds t) := by
  rw [Succeeds, inDetail]
  by_cases hl : t.admits .debug = true
  · simp [hl, Succeeds]
  · simp [hl]

/-- The rest of the record is plain text, so its costly part decides. -/
theorem succeeds_noteInDetail_iff {c : Component} {message : String} {detail : Text.Phrase} :
    (noteInDetail c message detail).Succeeds t ↔ (t.admits .debug = true → detail.Written) := by
  rw [noteInDetail, succeeds_inDetail_iff, ← succeeds_write_iff (t := t)]
  refine imp_congr_right fun _ => ⟨?_, ?_⟩
  · intro h
    obtain ⟨text, htext, -⟩ := h.of_bind
    exact ⟨text, htext⟩
  · intro h
    exact h.bind fun text _ => ⟨(), result_note _ _ _ t⟩

/-- A collection succeeds if all its members do. -/
theorem succeeds_collect {f : α → Analysis (Option β)} {l : List α}
    (h : ∀ a ∈ l, (f a).Succeeds t) : (collect f l).Succeeds t := by
  induction l with
  | nil => exact succeeds_pure [] t
  | cons a l ih =>
    refine (h a List.mem_cons_self).bind fun b _ => ?_
    exact (ih fun c hc => h c (List.mem_cons_of_mem a hc)).bind fun bs _ => succeeds_pure _ t

theorem succeeds_forM {f : α → Analysis Unit} {l : List α} (h : ∀ a ∈ l, (f a).Succeeds t) :
    Succeeds (l.forM f) t := by
  induction l with
  | nil => exact succeeds_pure _ t
  | cons a l ih =>
    show Succeeds (f a >>= fun _ => l.forM f) t
    exact (h a List.mem_cons_self).bind fun _ _ => ih fun c hc => h c (List.mem_cons_of_mem a hc)

end Analysis

end Residency
