/-
Residency/Proofs/Lines.lean

The lines of a text, without the function that finds them.  `CutInto text ls` says that the
lines hold no line feed and, each followed by one, make up the text, which may lack the last
line feed.  There is one such list for every text (`cutInto_iff`), and a text that ends in a
line feed has the lines of its own in front of those of whatever follows it (`lines_append`).

A line language is a relation between lines and what they say, and a reader may decide it.
Then `readLines` returns what the lines say, with their numbers, if all lines belong to the
language (`Decides.readLines_eq_ok`), and otherwise the number of the first line that does
not (`Decides.readLines_eq_error`).
-/
import Mathlib.Data.List.Forall2
import Residency.Text.Lines

namespace Residency.Text

/-! ### Cutting -/

/-- The text with the line feed that its last line may lack. -/
def ended (text : List Char) : List Char :=
  if text = [] ∨ text.getLast? = some '\n' then text else text ++ ['\n']

/-- Lines one after the other, each with its line feed. -/
def joined (ls : List (List Char)) : List Char :=
  ls.flatMap (· ++ ['\n'])

/-- The text is cut into the lines at its line feeds. -/
structure CutInto (text : List Char) (ls : List (List Char)) : Prop where
  unbroken : ∀ l ∈ ls, '\n' ∉ l
  joined : joined ls = ended text

@[simp] theorem joined_nil : joined [] = [] := rfl

@[simp] theorem joined_cons (l : List Char) (ls : List (List Char)) :
    joined (l :: ls) = l ++ '\n' :: joined ls := by
  simp [joined]

theorem ended_cons {cs : List Char} (h : cs ≠ []) (c : Char) : ended (c :: cs) = c :: ended cs := by
  obtain ⟨d, ds, rfl⟩ := List.exists_cons_of_ne_nil h
  simp only [ended, List.cons_ne_nil, false_or, List.getLast?_cons_cons]
  split <;> rfl

/-- A line comes off the front of a text at its line feed. -/
theorem lines_cons_line {l : List Char} (h : '\n' ∉ l) (rest : List Char) :
    lines (l ++ '\n' :: rest) = l :: lines rest := by
  induction l with
  | nil => simp [lines]
  | cons c l ih =>
    obtain ⟨hc, hl⟩ : c ≠ '\n' ∧ '\n' ∉ l := by simpa [eq_comm] using h
    rw [List.cons_append, lines, if_neg hc, ih hl]

/-- Unbroken lines come off the front of a text one by one. -/
theorem lines_joined_append {ls : List (List Char)} (h : ∀ l ∈ ls, '\n' ∉ l) (rest : List Char) :
    lines (joined ls ++ rest) = ls ++ lines rest := by
  induction ls with
  | nil => rfl
  | cons l ls ih =>
    have hrest := ih fun m hm => h m (List.mem_cons_of_mem l hm)
    rw [joined_cons, List.append_assoc, List.cons_append,
      lines_cons_line (h l List.mem_cons_self), hrest, List.cons_append]

theorem lines_eq_nil_iff {text : List Char} : lines text = [] ↔ text = [] := by
  cases text with
  | nil => simp [lines]
  | cons c cs =>
    rw [lines]
    split
    · simp
    · split <;> simp

/-- A text is cut into its lines. -/
theorem cutInto_lines (text : List Char) : CutInto text (lines text) := by
  -- A character is the last one, or a line feed, or it comes in front of the first line.
  induction text with
  | nil => exact ⟨fun l hl => by simp [lines] at hl, rfl⟩
  | cons c cs ih =>
    rcases eq_or_ne cs [] with rfl | hcs
    · by_cases hc : c = '\n'
      · subst hc
        exact ⟨by simp [lines], by simp [lines, ended]⟩
      · exact ⟨by simp [lines, hc, Ne.symm hc], by simp [lines, hc, ended]⟩
    · obtain ⟨l, ls, hls⟩ := List.exists_cons_of_ne_nil (mt lines_eq_nil_iff.1 hcs)
      rw [hls] at ih
      obtain ⟨hunbroken, hjoined⟩ := ih
      by_cases hc : c = '\n'
      · refine ⟨?_, ?_⟩
        · simpa [lines, hc, hls] using hunbroken
        · simp [lines, hc, hls, ended_cons hcs, ← hjoined]
      · refine ⟨?_, ?_⟩
        · simpa [lines, hc, hls, Ne.symm hc] using hunbroken
        · simp [lines, hc, hls, ended_cons hcs, ← hjoined]

/-- There is one way to cut a text into lines. -/
theorem cutInto_iff {text : List Char} {ls : List (List Char)} :
    CutInto text ls ↔ lines text = ls := by
  constructor
  · intro h
    have hlines := cutInto_lines text
    -- Both lists make up the same text, from which `lines` recovers either.
    have hjoined : joined (lines text) = joined ls := hlines.joined.trans h.joined.symm
    have hcut : ∀ {ms : List (List Char)}, (∀ l ∈ ms, '\n' ∉ l) → lines (joined ms) = ms := by
      intro ms hms
      simpa [lines] using lines_joined_append hms []
    rw [← hcut hlines.unbroken, hjoined, hcut h.unbroken]
  · rintro rfl
    exact cutInto_lines text

/-! ### Texts that end in a line feed -/

/-- A text that ends in a line feed is made up of its lines. -/
theorem joined_lines_of_ends {text : List Char} (h : text.getLast? = some '\n') :
    joined (lines text) = text := by
  rw [(cutInto_lines text).joined, ended, if_pos (.inr h)]

/-- Behind a line feed a new line starts, whatever comes before. -/
theorem lines_append {text : List Char} (h : text.getLast? = some '\n') (rest : List Char) :
    lines (text ++ rest) = lines text ++ lines rest := by
  have hsplit := lines_joined_append (cutInto_lines text).unbroken rest
  rwa [joined_lines_of_ends h] at hsplit

/-- Such a text has as many lines as line feeds. -/
theorem length_lines {text : List Char} (h : text.getLast? = some '\n') :
    (lines text).length = text.count '\n' := by
  have hcount : ∀ ls : List (List Char), (∀ l ∈ ls, '\n' ∉ l) →
      (joined ls).count '\n' = ls.length := by
    intro ls
    induction ls with
    | nil => intro _; rfl
    | cons l ls ih =>
      intro hls
      have hl := List.count_eq_zero_of_not_mem (hls l List.mem_cons_self)
      have hrest := ih fun m hm => hls m (List.mem_cons_of_mem l hm)
      rw [joined_cons, List.count_append, hl, List.count_cons_self, hrest, List.length_cons,
        Nat.zero_add]
  rw [← hcount _ (cutInto_lines text).unbroken, joined_lines_of_ends h]

/-! ### Reading lines -/

section Reading

variable {α : Type} {read? : List Char → Option α} {Line : List Char → α → Prop}
  {ls : List (List Char)} {first : Nat}

/-- What lines say, with the numbers of the lines. -/
def numbered (first : Nat) (as : List α) : List (Nat × α) :=
  (as.zipIdx first).map Prod.swap

theorem numbered_cons (first : Nat) (a : α) (as : List α) :
    numbered first (a :: as) = (first, a) :: numbered (first + 1) as := rfl

theorem map_snd_numbered (first : Nat) (as : List α) : (numbered first as).map Prod.snd = as := by
  induction as generalizing first with
  | nil => rfl
  | cons a as ih => rw [numbered_cons, List.map_cons, ih]

/-- Numbering adds no members. -/
theorem mem_of_mem_numbered {n : Nat} {a : α} {as : List α} (h : (n, a) ∈ numbered first as) :
    a ∈ as := by
  rw [← map_snd_numbered first as]
  exact List.mem_map_of_mem h

/-- Every line of the language says something. -/
theorem exists_said_of_mem {said : List α} (h : List.Forall₂ Line ls said) {l : List Char}
    (hl : l ∈ ls) : ∃ a ∈ said, Line l a := by
  induction h with
  | nil => cases hl
  | @cons m a ls said hm _ ih =>
    rcases List.mem_cons.1 hl with rfl | hl
    · exact ⟨a, List.mem_cons_self, hm⟩
    · obtain ⟨b, hb, hline⟩ := ih hl
      exact ⟨b, List.mem_cons_of_mem a hb, hline⟩

/-- What is said stands on a line. -/
theorem exists_line_of_mem {said : List α} (h : List.Forall₂ Line ls said) {a : α} (ha : a ∈ said) :
    ∃ l ∈ ls, Line l a := by
  induction h with
  | nil => cases ha
  | @cons l b ls said hl _ ih =>
    rcases List.mem_cons.1 ha with rfl | ha
    · exact ⟨l, List.mem_cons_self, hl⟩
    · obtain ⟨m, hm, hline⟩ := ih ha
      exact ⟨m, List.mem_cons_of_mem l hm, hline⟩

/-- The reader succeeds if it can read every line, and numbers what they say. -/
theorem readLines_eq_ok {as : List (Nat × α)} : readLines read? first ls = .ok as ↔
    ∃ said, List.Forall₂ (fun l a => read? l = some a) ls said ∧ as = numbered first said := by
  induction ls generalizing first as with
  | nil =>
    rw [readLines, Except.ok.injEq]
    constructor
    · rintro rfl
      exact ⟨[], .nil, rfl⟩
    · rintro ⟨said, hsaid, rfl⟩
      rw [List.forall₂_nil_left_iff] at hsaid
      rw [hsaid]
      rfl
  | cons l ls ih =>
    rw [readLines]
    cases hl : read? l with
    | none =>
      constructor
      · intro h
        cases h
      · rintro ⟨said, hsaid, -⟩
        obtain ⟨a, _, ha, -, -⟩ := List.forall₂_cons_left_iff.1 hsaid
        rw [hl] at ha
        cases ha
    | some a =>
      dsimp only
      constructor
      · intro h
        cases hrest : readLines read? (first + 1) ls with
        | error n =>
          rw [hrest] at h
          cases h
        | ok bs =>
          rw [hrest] at h
          obtain rfl := Except.ok.inj h
          obtain ⟨said, hsaid, rfl⟩ := ih.1 hrest
          exact ⟨a :: said, .cons hl hsaid, rfl⟩
      · rintro ⟨said, hsaid, rfl⟩
        obtain ⟨a', said', ha', hsaid', rfl⟩ := List.forall₂_cons_left_iff.1 hsaid
        obtain rfl := Option.some.inj (hl.symm.trans ha')
        rw [ih.2 ⟨said', hsaid', rfl⟩]
        rfl

/-- The reader fails with the number of the first line that it cannot read. -/
theorem readLines_eq_error {n : Nat} : readLines read? first ls = .error n ↔
    ∃ done l rest, ls = done ++ l :: rest ∧ (∀ d ∈ done, ∃ a, read? d = some a) ∧
      read? l = none ∧ n = first + done.length := by
  induction ls generalizing first with
  | nil => simp [readLines]
  | cons l ls ih =>
    rw [readLines]
    cases hl : read? l with
    | none =>
      dsimp only
      constructor
      · intro h
        obtain rfl := Except.error.inj h
        exact ⟨[], l, ls, rfl, fun d hd => (List.not_mem_nil hd).elim, hl, rfl⟩
      · rintro ⟨done, m, rest, hls, hdone, hm, rfl⟩
        cases done with
        | nil => rfl
        | cons d done =>
          -- The first line cannot be both refused and read.
          obtain ⟨rfl, -⟩ := List.cons.inj hls
          obtain ⟨a, ha⟩ := hdone l List.mem_cons_self
          rw [hl] at ha
          cases ha
    | some a =>
      have hmap : ((readLines read? (first + 1) ls).map ((first, a) :: ·) = .error n) ↔
          readLines read? (first + 1) ls = .error n := by
        cases readLines read? (first + 1) ls <;> simp [Except.map]
      rw [hmap, ih]
      constructor
      · rintro ⟨done, m, rest, rfl, hdone, hm, rfl⟩
        refine ⟨l :: done, m, rest, rfl, ?_, hm, ?_⟩
        · intro d hd
          rcases List.mem_cons.1 hd with rfl | hd
          · exact ⟨a, hl⟩
          · exact hdone d hd
        · rw [List.length_cons]
          omega
      · rintro ⟨done, m, rest, hls, hdone, hm, rfl⟩
        cases done with
        | nil =>
          obtain ⟨rfl, -⟩ := List.cons.inj hls
          rw [hl] at hm
          cases hm
        | cons d done =>
          obtain ⟨rfl, rfl⟩ := List.cons.inj hls
          refine ⟨done, m, rest, rfl, fun e he => hdone e (List.mem_cons_of_mem _ he), hm, ?_⟩
          rw [List.length_cons]
          omega

/-- The line with the given number is the first one outside the language. -/
def FirstOutside (Line : List Char → α → Prop) (ls : List (List Char)) (number : Nat) : Prop :=
  ∃ done l rest, ls = done ++ l :: rest ∧ (∀ d ∈ done, ∃ a, Line d a) ∧ (∀ a, ¬Line l a) ∧
    number = done.length + 1

/-- There is a first line outside of the language if there is any. -/
theorem exists_firstOutside_iff :
    (∃ n, FirstOutside Line ls n) ↔ ∃ l ∈ ls, ∀ a, ¬Line l a := by
  constructor
  · rintro ⟨n, done, l, rest, rfl, -, hl, -⟩
    exact ⟨l, by simp, hl⟩
  · intro h
    induction ls with
    | nil => simp at h
    | cons l ls ih =>
      by_cases hl : ∃ a, Line l a
      · have hrest : ∃ m ∈ ls, ∀ a, ¬Line m a := by
          obtain ⟨m, hm, hout⟩ := h
          rcases List.mem_cons.1 hm with rfl | hm
          · obtain ⟨a, ha⟩ := hl
            exact absurd ha (hout a)
          · exact ⟨m, hm, hout⟩
        obtain ⟨n, done, m, rest, rfl, hdone, hm, rfl⟩ := ih hrest
        exact ⟨_, l :: done, m, rest, rfl, by simpa using ⟨hl, hdone⟩, hm, rfl⟩
      · exact ⟨1, [], l, ls, rfl, by simp, not_exists.1 hl, rfl⟩

/-- Either every line says something, or a line is outside the language. -/
theorem exists_said_or_outside (Line : List Char → α → Prop) (ls : List (List Char)) :
    (∃ said, List.Forall₂ Line ls said) ∨ ∃ n, FirstOutside Line ls n := by
  by_cases h : ∃ l ∈ ls, ∀ a, ¬Line l a
  · exact .inr (exists_firstOutside_iff.2 h)
  · left
    push Not at h
    induction ls with
    | nil => exact ⟨[], .nil⟩
    | cons l ls ih =>
      obtain ⟨a, ha⟩ := h l List.mem_cons_self
      obtain ⟨said, hsaid⟩ := ih fun m hm => h m (List.mem_cons_of_mem l hm)
      exact ⟨a :: said, .cons ha hsaid⟩

/-- More lines behind do not change which line is the first outside. -/
theorem FirstOutside.append {n : Nat} (h : FirstOutside Line ls n) (ms : List (List Char)) :
    FirstOutside Line (ls ++ ms) n := by
  obtain ⟨done, l, rest, rfl, hdone, hl, rfl⟩ := h
  exact ⟨done, l, rest ++ ms, by simp, hdone, hl, rfl⟩

/-- Lines of the language in front move the number of the first line outside. -/
theorem FirstOutside.behind {n : Nat} (h : FirstOutside Line ls n) {ms : List (List Char)}
    {said : List α} (hms : List.Forall₂ Line ms said) :
    FirstOutside Line (ms ++ ls) (ms.length + n) := by
  obtain ⟨done, l, rest, rfl, hdone, hl, rfl⟩ := h
  refine ⟨ms ++ done, l, rest, by simp, List.forall_mem_append.2 ⟨?_, hdone⟩, hl, ?_⟩
  · intro m hm
    obtain ⟨a, -, hline⟩ := exists_said_of_mem hms hm
    exact ⟨a, hline⟩
  · rw [List.length_append, Nat.add_assoc]

/-- The reader accepts the lines of the language and no other line, and reads what they say. -/
def Decides (read? : List Char → Option α) (Line : List Char → α → Prop)
    (ls : List (List Char)) : Prop :=
  ∀ l ∈ ls, ∀ a, read? l = some a ↔ Line l a

/-- A reader that decides the language succeeds exactly on its texts. -/
theorem Decides.readLines_eq_ok (h : Decides read? Line ls) {as : List (Nat × α)} :
    readLines read? first ls = .ok as ↔
      ∃ said, List.Forall₂ Line ls said ∧ as = numbered first said := by
  have hsame : ∀ said, List.Forall₂ (fun l a => read? l = some a) ls said ↔
      List.Forall₂ Line ls said := by
    intro said
    constructor
    · intro hread
      exact ((List.forall₂_and_left _ _).2 ⟨h, hread⟩).imp fun l a hl => (hl.1 a).1 hl.2
    · intro hline
      exact ((List.forall₂_and_left _ _).2 ⟨h, hline⟩).imp fun l a hl => (hl.1 a).2 hl.2
  simp only [Text.readLines_eq_ok, hsame]

/-- Otherwise it fails with the number of the first line outside. -/
theorem Decides.readLines_eq_error (h : Decides read? Line ls) {n : Nat} :
    readLines read? 1 ls = .error n ↔ FirstOutside Line ls n := by
  rw [Text.readLines_eq_error]
  constructor
  · rintro ⟨done, l, rest, rfl, hdone, hl, rfl⟩
    refine ⟨done, l, rest, rfl, fun d hd => ?_, fun a ha => ?_, Nat.add_comm _ _⟩
    · obtain ⟨a, ha⟩ := hdone d hd
      exact ⟨a, (h d (by simp [hd]) a).1 ha⟩
    · rw [(h l (by simp) a).2 ha] at hl
      cases hl
  · rintro ⟨done, l, rest, rfl, hdone, hl, rfl⟩
    refine ⟨done, l, rest, rfl, fun d hd => ?_, ?_, Nat.add_comm _ _⟩
    · obtain ⟨a, ha⟩ := hdone d hd
      exact ⟨a, (h d (by simp [hd]) a).2 ha⟩
    · rw [Option.eq_none_iff_forall_ne_some]
      intro a ha
      exact hl a ((h l (by simp) a).1 ha)

end Reading

end Residency.Text
