/-
Residency/Proofs/Tokens.lean

The parts that lines are made of, without the functions that find them.  The forms here are
those of the line languages: blanks, the comment and the carriage return at the end of a line
(`Ending`), a text without its outer white space (`Stripped`), digits and the number that
they denote (`IsDigit`, `denoted`).

A reader takes as many characters of a class as there are.  This is the part that the form
describes as soon as what follows does not go on with the class (`Stops`); the lemmas on
`takeWhile` and `dropWhile` below are all that later proofs use of it.
-/
import Mathlib
import Residency.Text.Integer
import Residency.Text.Lines
import Residency.Text.Space

namespace Residency.Text

/-! ### As many characters as there are -/

section Munch

variable {p : Char → Bool} {w rest : List Char}

/-- The text does not go on with a character of the class. -/
def Stops (p : Char → Bool) (rest : List Char) : Prop :=
  ∀ c ∈ rest.head?, p c = false

@[simp] theorem stops_nil : Stops p [] := by
  intro c hc
  cases hc

@[simp] theorem stops_cons {c : Char} : Stops p (c :: rest) ↔ p c = false := by
  simp [Stops]

theorem stops_dropWhile (p : Char → Bool) (cs : List Char) : Stops p (cs.dropWhile p) := by
  intro c hc
  have hhead := List.head?_dropWhile_not p cs
  rw [Option.mem_def.1 hc] at hhead
  exact hhead

/-- A run of a class is taken up to where the class stops. -/
theorem takeWhile_append_of_stops (hw : ∀ c ∈ w, p c = true) (hrest : Stops p rest) :
    (w ++ rest).takeWhile p = w := by
  rw [List.takeWhile_append_of_pos hw]
  cases rest with
  | nil => simp
  | cons c rest => simp [stops_cons.1 hrest]

/-- A run of a class is dropped up to where the class stops. -/
theorem dropWhile_append_of_stops (hw : ∀ c ∈ w, p c = true) (hrest : Stops p rest) :
    (w ++ rest).dropWhile p = rest := by
  rw [List.dropWhile_append_of_pos hw]
  cases rest with
  | nil => rfl
  | cons c rest => simp [stops_cons.1 hrest]

/-- One or more characters of a class. -/
def Word (P : Char → Prop) (w : List Char) : Prop :=
  w ≠ [] ∧ ∀ c ∈ w, P c

/-- A word of another class stops the class. -/
theorem Word.stops {P : Char → Prop} (hw : Word P w) (hp : ∀ c, P c → p c = false)
    (rest : List Char) : Stops p (w ++ rest) := by
  obtain ⟨c, w, rfl⟩ := List.exists_cons_of_ne_nil hw.1
  exact stops_cons.2 (hp c (hw.2 c List.mem_cons_self))

end Munch

/-! ### Blanks -/

/-- Spaces and tabs. -/
def Blanks (cs : List Char) : Prop :=
  ∀ c ∈ cs, c = ' ' ∨ c = '\t'

theorem isBlank_iff {c : Char} : isBlank c = true ↔ c = ' ' ∨ c = '\t' := by
  simp [isBlank]

/-- The reader and the language have the same blanks. -/
theorem blanks_iff {cs : List Char} : Blanks cs ↔ ∀ c ∈ cs, isBlank c = true := by
  simp only [Blanks, isBlank_iff]

theorem Blanks.append {cs ds : List Char} (hcs : Blanks cs) (hds : Blanks ds) :
    Blanks (cs ++ ds) := by
  intro c hc
  rcases List.mem_append.1 hc with hc | hc
  · exact hcs c hc
  · exact hds c hc

/-- Blanks stop every class without blanks. -/
theorem Blanks.stops {gap rest : List Char} (hgap : Blanks gap) {p : Char → Bool}
    (hp : ∀ c, isBlank c = true → p c = false) (hrest : Stops p rest) : Stops p (gap ++ rest) := by
  cases gap with
  | nil => exact hrest
  | cons c gap => exact stops_cons.2 (hp c (blanks_iff.1 hgap c List.mem_cons_self))

theorem isSpace_of_isBlank {c : Char} (h : isBlank c = true) : isSpace c = true := by
  rcases isBlank_iff.1 h with rfl | rfl <;> rfl

/-- All blanks in front are skipped and nothing else. -/
theorem skipBlanks_append {lead rest : List Char} (hlead : Blanks lead)
    (hrest : Stops isBlank rest) : skipBlanks (lead ++ rest) = rest :=
  dropWhile_append_of_stops (blanks_iff.1 hlead) hrest

/-- What is skipped is blanks. -/
theorem exists_skipBlanks (cs : List Char) :
    ∃ lead, Blanks lead ∧ cs = lead ++ skipBlanks cs :=
  ⟨cs.takeWhile isBlank, blanks_iff.2 fun _ hc => List.mem_takeWhile_imp hc,
    List.takeWhile_append_dropWhile.symm⟩

/-! ### The end of a line -/

/-- A comment, which starts with a character of the class, and a carriage return; either may
be missing. -/
def Ending (opens : Char → Prop) (cs : List Char) : Prop :=
  ∃ comment cr, cs = comment ++ cr ∧ (comment = [] ∨ ∃ c ∈ comment.head?, opens c) ∧
    (cr = [] ∨ cr = ['\r'])

/-- A line ends at its end or where a comment opens. -/
theorem ending_iff {opens : Char → Prop} {cs : List Char} :
    Ending opens cs ↔ isLineEnd cs = true ∨ ∃ c ∈ cs.head?, opens c := by
  constructor
  · rintro ⟨comment, cr, rfl, rfl | ⟨c, hc, hopens⟩, hcr⟩
    · left
      rcases hcr with rfl | rfl <;> rfl
    · right
      refine ⟨c, ?_, hopens⟩
      rw [List.head?_append, Option.mem_def.1 hc]
      rfl
  · rintro (hend | hcomment)
    · refine ⟨[], cs, rfl, .inl rfl, ?_⟩
      simpa [isLineEnd] using hend
    · exact ⟨cs, [], (List.append_nil cs).symm, .inr hcomment, .inl rfl⟩

theorem Ending.mono {opens opens' : Char → Prop} {cs : List Char} (h : Ending opens cs)
    (himp : ∀ c, opens c → opens' c) : Ending opens' cs := by
  obtain ⟨comment, cr, rfl, hcomment, hcr⟩ := h
  refine ⟨comment, cr, rfl, hcomment.imp_right ?_, hcr⟩
  rintro ⟨c, hc, hopens⟩
  exact ⟨c, hc, himp c hopens⟩

/-- The first character of an ending opens the comment or is the carriage return. -/
theorem Ending.stops {opens : Char → Prop} {cs : List Char} (h : Ending opens cs)
    {p : Char → Bool} (hopens : ∀ c, opens c → p c = false) (hcr : p '\r' = false) :
    Stops p cs := by
  intro d hd
  rcases ending_iff.1 h with hend | ⟨c, hc, ho⟩
  · rcases (by simpa [isLineEnd] using hend : cs = [] ∨ cs = ['\r']) with rfl | rfl
    · cases hd
    · obtain rfl : '\r' = d := by simpa using hd
      exact hcr
  · obtain rfl := Option.some.inj (Option.mem_def.1 hc ▸ Option.mem_def.1 hd)
    exact hopens c ho

/-- Whether a line ends behind blanks can be seen when they are skipped. -/
theorem ending_skipBlanks_iff {opens : Char → Prop} {cs : List Char}
    (hopens : ∀ c, opens c → isBlank c = false) :
    Ending opens (skipBlanks cs) ↔
      ∃ gap tail, cs = gap ++ tail ∧ Blanks gap ∧ Ending opens tail := by
  constructor
  · intro h
    obtain ⟨gap, hgap, hcs⟩ := exists_skipBlanks cs
    exact ⟨gap, skipBlanks cs, hcs, hgap, h⟩
  · rintro ⟨gap, tail, rfl, hgap, htail⟩
    rwa [skipBlanks_append hgap (htail.stops hopens rfl)]

/-! ### Outer white space -/

/-- `v` is `cs` without the characters of the class at either end. -/
def StrippedBy (p : Char → Bool) (cs v : List Char) : Prop :=
  ∃ lead tail, cs = lead ++ v ++ tail ∧ (∀ c ∈ lead, p c = true) ∧ (∀ c ∈ tail, p c = true) ∧
    (∀ c ∈ v.head?, p c = false) ∧ ∀ c ∈ v.getLast?, p c = false

/-- `v` is `cs` without its outer white space. -/
def Stripped (cs v : List Char) : Prop :=
  StrippedBy isOuterSpace cs v

/-- Trimming strips. -/
theorem strippedBy_trimBy (p : Char → Bool) (cs : List Char) : StrippedBy p cs (trimBy p cs) := by
  have hfront : cs = cs.takeWhile p ++ cs.dropWhile p := List.takeWhile_append_dropWhile.symm
  have hback : cs.dropWhile p =
      trimBy p cs ++ ((cs.dropWhile p).reverse.takeWhile p).reverse := by
    rw [trimBy, ← List.reverse_append, List.takeWhile_append_dropWhile, List.reverse_reverse]
  refine ⟨cs.takeWhile p, ((cs.dropWhile p).reverse.takeWhile p).reverse, ?_, ?_, ?_, ?_, ?_⟩
  · rw [List.append_assoc, ← hback, ← hfront]
  · exact fun c hc => List.mem_takeWhile_imp hc
  · exact fun c hc => List.mem_takeWhile_imp (List.mem_reverse.1 hc)
  · -- The first character that is left is where dropping from the front has stopped.
    intro c hc
    have hhead : c ∈ (cs.dropWhile p).head? := by
      rw [hback, List.head?_append, Option.mem_def.1 hc]
      rfl
    exact stops_dropWhile p cs c hhead
  · intro c hc
    rw [trimBy, List.getLast?_reverse] at hc
    exact stops_dropWhile p _ c hc

/-- There is one way to strip a text. -/
theorem trimBy_eq_iff {p : Char → Bool} {cs v : List Char} :
    trimBy p cs = v ↔ StrippedBy p cs v := by
  constructor
  · rintro rfl
    exact strippedBy_trimBy p cs
  · rintro ⟨lead, tail, rfl, hlead, htail, hhead, hlast⟩
    rw [trimBy, List.append_assoc, List.dropWhile_append_of_pos hlead]
    cases v with
    | nil =>
      have hnil : tail.dropWhile p = [] := List.dropWhile_eq_nil_iff.2 htail
      rw [List.nil_append, hnil]
      rfl
    | cons c v =>
      have hc : p c = false := hhead c rfl
      rw [List.cons_append, List.dropWhile_cons_of_neg (by simp [hc]), ← List.cons_append,
        List.reverse_append, dropWhile_append_of_stops, List.reverse_reverse]
      · intro d hd
        exact htail d (List.mem_reverse.1 hd)
      · intro d hd
        rw [List.head?_reverse] at hd
        exact hlast d hd

/-- There is one way to strip a text of its outer white space. -/
theorem trim_eq_iff {cs v : List Char} : trim cs = v ↔ Stripped cs v :=
  trimBy_eq_iff

/-- White space in front of a text and behind it does not count. -/
theorem trim_append {lead cs tail : List Char} (hlead : ∀ c ∈ lead, isOuterSpace c = true)
    (htail : ∀ c ∈ tail, isOuterSpace c = true) : trim (lead ++ cs ++ tail) = trim cs := by
  obtain ⟨front, back, hcs, hfront, hback, hhead, hlast⟩ := strippedBy_trimBy isOuterSpace cs
  refine trim_eq_iff.2 ⟨lead ++ front, back ++ tail, ?_, ?_, ?_, hhead, hlast⟩
  · conv_lhs => rw [hcs]
    simp [trim]
  · intro c hc
    rcases List.mem_append.1 hc with hc | hc
    · exact hlead c hc
    · exact hfront c hc
  · intro c hc
    rcases List.mem_append.1 hc with hc | hc
    · exact hback c hc
    · exact htail c hc

theorem Blanks.isOuterSpace {cs : List Char} (h : Blanks cs) :
    ∀ c ∈ cs, isOuterSpace c = true := by
  intro c hc
  rw [Text.isOuterSpace, isSpace_of_isBlank (blanks_iff.1 h c hc)]
  rfl

/-! ### Digits -/

/-- The digits in ascending order of their values. -/
def digitChars : List Char :=
  ['0', '1', '2', '3', '4', '5', '6', '7', '8', '9', 'a', 'b', 'c', 'd', 'e', 'f']

/-- `c` is a digit to `base`, in either letter case. -/
def IsDigit (base : Nat) (c : Char) : Prop :=
  c.toLower ∈ digitChars.take base

instance (base : Nat) (c : Char) : Decidable (IsDigit base c) :=
  inferInstanceAs (Decidable (c.toLower ∈ digitChars.take base))

/-- The value of a digit is its place among the digits. -/
def digitValue (c : Char) : Nat :=
  digitChars.idxOf c.toLower

/-- The number that digits denote, of which the first counts most. -/
def denoted (base : Nat) (ds : List Char) : Nat :=
  Nat.ofDigits base (ds.map digitValue).reverse

/-- What holds of the ASCII characters by inspection. -/
theorem forall_ascii {P : Char → Prop} (h : ∀ n < 128, P (Char.ofNat n)) {c : Char}
    (hc : c.toNat < 128) : P c := by
  have hP := h c.toNat hc
  rwa [Char.ofNat_toNat] at hP

theorem not_le_of_not_ascii {c : Char} (hc : ¬c.toNat < 128) {d : Char} (hd : d.toNat < 128) :
    ¬c ≤ d := by
  intro h
  have hle : c.toNat ≤ d.toNat := h
  omega

/-- Outside of ASCII no character has a small form. -/
theorem toLower_of_not_ascii {c : Char} (hc : ¬c.toNat < 128) : c.toLower = c := by
  rw [Char.toLower, dif_neg]
  rintro ⟨-, h⟩
  exact not_le_of_not_ascii hc (by decide : 'Z'.toNat < 128) h

theorem not_isDigit_of_not_ascii {c : Char} (hc : ¬c.toNat < 128) (base : Nat) :
    ¬IsDigit base c := by
  intro h
  have hmem : c ∈ digitChars := by
    rw [IsDigit, toLower_of_not_ascii hc] at h
    exact List.mem_of_mem_take h
  have hall : ∀ d ∈ digitChars, d.toNat < 128 := by simp [digitChars]
  exact hc (hall c hmem)

/-- The reader and the language have the same digits, with the same values. -/
theorem digit?_eq {base : Nat} (hbase : base = 10 ∨ base = 16) (c : Char) :
    digit? base c = if IsDigit base c then some (digitValue c) else none := by
  by_cases hc : c.toNat < 128
  · refine forall_ascii (P := fun c => digit? base c = if IsDigit base c then some (digitValue c)
      else none) ?_ hc
    rcases hbase with rfl | rfl <;> decide +kernel
  · rw [if_neg (not_isDigit_of_not_ascii hc base)]
    simp [digit?, not_le_of_not_ascii hc]

theorem isSome_digit? {base : Nat} (hbase : base = 10 ∨ base = 16) {c : Char} :
    (digit? base c).isSome = true ↔ IsDigit base c := by
  rw [digit?_eq hbase]
  split <;> simp [*]

/-- Digits are read as their values. -/
theorem filterMap_digit? {base : Nat} (hbase : base = 10 ∨ base = 16) {ds : List Char}
    (hds : ∀ c ∈ ds, IsDigit base c) : ds.filterMap (digit? base) = ds.map digitValue := by
  rw [← List.filterMap_eq_map']
  refine List.filterMap_congr fun c hc => ?_
  rw [digit?_eq hbase, if_pos (hds c hc)]

/-- The value of digits is that of the library, which starts from the last digit. -/
theorem ofDigits_eq (base : Nat) (ds : List Nat) :
    ofDigits base ds = Nat.ofDigits base ds.reverse := by
  induction ds using List.reverseRecOn with
  | nil => rfl
  | append_singleton ds d ih =>
    have hstep : ofDigits base (ds ++ [d]) = ofDigits base ds * base + d := by
      rw [ofDigits, List.foldl_append]
      rfl
    rw [hstep, ih, List.reverse_append, List.reverse_singleton, List.singleton_append,
      Nat.ofDigits_cons]
    ring

end Residency.Text
