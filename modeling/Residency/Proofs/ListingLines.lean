/-
Residency/Proofs/ListingLines.lean

The line language of function listings, and the reader that decides it.  `Statement.Form` has
the two formats of a statement, and `Listing.Line` says what may stand around a statement.
Nothing in them says in which order the parts are looked for, or how far a part reaches.

The reader goes from left to right and never goes back.  That it misses nothing is due to
what follows a part in the language: no part goes on with a character of the class of the
part before it, and the second format cannot be taken for the first one, because an angle
bracket is no character of a name (`sized?_eq_none`).
-/
import Residency.FunctionTable.Listing
import Residency.Proofs.Tokens

namespace Residency

open Text

/-! ### The language -/

namespace Statement

/-- A character of a name in the format with sizes. -/
def NameChar (c : Char) : Prop :=
  isSpace c = false ∧ c ≠ '<' ∧ c ≠ '>' ∧ c ≠ '#'

/-- The forms of a statement, and what they state. -/
inductive Form : List Char → Statement → Prop
  /-- Address, name and size, with blanks between them. -/
  | sized {mark : Char} {digits gap name gap' size : List Char} (hmark : mark = 'x' ∨ mark = 'X')
      (hdigits : Word (IsDigit 16) digits) (hgap : gap ≠ [] ∧ Blanks gap)
      (hname : Word NameChar name) (hgap' : gap' ≠ [] ∧ Blanks gap')
      (hsize : Word (IsDigit 10) size) :
      Form (['0', mark] ++ digits ++ gap ++ name ++ gap' ++ size)
        (.sized (denoted 16 digits) name size)
  /-- Address and name, the name in angle brackets and a colon behind them. -/
  | start {mark digits gap bracketed name : List Char}
      (hmark : mark = [] ∨ mark = ['0', 'x'] ∨ mark = ['0', 'X'])
      (hdigits : Word (IsDigit 16) digits) (hgap : Blanks gap)
      (hbracketed : Word (fun c => c ≠ '<' ∧ c ≠ '>') bracketed)
      (hname : Stripped bracketed name) :
      Form (mark ++ digits ++ gap ++ ['<'] ++ bracketed ++ ['>', ':'])
        (.start (denoted 16 digits) name)

end Statement

/-- The forms of a line of a listing, and the statement in it. -/
inductive Listing.Line : List Char → Option Statement → Prop
  | bare {lead tail : List Char} (hlead : Blanks lead) (htail : Ending (· = '#') tail) :
      Line (lead ++ tail) none
  | statement {lead form gap tail : List Char} {s : Statement} (hlead : Blanks lead)
      (hform : s.Form form) (hgap : Blanks gap) (htail : Ending (· = '#') tail) :
      Line (lead ++ form ++ gap ++ tail) (some s)

namespace Statement

/-! ### Classes of characters -/

theorem isHexDigit_iff {c : Char} : isHexDigit c = true ↔ IsDigit 16 c :=
  isSome_digit? (.inr rfl)

theorem isDecimalDigit_iff {c : Char} : isDecimalDigit c = true ↔ IsDigit 10 c :=
  isSome_digit? (.inl rfl)

/-- The reader and the language have the same characters of names. -/
theorem isNameChar_iff {c : Char} : isNameChar c = true ↔ NameChar c := by
  simp [isNameChar, NameChar, and_assoc]

/-- A blank ends a name. -/
theorem isNameChar_of_isBlank {c : Char} (h : isBlank c = true) : isNameChar c = false := by
  simp [isNameChar, isSpace_of_isBlank h]

theorem isBlank_of_nameChar {c : Char} (h : NameChar c) : isBlank c = false := by
  by_contra hc
  have hspace := isSpace_of_isBlank (Bool.eq_true_of_not_eq_false hc)
  rw [h.1] at hspace
  cases hspace

theorem isBlank_of_isDigit {base : Nat} {c : Char} (h : IsDigit base c) : isBlank c = false := by
  have hmem : c.toLower ∈ digitChars := List.mem_of_mem_take h
  by_contra hc
  rcases isBlank_iff.1 (Bool.eq_true_of_not_eq_false hc) with rfl | rfl <;>
    simp [digitChars] at hmem

/-- A blank ends an address. -/
theorem isHexDigit_of_isBlank {c : Char} (h : isBlank c = true) : isHexDigit c = false := by
  rcases isBlank_iff.1 h with rfl | rfl <;> rfl

/-- A blank ends a size. -/
theorem isDecimalDigit_of_isBlank {c : Char} (h : isBlank c = true) : isDecimalDigit c = false := by
  rcases isBlank_iff.1 h with rfl | rfl <;> rfl

/-- The reader takes digits for the number that they denote. -/
theorem valueOf_eq {base : Nat} (hbase : base = 10 ∨ base = 16) {ds : List Char}
    (hds : ∀ c ∈ ds, IsDigit base c) : valueOf base ds = denoted base ds := by
  rw [valueOf, filterMap_digit? hbase hds, ofDigits_eq, denoted]

/-! ### Parts of a statement -/

variable {cs rest : List Char}

/-- The reader takes the longest word of a class. -/
theorem many1?_eq_some {p : Char → Bool} {w : List Char} :
    many1? p cs = some (w, rest) ↔ cs = w ++ rest ∧ Word (p · = true) w ∧ Stops p rest := by
  constructor
  · intro h
    rw [many1?] at h
    split at h
    · cases h
    · rename_i hne
      obtain ⟨rfl, rfl⟩ := Prod.mk.inj (Option.some.inj h)
      refine ⟨List.takeWhile_append_dropWhile.symm, ⟨?_, ?_⟩, stops_dropWhile p cs⟩
      · simpa using hne
      · exact fun c hc => List.mem_takeWhile_imp hc
  · rintro ⟨rfl, hw, hrest⟩
    rw [many1?, takeWhile_append_of_stops hw.2 hrest, dropWhile_append_of_stops hw.2 hrest]
    simp [hw.1]

theorem many1?_eq_none {p : Char → Bool} (h : Stops p cs) : many1? p cs = none := by
  rw [many1?]
  cases cs with
  | nil => rfl
  | cons c cs => simp [stops_cons.1 h]

/-- Between two parts the reader takes all blanks, of which there must be one. -/
theorem separator?_eq_some : separator? cs = some rest ↔
    ∃ gap, cs = gap ++ rest ∧ (gap ≠ [] ∧ Blanks gap) ∧ Stops isBlank rest := by
  rw [separator?, Option.map_eq_some_iff]
  constructor
  · rintro ⟨⟨gap, rest'⟩, h, rfl⟩
    obtain ⟨hcs, hgap, hrest⟩ := many1?_eq_some.1 h
    exact ⟨gap, hcs, ⟨hgap.1, blanks_iff.2 hgap.2⟩, hrest⟩
  · rintro ⟨gap, hcs, hgap, hrest⟩
    exact ⟨(gap, rest), many1?_eq_some.2 ⟨hcs, ⟨hgap.1, blanks_iff.1 hgap.2⟩, hrest⟩, rfl⟩

/-- A word of hexadecimal digits is read with its value. -/
theorem hexWord_eq_some {n : Nat} :
    ((many1? isHexDigit cs).map fun (ds, rest) => (valueOf 16 ds, rest)) = some (n, rest) ↔
      ∃ digits, cs = digits ++ rest ∧ Word (IsDigit 16) digits ∧ Stops isHexDigit rest ∧
        n = denoted 16 digits := by
  have hword : ∀ ds, Word (isHexDigit · = true) ds ↔ Word (IsDigit 16) ds := by
    intro ds
    simp only [Word, isHexDigit_iff]
  rw [Option.map_eq_some_iff]
  constructor
  · rintro ⟨⟨digits, rest'⟩, h, heq⟩
    obtain ⟨rfl, rfl⟩ := Prod.mk.inj heq
    obtain ⟨hcs, hdigits, hrest⟩ := many1?_eq_some.1 h
    have hdigits' := (hword digits).1 hdigits
    exact ⟨digits, hcs, hdigits', hrest, valueOf_eq (.inr rfl) hdigits'.2⟩
  · rintro ⟨digits, hcs, hdigits, hrest, rfl⟩
    refine ⟨(digits, rest), many1?_eq_some.2 ⟨hcs, (hword digits).2 hdigits, hrest⟩, ?_⟩
    show (valueOf 16 digits, rest) = _
    rw [valueOf_eq (.inr rfl) hdigits.2]

/-- A marked address is a zero, a mark and all digits that follow. -/
theorem markedHex?_eq_some {n : Nat} : markedHex? cs = some (n, rest) ↔
    ∃ mark digits, cs = '0' :: mark :: (digits ++ rest) ∧ (mark = 'x' ∨ mark = 'X') ∧
      Word (IsDigit 16) digits ∧ Stops isHexDigit rest ∧ n = denoted 16 digits := by
  constructor
  · intro h
    unfold markedHex? at h
    split at h
    · rename_i mark cs'
      split at h
      · rename_i hmark
        obtain ⟨digits, rfl, hdigits⟩ := hexWord_eq_some.1 h
        exact ⟨mark, digits, rfl, by simpa using hmark, hdigits⟩
      · cases h
    · cases h
  · rintro ⟨mark, digits, rfl, hmark, hdigits⟩
    have hmark' : (mark = 'x' || mark = 'X') = true := by simpa using hmark
    rw [markedHex?, if_pos hmark']
    exact hexWord_eq_some.2 ⟨digits, rfl, hdigits⟩

/-! ### The format with sizes -/

/-- What is read in the format with sizes has that form. -/
theorem form_of_sized? {s : Statement} (h : sized? cs = some (s, rest)) :
    ∃ form, cs = form ++ rest ∧ s.Form form := by
  simp only [sized?, Option.bind_eq_bind, Option.bind_eq_some_iff, Prod.exists] at h
  obtain ⟨_, _, h₁, _, h₂, name, _, h₃, _, h₄, size, _, h₅, h⟩ := h
  obtain ⟨mark, digits, rfl, hmark, hdigits, -, rfl⟩ := markedHex?_eq_some.1 h₁
  obtain ⟨gap, rfl, hgap, -⟩ := separator?_eq_some.1 h₂
  obtain ⟨rfl, hname, -⟩ := many1?_eq_some.1 h₃
  obtain ⟨gap', rfl, hgap', -⟩ := separator?_eq_some.1 h₄
  obtain ⟨rfl, hsize, -⟩ := many1?_eq_some.1 h₅
  obtain ⟨rfl, rfl⟩ := Prod.mk.inj (Option.some.inj h)
  refine ⟨_, ?_, .sized hmark hdigits hgap ⟨hname.1, ?_⟩ hgap' ⟨hsize.1, ?_⟩⟩
  · simp
  · exact fun c hc => isNameChar_iff.1 (hname.2 c hc)
  · exact fun c hc => isDecimalDigit_iff.1 (hsize.2 c hc)

/-- What has the form with sizes is read, up to where the digits stop. -/
theorem sized?_append {mark : Char} {digits gap name gap' size : List Char}
    (hmark : mark = 'x' ∨ mark = 'X') (hdigits : Word (IsDigit 16) digits)
    (hgap : gap ≠ [] ∧ Blanks gap) (hname : Word NameChar name)
    (hgap' : gap' ≠ [] ∧ Blanks gap') (hsize : Word (IsDigit 10) size)
    (hrest : Stops isDecimalDigit rest) :
    sized? ('0' :: mark :: (digits ++ (gap ++ (name ++ (gap' ++ (size ++ rest)))))) =
      some (sized (denoted 16 digits) name size, rest) := by
  have hblank : ∀ {gap : List Char}, gap ≠ [] ∧ Blanks gap → Word (isBlank · = true) gap :=
    fun h => ⟨h.1, blanks_iff.1 h.2⟩
  have h₁ : markedHex? ('0' :: mark :: (digits ++ (gap ++ (name ++ (gap' ++ (size ++ rest)))))) =
      some (denoted 16 digits, gap ++ (name ++ (gap' ++ (size ++ rest)))) :=
    markedHex?_eq_some.2 ⟨mark, digits, rfl, hmark, hdigits,
      (hblank hgap).stops (fun _ => isHexDigit_of_isBlank) _, rfl⟩
  have h₂ : separator? (gap ++ (name ++ (gap' ++ (size ++ rest)))) =
      some (name ++ (gap' ++ (size ++ rest))) :=
    separator?_eq_some.2 ⟨gap, rfl, hgap, hname.stops (fun _ => isBlank_of_nameChar) _⟩
  have h₃ : many1? isNameChar (name ++ (gap' ++ (size ++ rest))) =
      some (name, gap' ++ (size ++ rest)) :=
    many1?_eq_some.2 ⟨rfl, ⟨hname.1, fun c hc => isNameChar_iff.2 (hname.2 c hc)⟩,
      (hblank hgap').stops (fun _ => isNameChar_of_isBlank) _⟩
  have h₄ : separator? (gap' ++ (size ++ rest)) = some (size ++ rest) :=
    separator?_eq_some.2 ⟨gap', rfl, hgap', hsize.stops (fun _ => isBlank_of_isDigit) _⟩
  have h₅ : many1? isDecimalDigit (size ++ rest) = some (size, rest) :=
    many1?_eq_some.2 ⟨rfl, ⟨hsize.1, fun c hc => isDecimalDigit_iff.2 (hsize.2 c hc)⟩, hrest⟩
  simp only [sized?, h₁, h₂, h₃, h₄, h₅, Option.bind_eq_bind, Option.bind_some]
  rfl

/-! ### The format without sizes -/

/-- An address in the other format may have a mark or not. -/
theorem exists_of_bareHex? {n : Nat} (h : bareHex? cs = some (n, rest)) :
    ∃ mark digits, cs = mark ++ digits ++ rest ∧
      (mark = [] ∨ mark = ['0', 'x'] ∨ mark = ['0', 'X']) ∧ Word (IsDigit 16) digits ∧
      n = denoted 16 digits := by
  unfold bareHex? at h
  split at h
  · rename_i r hmarked
    obtain rfl := Option.some.inj h
    obtain ⟨mark, digits, rfl, hmark, hdigits, -, hn⟩ := markedHex?_eq_some.1 hmarked
    refine ⟨['0', mark], digits, rfl, ?_, hdigits, hn⟩
    rcases hmark with rfl | rfl
    · exact .inr (.inl rfl)
    · exact .inr (.inr rfl)
  · obtain ⟨digits, rfl, hdigits, -, hn⟩ := hexWord_eq_some.1 h
    exact ⟨[], digits, rfl, .inl rfl, hdigits, hn⟩

/-- Digits without a mark are not read as digits with one. -/
theorem markedHex?_eq_none {digits : List Char} (hdigits : Word (IsDigit 16) digits)
    (hrest : Stops (fun c => c = 'x' || c = 'X') rest) : markedHex? (digits ++ rest) = none := by
  rw [Option.eq_none_iff_forall_ne_some]
  rintro ⟨n, rest'⟩ h
  obtain ⟨mark, ds, hsplit, hmark, -⟩ := markedHex?_eq_some.1 h
  -- The mark is the second digit or follows a single one.
  rcases digits with - | ⟨c, - | ⟨d, digits⟩⟩
  · exact hdigits.1 rfl
  · obtain ⟨-, rfl⟩ := List.cons.inj hsplit
    have hstop := stops_cons.1 hrest
    rcases hmark with rfl | rfl <;> simp at hstop
  · obtain ⟨rfl, -⟩ := List.cons.inj (List.cons.inj hsplit).2
    have hd : IsDigit 16 d := hdigits.2 d (by simp)
    rcases hmark with rfl | rfl <;> revert hd <;> decide

/-- Such an address is read up to the angle bracket. -/
theorem bareHex?_append {mark digits gap : List Char}
    (hmark : mark = [] ∨ mark = ['0', 'x'] ∨ mark = ['0', 'X'])
    (hdigits : Word (IsDigit 16) digits) (hgap : Blanks gap) (more : List Char) :
    bareHex? (mark ++ (digits ++ (gap ++ '<' :: more))) =
      some (denoted 16 digits, gap ++ '<' :: more) := by
  have hstops : Stops isHexDigit (gap ++ '<' :: more) :=
    hgap.stops (fun _ => isHexDigit_of_isBlank) (stops_cons.2 (by decide))
  have hmarked : ∀ c, c = 'x' ∨ c = 'X' → bareHex? ('0' :: c :: (digits ++ (gap ++ '<' :: more))) =
      some (denoted 16 digits, gap ++ '<' :: more) := by
    intro c hc
    rw [bareHex?, markedHex?_eq_some.2 ⟨c, digits, rfl, hc, hdigits, hstops, rfl⟩]
  rcases hmark with rfl | rfl | rfl
  · have hunmarked : markedHex? (digits ++ (gap ++ '<' :: more)) = none := by
      refine markedHex?_eq_none hdigits (hgap.stops ?_ (stops_cons.2 (by decide)))
      intro c hc
      rcases isBlank_iff.1 hc with rfl | rfl <;> rfl
    rw [List.nil_append, bareHex?, hunmarked]
    exact hexWord_eq_some.2 ⟨digits, rfl, hdigits, hstops, rfl⟩
  · exact hmarked 'x' (.inl rfl)
  · exact hmarked 'X' (.inr rfl)

/-- What is read in the format without sizes has that form. -/
theorem form_of_start? {s : Statement} (h : start? cs = some (s, rest)) :
    ∃ form, cs = form ++ rest ∧ s.Form form := by
  simp only [start?, Option.bind_eq_bind, Option.bind_eq_some_iff, Prod.exists] at h
  obtain ⟨_, cs', h₁, h⟩ := h
  obtain ⟨mark, digits, rfl, hmark, hdigits, rfl⟩ := exists_of_bareHex? h₁
  obtain ⟨gap, hgap, hcs'⟩ := exists_skipBlanks cs'
  split at h
  · rename_i more hmore
    simp only [Option.bind_eq_some_iff, Prod.exists] at h
    obtain ⟨bracketed, _, h₂, h⟩ := h
    obtain ⟨rfl, hbracketed, -⟩ := many1?_eq_some.1 h₂
    split at h
    · obtain ⟨rfl, rfl⟩ := Prod.mk.inj (Option.some.inj h)
      refine ⟨_, ?_, .start hmark hdigits hgap ⟨hbracketed.1, fun c hc => ?_⟩ (trim_eq_iff.1 rfl)⟩
      · rw [hcs', hmore]
        simp
      · have hchar := hbracketed.2 c hc
        simp only [isBracketedChar, Bool.and_eq_true, bne_iff_ne] at hchar
        exact hchar.1
    · cases h
  · cases h

/-- What has the form without sizes is read, up to the colon. -/
theorem start?_append {mark digits gap bracketed name : List Char}
    (hmark : mark = [] ∨ mark = ['0', 'x'] ∨ mark = ['0', 'X'])
    (hdigits : Word (IsDigit 16) digits) (hgap : Blanks gap)
    (hbracketed : Word (fun c => c ≠ '<' ∧ c ≠ '>') bracketed) (hline : '\n' ∉ bracketed)
    (hname : Stripped bracketed name) (rest : List Char) :
    start? (mark ++ (digits ++ (gap ++ '<' :: (bracketed ++ '>' :: ':' :: rest)))) =
      some (start (denoted 16 digits) name, rest) := by
  have h₁ := bareHex?_append hmark hdigits hgap (bracketed ++ '>' :: ':' :: rest)
  have h₂ : skipBlanks (gap ++ '<' :: (bracketed ++ '>' :: ':' :: rest)) =
      '<' :: (bracketed ++ '>' :: ':' :: rest) :=
    skipBlanks_append hgap (stops_cons.2 (by decide))
  have h₃ : many1? isBracketedChar (bracketed ++ '>' :: ':' :: rest) =
      some (bracketed, '>' :: ':' :: rest) := by
    refine many1?_eq_some.2 ⟨rfl, ⟨hbracketed.1, fun c hc => ?_⟩, stops_cons.2 (by decide)⟩
    have hne : c ≠ '\n' := fun h => hline (h ▸ hc)
    simp [isBracketedChar, hbracketed.2 c hc, hne]
  simp only [start?, h₁, h₂, h₃, trim_eq_iff.2 hname, Option.bind_eq_bind, Option.bind_some]
  rfl

/-- A statement without size is not read as one with a size. -/
theorem sized?_eq_none {n : Nat} {gap more : List Char} (hgap : Blanks gap)
    (h : bareHex? cs = some (n, gap ++ '<' :: more)) : sized? cs = none := by
  rw [Option.eq_none_iff_forall_ne_some]
  rintro ⟨s, rest⟩ hsized
  simp only [sized?, Option.bind_eq_bind, Option.bind_eq_some_iff, Prod.exists] at hsized
  obtain ⟨n', cs₁, h₁, cs₂, h₂, name, cs₃, h₃, -⟩ := hsized
  have hbare : bareHex? cs = some (n', cs₁) := by rw [bareHex?, h₁]
  obtain ⟨-, rfl⟩ := Prod.mk.inj (Option.some.inj (h.symm.trans hbare))
  obtain ⟨gap', hsplit, hgap', hstops⟩ := separator?_eq_some.1 h₂
  -- What follows the blanks is the bracket, which is no character of a name.
  have hcs₂ : '<' :: more = cs₂ := by
    rw [← skipBlanks_append hgap (stops_cons.2 (by decide) : Stops isBlank ('<' :: more)), hsplit,
      skipBlanks_append hgap'.2 hstops]
  rw [← hcs₂, many1?_eq_none (stops_cons.2 (by decide))] at h₃
  cases h₃

/-! ### Statements and lines -/

/-- A statement starts with a digit. -/
theorem Form.exists_cons {form : List Char} {s : Statement} (h : s.Form form) :
    ∃ c rest, form = c :: rest ∧ IsDigit 16 c := by
  have hzero : IsDigit 16 '0' := by decide
  cases h with
  | sized => exact ⟨'0', _, by simp; rfl, hzero⟩
  | start hmark hdigits =>
    rcases hmark with rfl | rfl | rfl
    · obtain ⟨c, digits, rfl⟩ := List.exists_cons_of_ne_nil hdigits.1
      exact ⟨c, _, by simp; rfl, hdigits.2 c List.mem_cons_self⟩
    · exact ⟨'0', _, by simp; rfl, hzero⟩
    · exact ⟨'0', _, by simp; rfl, hzero⟩

/-- What is read has one of the forms. -/
theorem form_of_read? {s : Statement} (h : read? cs = some (s, rest)) :
    ∃ form, cs = form ++ rest ∧ s.Form form := by
  unfold read? at h
  split at h
  · rename_i r hsized
    obtain rfl := Option.some.inj h
    exact form_of_sized? hsized
  · exact form_of_start? h

/-- What has one of the forms is read. -/
theorem read?_append {form : List Char} {s : Statement} (hform : s.Form form)
    (hline : '\n' ∉ form) (hrest : Stops isDecimalDigit rest) :
    read? (form ++ rest) = some (s, rest) := by
  cases hform with
  | sized hmark hdigits hgap hname hgap' hsize =>
    have h := sized?_append hmark hdigits hgap hname hgap' hsize hrest
    simp only [read?, List.append_assoc, List.cons_append, List.nil_append, h]
  | @start mark digits gap bracketed name hmark hdigits hgap hbracketed hname =>
    have hbare := bareHex?_append hmark hdigits hgap (bracketed ++ '>' :: ':' :: rest)
    have hstart := start?_append hmark hdigits hgap hbracketed (fun h => hline (by simp [h])) hname
      rest
    simp only [read?, List.append_assoc, List.cons_append, List.nil_append,
      sized?_eq_none hgap hbare, hstart]

theorem read?_eq_none (h : Stops isHexDigit cs) : read? cs = none := by
  rw [Option.eq_none_iff_forall_ne_some]
  rintro ⟨s, rest⟩ hread
  obtain ⟨form, rfl, hform⟩ := form_of_read? hread
  obtain ⟨c, form, rfl, hc⟩ := hform.exists_cons
  rw [List.cons_append, stops_cons, isHexDigit_iff.2 hc] at h
  cases h

/-- A line may close with blanks and a comment. -/
theorem closes_iff : closes cs = true ↔
    ∃ gap tail, cs = gap ++ tail ∧ Blanks gap ∧ Ending (· = '#') tail := by
  have hends : closes cs = true ↔ Ending (· = '#') (skipBlanks cs) := by
    simp [closes, ending_iff]
  rw [hends, ending_skipBlanks_iff (by rintro c rfl; rfl)]

/-- A line that is read belongs to the language. -/
theorem line_of_ofLine? {l : List Char} {o : Option Statement} (h : ofLine? l = some o) :
    Listing.Line l o := by
  obtain ⟨lead, hlead, hsplit⟩ := exists_skipBlanks l
  simp only [ofLine?] at h
  split at h
  · rename_i s rest hread
    split at h
    · rename_i hcloses
      obtain rfl := Option.some.inj h
      obtain ⟨form, hbody, hform⟩ := form_of_read? hread
      obtain ⟨gap, tail, rfl, hgap, htail⟩ := closes_iff.1 hcloses
      rw [hsplit, hbody, ← List.append_assoc, ← List.append_assoc]
      exact .statement hlead hform hgap htail
    · cases h
  · split at h
    · rename_i hcloses
      obtain rfl := Option.some.inj h
      obtain ⟨gap, tail, hbody, hgap, htail⟩ := closes_iff.1 hcloses
      rw [hsplit, hbody, ← List.append_assoc]
      exact .bare (hlead.append hgap) htail
    · cases h

/-- A line of the language is read. -/
theorem ofLine?_of_line {l : List Char} (hl : '\n' ∉ l) {o : Option Statement}
    (h : Listing.Line l o) : ofLine? l = some o := by
  cases h with
  | @bare lead tail hlead htail =>
    have hbody : skipBlanks (lead ++ tail) = tail :=
      skipBlanks_append hlead (htail.stops (by rintro c rfl; rfl) rfl)
    have hread : read? tail = none := read?_eq_none (htail.stops (by rintro c rfl; rfl) rfl)
    have hcloses : closes tail = true :=
      closes_iff.2 ⟨[], tail, rfl, List.forall_mem_nil _, htail⟩
    simp only [ofLine?, hbody, hread, hcloses, if_true]
  | @statement lead form gap tail s hlead hform hgap htail =>
    have hbody : skipBlanks (lead ++ form ++ gap ++ tail) = form ++ (gap ++ tail) := by
      rw [List.append_assoc, List.append_assoc]
      obtain ⟨c, rest, rfl, hc⟩ := hform.exists_cons
      exact skipBlanks_append hlead (stops_cons.2 (isBlank_of_isDigit hc))
    have hstops : Stops isDecimalDigit (gap ++ tail) :=
      hgap.stops (fun _ => isDecimalDigit_of_isBlank) (htail.stops (by rintro c rfl; rfl) rfl)
    have hread : read? (form ++ (gap ++ tail)) = some (s, gap ++ tail) :=
      read?_append hform (fun h => hl (by simp [h])) hstops
    have hcloses : closes (gap ++ tail) = true := closes_iff.2 ⟨gap, tail, rfl, hgap, htail⟩
    simp only [ofLine?, hbody, hread, hcloses, if_true]

/-- The reader decides the line language. -/
theorem ofLine?_eq_some {l : List Char} (hl : '\n' ∉ l) {o : Option Statement} :
    ofLine? l = some o ↔ Listing.Line l o :=
  ⟨line_of_ofLine?, ofLine?_of_line hl⟩

end Statement

end Residency
