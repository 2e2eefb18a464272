/-
Residency/Proofs/OptionLines.lean

The line language of options, and the reader that decides it.  `Options.Line` has the two
forms of a line.  An exclamation mark opens a comment only on a line without an option, since
on the others it belongs to the value.

The blanks behind the equals sign and behind the value may also be counted to the value, so a
line can have the form of an option in several ways.  They all say the same, because a value
is given without its outer white space (`trim_skipBlanks`).
-/
import Residency.Settings.Options
import Residency.Proofs.Tokens

namespace Residency.Options

open Text

/-! ### The language -/

/-- A first character of a key. -/
def KeyStart (c : Char) : Prop :=
  c.isAlpha = true ∨ c = '_'

/-- Any other character of a key. -/
def KeyChar (c : Char) : Prop :=
  c.isAlphanum = true ∨ c = '_' ∨ c = '.' ∨ c = '-'

/-- A key with its namespace. -/
def Key (key : List Char) : Prop :=
  ∃ c cs, key = c :: cs ∧ KeyStart c ∧ ∀ d ∈ cs, KeyChar d

/-- `name` is the part of `key` behind its last dot. -/
def Local (key name : List Char) : Prop :=
  '.' ∉ name ∧ (key = name ∨ ∃ space, key = space ++ '.' :: name)

/-- A character of a value. -/
def ValueChar (c : Char) : Prop :=
  c ≠ '#' ∧ c ≠ '\r' ∧ c ≠ '\n'

/-- The forms of a line, and the name and the value on it. -/
inductive Line : List Char → Option (List Char × List Char) → Prop
  | bare {lead tail : List Char} (hlead : Blanks lead)
      (htail : Ending (fun c => c = '#' ∨ c = '!') tail) : Line (lead ++ tail) none
  | option {lead key gap raw gap' tail name value : List Char} (hlead : Blanks lead)
      (hkey : Key key) (hgap : Blanks gap) (hraw : ∀ c ∈ raw, ValueChar c) (hgap' : Blanks gap')
      (htail : Ending (· = '#') tail) (hname : Local key name) (hvalue : Stripped raw value) :
      Line (lead ++ key ++ gap ++ ['='] ++ raw ++ gap' ++ tail) (some (name, value))

/-! ### Keys and values -/

theorem isKeyStart_iff {c : Char} : isKeyStart c = true ↔ KeyStart c := by
  simp only [isKeyStart, KeyStart, Char.isAlpha, Char.isUpper, Char.isLower, Bool.or_eq_true,
    Bool.and_eq_true, decide_eq_true_eq, beq_iff_eq, Char.le_def]
  tauto

/-- The reader and the language have the same characters of keys. -/
theorem isKeyChar_iff {c : Char} : isKeyChar c = true ↔ KeyChar c := by
  simp only [isKeyChar, isKeyStart, KeyChar, Char.isAlphanum, Char.isDigit, Char.isAlpha,
    Char.isUpper, Char.isLower, Bool.or_eq_true, Bool.and_eq_true, decide_eq_true_eq, beq_iff_eq,
    Char.le_def]
  tauto

/-- A key is a run of key characters that begins as a key may. -/
theorem key_iff {key : List Char} :
    Key key ↔ key.head?.any isKeyStart = true ∧ ∀ c ∈ key, isKeyChar c = true := by
  constructor
  · rintro ⟨c, cs, rfl, hc, hcs⟩
    have hc' := isKeyStart_iff.2 hc
    refine ⟨by simpa using hc', fun d hd => ?_⟩
    rcases List.mem_cons.1 hd with rfl | hd
    · simp [isKeyChar, hc']
    · exact isKeyChar_iff.2 (hcs d hd)
  · rintro ⟨hhead, hall⟩
    cases key with
    | nil => cases hhead
    | cons c cs =>
      exact ⟨c, cs, rfl, isKeyStart_iff.1 (by simpa using hhead),
        fun d hd => isKeyChar_iff.1 (hall d (List.mem_cons_of_mem c hd))⟩

/-- The reader and the language have the same characters of values. -/
theorem isValueChar_iff {c : Char} : isValueChar c = true ↔ ValueChar c := by
  simp [isValueChar, ValueChar, and_assoc]

theorem valueChar_of_blanks {cs : List Char} (h : Blanks cs) : ∀ c ∈ cs, ValueChar c := by
  intro c hc
  rcases h c hc with rfl | rfl <;> simp [ValueChar]

theorem Key.stops_isBlank {key : List Char} (h : Key key) (rest : List Char) :
    Stops isBlank (key ++ rest) := by
  obtain ⟨c, cs, rfl, hc, -⟩ := h
  refine stops_cons.2 ?_
  by_contra hblank
  rcases isBlank_iff.1 (Bool.eq_true_of_not_eq_false hblank) with rfl | rfl <;>
    simp [KeyStart] at hc

/-- The local name is the part behind the last dot. -/
theorem localName_eq_iff {key name : List Char} : localName key = name ↔ Local key name := by
  have hname : ∀ {name : List Char}, '.' ∉ name → ∀ c ∈ name.reverse, (c != '.') = true := by
    intro name hname c hc
    rw [bne_iff_ne]
    rintro rfl
    exact hname (List.mem_reverse.1 hc)
  constructor
  · rintro rfl
    have hsplit : key = (key.reverse.dropWhile (· != '.')).reverse ++ localName key := by
      rw [localName, ← List.reverse_append, List.takeWhile_append_dropWhile, List.reverse_reverse]
    refine ⟨?_, ?_⟩
    · intro hdot
      have := List.mem_takeWhile_imp (List.mem_reverse.1 hdot)
      simp at this
    · have hstops := stops_dropWhile (· != '.') key.reverse
      cases hspace : key.reverse.dropWhile (· != '.') with
      | nil =>
        rw [hspace] at hsplit
        exact .inl hsplit
      | cons c space =>
        rw [hspace] at hsplit hstops
        obtain rfl : c = '.' := by simpa using hstops
        right
        refine ⟨space.reverse, ?_⟩
        simpa using hsplit
  · rintro ⟨hdot, rfl | ⟨space, rfl⟩⟩
    · rw [localName, ← List.append_nil key.reverse,
        takeWhile_append_of_stops (hname hdot) stops_nil, List.reverse_reverse]
    · rw [localName, List.reverse_append, List.reverse_cons, List.append_assoc,
        takeWhile_append_of_stops (hname hdot) (by simp), List.reverse_reverse]

/-! ### Reading a line -/

variable {cs key gap rest : List Char}

/-- What is read as an option has a key, an equals sign and a value. -/
theorem exists_of_option? {raw : List Char} (h : option? cs = some ((key, raw), rest)) :
    ∃ gap gap', cs = key ++ gap ++ ['='] ++ (gap' ++ raw) ++ rest ∧ Key key ∧ Blanks gap ∧
      Blanks gap' ∧ (∀ c ∈ raw, ValueChar c) ∧ Stops isValueChar rest := by
  unfold option? at h
  split at h
  · rename_i hstart
    split at h
    · rename_i more hmore
      obtain ⟨hpair, rfl⟩ := Prod.mk.inj (Option.some.inj h)
      obtain ⟨rfl, rfl⟩ := Prod.mk.inj hpair
      obtain ⟨gap, hgap, hsplit⟩ := exists_skipBlanks (cs.dropWhile isKeyChar)
      obtain ⟨gap', hgap', hsplit'⟩ := exists_skipBlanks more
      rw [hmore] at hsplit
      refine ⟨gap, gap', ?_, key_iff.2 ⟨?_, ?_⟩, hgap, hgap', ?_, stops_dropWhile _ _⟩
      · calc cs = cs.takeWhile isKeyChar ++ cs.dropWhile isKeyChar :=
              List.takeWhile_append_dropWhile.symm
          _ = cs.takeWhile isKeyChar ++ (gap ++ '=' :: (gap' ++ skipBlanks more)) := by
              rw [hsplit, ← hsplit']
          _ = cs.takeWhile isKeyChar ++ (gap ++ '=' :: (gap' ++
                ((skipBlanks more).takeWhile isValueChar ++
                  (skipBlanks more).dropWhile isValueChar))) := by
              rw [List.takeWhile_append_dropWhile]
          _ = _ := by simp
      · cases cs with
        | nil => cases hstart
        | cons c cs =>
          have hc : isKeyStart c = true := by simpa using hstart
          simp [isKeyChar, hc]
      · exact fun c hc => List.mem_takeWhile_imp hc
      · exact fun c hc => isValueChar_iff.1 (List.mem_takeWhile_imp hc)
    · cases h
  · cases h

/-- Blanks are skipped up to what is no blank. -/
theorem skipBlanks_append_of_stops (cs : List Char) (hrest : Stops isBlank rest) :
    skipBlanks (cs ++ rest) = skipBlanks cs ++ rest := by
  obtain ⟨lead, hlead, hsplit⟩ := exists_skipBlanks cs
  have hstops : Stops isBlank (skipBlanks cs ++ rest) := by
    have hcs := stops_dropWhile isBlank cs
    cases hskip : cs.dropWhile isBlank with
    | nil => rwa [skipBlanks, hskip]
    | cons c more =>
      rw [hskip] at hcs
      rw [skipBlanks, hskip]
      exact stops_cons.2 (stops_cons.1 hcs)
  conv_lhs => rw [hsplit, List.append_assoc]
  exact skipBlanks_append hlead hstops

/-- Blanks in front of a value do not count. -/
theorem trim_skipBlanks (cs : List Char) : trim (skipBlanks cs) = trim cs := by
  obtain ⟨lead, hlead, hsplit⟩ := exists_skipBlanks cs
  have htrim : trim (lead ++ skipBlanks cs ++ []) = trim (skipBlanks cs) :=
    trim_append hlead.isOuterSpace (List.forall_mem_nil _)
  rw [← htrim, List.append_nil, ← hsplit]

/-- A key, an equals sign and a value are read as an option. -/
theorem option?_append (hkey : Key key) (hgap : Blanks gap) {raw : List Char}
    (hraw : ∀ c ∈ raw, ValueChar c) (hrest : Stops isValueChar rest) (hrest' : Stops isBlank rest) :
    option? (key ++ (gap ++ '=' :: (raw ++ rest))) = some ((key, skipBlanks raw), rest) := by
  obtain ⟨hstart, hall⟩ := key_iff.1 hkey
  have hstart' : (key ++ (gap ++ '=' :: (raw ++ rest))).head?.any isKeyStart = true := by
    cases key with
    | nil => cases hstart
    | cons c key => exact hstart
  have hkeyStops : Stops isKeyChar (gap ++ '=' :: (raw ++ rest)) := by
    refine hgap.stops ?_ (stops_cons.2 (by decide))
    intro c hc
    rcases isBlank_iff.1 hc with rfl | rfl <;> rfl
  have hequals : skipBlanks (gap ++ '=' :: (raw ++ rest)) = '=' :: (raw ++ rest) :=
    skipBlanks_append hgap (stops_cons.2 (by decide))
  have hvalue : ∀ c ∈ skipBlanks raw, isValueChar c = true :=
    fun c hc => isValueChar_iff.2 (hraw c ((List.dropWhile_sublist _).subset hc))
  simp only [option?, if_pos hstart', dropWhile_append_of_stops hall hkeyStops,
    takeWhile_append_of_stops hall hkeyStops, hequals, skipBlanks_append_of_stops raw hrest',
    takeWhile_append_of_stops hvalue hrest, dropWhile_append_of_stops hvalue hrest]

theorem option?_eq_none (h : Stops isKeyStart cs) : option? cs = none := by
  rw [option?, if_neg]
  cases cs with
  | nil => simp
  | cons c cs => simp [stops_cons.1 h]

/-- A line without an option may close with blanks and a comment. -/
theorem closes_iff : closes cs = true ↔ ∃ gap tail, cs = gap ++ tail ∧ Blanks gap ∧
    Ending (fun c => c = '#' ∨ c = '!') tail := by
  have hends : closes cs = true ↔ Ending (fun c => c = '#' ∨ c = '!') (skipBlanks cs) := by
    simp [closes, ending_iff, and_or_left, exists_or, or_assoc]
  rw [hends, ending_skipBlanks_iff (by rintro c (rfl | rfl) <;> rfl)]

/-- Where a value has ended, only `#` can open a comment. -/
theorem ending_of_closes (hrest : Stops isValueChar rest) (h : closes rest = true) :
    Ending (· = '#') rest := by
  cases rest with
  | nil => exact ending_iff.2 (.inl rfl)
  | cons c rest =>
    have hc : c = '#' ∨ c = '\r' ∨ c = '\n' := by
      have := stops_cons.1 hrest
      simpa [isValueChar, or_assoc, imp_iff_not_or] using this
    rcases hc with rfl | rfl | rfl
    · exact ending_iff.2 (.inr ⟨'#', rfl, rfl⟩)
    · refine ending_iff.2 (.inl ?_)
      simpa [closes, skipBlanks, isBlank] using h
    · simp [closes, skipBlanks, isBlank, isLineEnd] at h

/-- A line that is read belongs to the language. -/
theorem line_of_ofLine? {l : List Char} {o : Option (List Char × List Char)}
    (h : ofLine? l = some o) : Line l o := by
  obtain ⟨lead, hlead, hsplit⟩ := exists_skipBlanks l
  simp only [ofLine?] at h
  split at h
  · rename_i key raw rest hoption
    split at h
    · rename_i hcloses
      obtain rfl := Option.some.inj h
      obtain ⟨gap, gap', hbody, hkey, hgap, hgap', hraw, hrest⟩ := exists_of_option? hoption
      -- The blanks behind the equals sign are counted to the value.
      have hline : l = lead ++ key ++ gap ++ ['='] ++ (gap' ++ raw) ++ [] ++ rest := by
        rw [hsplit, hbody]
        simp
      have htrim : trim (gap' ++ raw ++ []) = trim raw :=
        trim_append hgap'.isOuterSpace (List.forall_mem_nil _)
      rw [List.append_nil] at htrim
      rw [hline]
      exact .option hlead hkey hgap (List.forall_mem_append.2 ⟨valueChar_of_blanks hgap', hraw⟩)
        (List.forall_mem_nil _) (ending_of_closes hrest hcloses) (localName_eq_iff.1 rfl)
        (trim_eq_iff.1 htrim)
    · cases h
  · split at h
    · rename_i hcloses
      obtain rfl := Option.some.inj h
      obtain ⟨gap, tail, hbody, hgap, htail⟩ := closes_iff.1 hcloses
      rw [hsplit, hbody, ← List.append_assoc]
      exact .bare (hlead.append hgap) htail
    · cases h

/-- A line of the language is read. -/
theorem ofLine?_of_line {l : List Char} {o : Option (List Char × List Char)} (h : Line l o) :
    ofLine? l = some o := by
  cases h with
  | @bare lead tail hlead htail =>
    have hbody : skipBlanks (lead ++ tail) = tail :=
      skipBlanks_append hlead (htail.stops (by rintro c (rfl | rfl) <;> rfl) rfl)
    have hoption : option? tail = none :=
      option?_eq_none (htail.stops (by rintro c (rfl | rfl) <;> rfl) rfl)
    have hcloses : closes tail = true :=
      closes_iff.2 ⟨[], tail, rfl, List.forall_mem_nil _, htail⟩
    simp only [ofLine?, hbody, hoption, hcloses, if_true]
  | @option lead key gap raw gap' tail name value hlead hkey hgap hraw hgap' htail hname hvalue =>
    have hbody : skipBlanks (lead ++ key ++ gap ++ ['='] ++ raw ++ gap' ++ tail) =
        key ++ (gap ++ '=' :: ((raw ++ gap') ++ tail)) := by
      have hassoc : lead ++ key ++ gap ++ ['='] ++ raw ++ gap' ++ tail =
          lead ++ (key ++ (gap ++ '=' :: ((raw ++ gap') ++ tail))) := by simp
      rw [hassoc]
      exact skipBlanks_append hlead (hkey.stops_isBlank _)
    have hoption := option?_append hkey hgap
      (List.forall_mem_append.2 ⟨hraw, valueChar_of_blanks hgap'⟩)
      (htail.stops (by rintro c rfl; rfl) rfl) (htail.stops (by rintro c rfl; rfl) rfl)
    have hcloses : closes tail = true :=
      closes_iff.2 ⟨[], tail, rfl, List.forall_mem_nil _, htail.mono fun _ => .inl⟩
    have htrim : trim (skipBlanks (raw ++ gap')) = value := by
      rw [trim_skipBlanks, ← trim_eq_iff.2 hvalue]
      exact trim_append (List.forall_mem_nil _) hgap'.isOuterSpace
    simp only [ofLine?, hbody, hoption, hcloses, if_true, localName_eq_iff.2 hname, htrim]

/-- The reader decides the line language. -/
theorem ofLine?_eq_some {l : List Char} {o : Option (List Char × List Char)} :
    ofLine? l = some o ↔ Line l o :=
  ⟨line_of_ofLine?, ofLine?_of_line⟩

end Residency.Options
