/-
Residency/Proofs/Listings.lean

Function listings as a whole.  `accepts_exactly` says what becomes of any text: if a line is
outside the line language, the first such line is at fault; if the statements mix the two
formats, the text is; and otherwise the result is the list of extents in front of the end
tag, unless one of them is not positive (`checked`).  In the one format an extent has its
own size, in the other it reaches to the next address (`sizedExtents`, `boundedExtents`).
-/
import Residency.Proofs.Lines
import Residency.Proofs.ListingLines
import Residency.Proofs.Wording

namespace Residency.Listing

open Text

/-! ### What the statements of a listing say -/

/-- The statements of lines, with the numbers of the lines. -/
def stated (said : List (Option Statement)) : List (Nat × Statement) :=
  (numbered 1 said).filterMap fun (line, s) => s.map fun s => (line, s)

/-- The functions of statements with sizes. -/
def sizedExtents (ss : List (Nat × Statement)) : List (Nat × ListedFunction) :=
  ss.filterMap fun (line, s) =>
    match s with
    | .sized address name size => some (line, ⟨address, denoted 10 size, String.ofList name⟩)
    | .start _ _ => none

/-- The functions of statements without sizes, of which each reaches to the next one. -/
def boundedExtents (ss : List (Nat × Statement)) : List (Nat × ListedFunction) :=
  (ss.zip ss.tail).map fun (s, next) =>
    (s.1, ⟨s.2.address, next.2.address - s.2.address, String.ofList s.2.name⟩)

/-- The functions in front of the end tag. -/
def beforeEnd (fs : List (Nat × ListedFunction)) : List (Nat × ListedFunction) :=
  fs.takeWhile fun f => f.2.name ≠ "END_TAG"

/-- The functions in front of the end tag; the first one without a positive size is at fault. -/
def checked (fault : Nat → String → Fault) (fs : List (Nat × ListedFunction)) :
    Except Fault (List ListedFunction) :=
  match (beforeEnd fs).find? fun f => f.2.size ≤ 0 with
  | some f => .error (fault f.1 f.2.name)
  | none => .ok ((beforeEnd fs).map (·.2))

section Checked

variable {fault : Nat → String → Fault}

/-- The check looks at the name first, then at the size, then at the other functions. -/
theorem checked_cons (f : Nat × ListedFunction) (fs : List (Nat × ListedFunction)) :
    checked fault (f :: fs) =
      if f.2.name = "END_TAG" then .ok []
      else if f.2.size ≤ 0 then .error (fault f.1 f.2.name)
      else (checked fault fs).map (f.2 :: ·) := by
  by_cases hname : f.2.name = "END_TAG"
  · simp [checked, beforeEnd, hname]
  · by_cases hsize : f.2.size ≤ 0
    · simp [checked, beforeEnd, hname, hsize]
    · have hbefore : beforeEnd (f :: fs) = f :: beforeEnd fs := by simp [beforeEnd, hname]
      rw [if_neg hname, if_neg hsize, checked, checked, hbefore,
        List.find?_cons_of_neg (by simpa using hsize)]
      cases (beforeEnd fs).find? fun f => f.2.size ≤ 0 <;> rfl

/-- A check that fails names a line and a function. -/
theorem eq_fault_of_checked {fs : List (Nat × ListedFunction)} {e : Fault}
    (h : checked fault fs = .error e) : ∃ line name, e = fault line name := by
  unfold checked at h
  split at h
  · rename_i f _
    exact ⟨f.1, f.2.name, (Except.error.inj h).symm⟩
  · cases h

end Checked

theorem ofList_eq_endTag_iff {name : List Char} :
    String.ofList name = "END_TAG" ↔ name = endTag := by
  constructor
  · intro h
    have htag : (String.ofList name).toList = endTag := congrArg String.toList h
    rwa [String.toList_ofList] at htag
  · rintro rfl
    exact String.ofList_toList

/-! ### Walking through the statements -/

/-- The sizes in the statements are decimal numbers. -/
def Numeric (ss : List (Nat × Statement)) : Prop :=
  ∀ line address name digits, (line, Statement.sized address name digits) ∈ ss →
    ∀ c ∈ digits, IsDigit 10 c

/-- The functions of a listing with sizes are checked extents. -/
theorem sizedFunctions_eq {source : String} {ss : List (Nat × Statement)}
    (hsized : ∀ s ∈ ss, s.2.isSized = true) (hss : Numeric ss) :
    sizedFunctions source ss = checked (.emptyFunction source) (sizedExtents ss) := by
  induction ss with
  | nil => rfl
  | cons s ss ih =>
    obtain ⟨line, s⟩ := s
    cases s with
    | start address name => cases hsized _ List.mem_cons_self
    | sized address name digits =>
      have hvalue : Statement.valueOf 10 digits = denoted 10 digits :=
        Statement.valueOf_eq (.inl rfl) (hss line address name digits List.mem_cons_self)
      have hrest := ih (fun s hs => hsized s (List.mem_cons_of_mem _ hs))
        fun line address name digits h => hss line address name digits (List.mem_cons_of_mem _ h)
      have hextents : sizedExtents ((line, .sized address name digits) :: ss) =
          (line, ⟨address, denoted 10 digits, String.ofList name⟩) :: sizedExtents ss := rfl
      have hzero : ((denoted 10 digits : Nat) : Int) ≤ 0 ↔ denoted 10 digits = 0 := by omega
      rw [hextents, checked_cons, sizedFunctions, hvalue, hrest]
      simp only [ofList_eq_endTag_iff, hzero]

/-- The functions of a listing without sizes are checked extents. -/
theorem boundedFunctions_eq {source : String} {ss : List (Nat × Statement)} :
    boundedFunctions source ss = checked (.unboundedFunction source) (boundedExtents ss) := by
  -- A statement needs the next one, so the list is taken apart by two.
  induction ss with
  | nil => rfl
  | cons s ss ih =>
    cases ss with
    | nil => rfl
    | cons next ss =>
      have hextents : boundedExtents (s :: next :: ss) =
          (s.1, ⟨s.2.address, next.2.address - s.2.address, String.ofList s.2.name⟩) ::
            boundedExtents (next :: ss) := rfl
      rw [hextents, checked_cons, boundedFunctions, ih]
      simp only [ofList_eq_endTag_iff]

/-! ### From lines to statements -/

section Text

variable {source text : String} {ls : List (List Char)} {said : List (Option Statement)}

theorem decides_ofLine? (h : CutInto text.toList ls) : Decides Statement.ofLine? Line ls :=
  fun l hl _ => Statement.ofLine?_eq_some (h.unbroken l hl)

/-- The statements are those of the lines, with their numbers. -/
theorem statements_of_lines (h : CutInto text.toList ls) (hsaid : List.Forall₂ Line ls said) :
    statements source text = .ok (stated said) := by
  rw [statements, cutInto_iff.1 h, (decides_ofLine? h).readLines_eq_ok.2 ⟨said, hsaid, rfl⟩]
  rfl

/-- The first line outside of the language is at fault. -/
theorem statements_of_firstOutside (h : CutInto text.toList ls) {line : Nat}
    (hline : FirstOutside Line ls line) :
    statements source text = .error (.malformedFunction source line) := by
  rw [statements, cutInto_iff.1 h, (decides_ofLine? h).readLines_eq_error.2 hline]

theorem mem_stated {line : Nat} {s : Statement} (h : (line, s) ∈ stated said) : some s ∈ said := by
  obtain ⟨⟨n, o⟩, hmem, heq⟩ := List.mem_filterMap.1 h
  obtain ⟨s', rfl, hs⟩ := Option.map_eq_some_iff.1 heq
  obtain ⟨rfl, rfl⟩ := Prod.mk.inj hs
  exact mem_of_mem_numbered hmem

/-- Sizes in statements are words of digits. -/
theorem numeric_stated (hsaid : List.Forall₂ Line ls said) : Numeric (stated said) := by
  intro line address name digits h
  obtain ⟨l, -, hl⟩ := exists_line_of_mem hsaid (mem_stated h)
  cases hl with
  | statement _ hform =>
    cases hform with
    | sized _ _ _ _ _ hsize => exact hsize.2

/-- Every size in the text has few enough digits to be read. -/
def Legible (ls : List (List Char)) : Prop :=
  ∀ l ∈ ls, ∀ address name digits, Line l (some (.sized address name digits)) →
    digits.length ≤ maxDecimalDigits

/-- The digits of a size are on its line. -/
theorem legible_of_length_le (h : ∀ l ∈ ls, l.length ≤ maxDecimalDigits) : Legible ls := by
  intro l hl address name digits hline
  refine Nat.le_trans ?_ (h l hl)
  cases hline with
  | statement _ hform =>
    cases hform
    simp only [List.length_append]
    omega

/-- In legible lines no size is too long to be read. -/
theorem longNumeral?_eq_none (hsaid : List.Forall₂ Line ls said) (hsizes : Legible ls) :
    ((stated said).findSome? fun (_, s) => s.longNumeral?) = none := by
  rw [List.findSome?_eq_none_iff]
  rintro ⟨line, s⟩ hs
  cases s with
  | start address name => rfl
  | sized address name digits =>
    obtain ⟨l, hl, hline⟩ := exists_line_of_mem hsaid (mem_stated hs)
    show (if _ then _ else _) = none
    rw [if_neg (Nat.not_lt.2 (hsizes l hl address name digits hline))]

/-- The text of the report on an open end holds no number. -/
theorem result_reportOpenEnd_bind (ss : List (Nat × Statement)) {α : Type} (f : Unit → Analysis α)
    (t : Journal) : ((reportOpenEnd source ss >>= f) t).result = (f () t).result := by
  unfold reportOpenEnd
  split
  · rfl
  · split
    · rfl
    · exact Analysis.result_note_bind rfl f

/-! ### Any text -/

section Parse

variable (h : CutInto text.toList ls) (t : Journal)
include h

/-- A text with a line outside of the language is refused for the first such line. -/
theorem parse_of_firstOutside {line : Nat} (hline : FirstOutside Line ls line) :
    (parse text source t).result = .error (.malformedFunction source line) := by
  rw [parse, Analysis.result_bind, Analysis.result_ofExcept, statements_of_firstOutside h hline]
  rfl

variable (hsaid : List.Forall₂ Line ls said) (hsizes : Legible ls)
include hsaid hsizes

/-- Past its statements, a text is judged by their formats. -/
theorem parse_of_lines : (parse text source t).result =
    if (stated said).all fun (_, s) => s.isSized then sizedFunctions source (stated said)
    else if (stated said).any fun (_, s) => s.isSized then .error (.mixedFormats source)
    else boundedFunctions source (stated said) := by
  have hstatements : (Analysis.ofExcept (statements source text) t).result = .ok (stated said) :=
    statements_of_lines h hsaid
  rw [parse, Analysis.result_bind_of_ok hstatements, longNumeral?_eq_none hsaid hsizes]
  dsimp only
  split
  · rfl
  · split
    · rfl
    · cases hfs : boundedFunctions source (stated said) with
      | error e => exact Analysis.result_bind_of_error rfl
      | ok fs =>
        rw [Analysis.result_bind_of_ok (Analysis.result_ofExcept _ t)]
        exact result_reportOpenEnd_bind _ _ t

/-- A text in both formats is refused. -/
theorem parse_of_mixed (hsized : ∃ s ∈ stated said, s.2.isSized = true)
    (hstart : ∃ s ∈ stated said, s.2.isSized = false) :
    (parse text source t).result = .error (.mixedFormats source) := by
  rw [parse_of_lines h t hsaid hsizes, if_neg, if_pos]
  · exact List.any_eq_true.2 hsized
  · obtain ⟨s, hs, hno⟩ := hstart
    rw [List.all_eq_true]
    intro hall
    exact Bool.false_ne_true (hno.symm.trans (hall s hs))

/-- A text with sizes is read as its checked extents. -/
theorem parse_of_sized (hsized : ∀ s ∈ stated said, s.2.isSized = true) :
    (parse text source t).result =
      checked (.emptyFunction source) (sizedExtents (stated said)) := by
  rw [parse_of_lines h t hsaid hsizes, if_pos (List.all_eq_true.2 hsized)]
  exact sizedFunctions_eq hsized (numeric_stated hsaid)

/-- A text without sizes is read as its checked extents. -/
theorem parse_of_start (hstart : ∀ s ∈ stated said, s.2.isSized = false) :
    (parse text source t).result =
      checked (.unboundedFunction source) (boundedExtents (stated said)) := by
  rw [parse_of_lines h t hsaid hsizes]
  rcases eq_or_ne (stated said) [] with hnil | hne
  · rw [hnil]
    rfl
  · obtain ⟨s, hs⟩ := List.exists_mem_of_ne_nil _ hne
    rw [if_neg, if_neg]
    · exact boundedFunctions_eq
    · rw [List.any_eq_true]
      rintro ⟨s, hs, hyes⟩
      exact Bool.false_ne_true ((hstart s hs).symm.trans hyes)
    · rw [List.all_eq_true]
      intro hall
      exact Bool.false_ne_true ((hstart s hs).symm.trans (hall s hs))

/-- A text of the language is never refused for one of its lines. -/
theorem parse_ne_malformed (line : Nat) :
    (parse text source t).result ≠ .error (.malformedFunction source line) := by
  by_cases hsized : ∀ s ∈ stated said, s.2.isSized = true
  · rw [parse_of_sized h t hsaid hsizes hsized]
    intro heq
    obtain ⟨_, _, hfault⟩ := eq_fault_of_checked heq
    cases hfault
  · by_cases hstart : ∀ s ∈ stated said, s.2.isSized = false
    · rw [parse_of_start h t hsaid hsizes hstart]
      intro heq
      obtain ⟨_, _, hfault⟩ := eq_fault_of_checked heq
      cases hfault
    · push Not at hsized hstart
      simp only [ne_eq, Bool.not_eq_true, Bool.not_eq_false] at hsized hstart
      rw [parse_of_mixed h t hsaid hsizes hstart hsized]
      intro heq
      cases heq

end Parse

end Text

/-- What becomes of a text.  It is malformed if a line is outside the language, and then the
first such line is named; a text of such lines is at fault if it mixes the formats, and it
lists its functions up to the end tag if it does not, unless one of them is not positive. -/
theorem accepts_exactly (source text : String) {ls : List (List Char)}
    (hcut : CutInto text.toList ls) (hsizes : Legible ls) (t : Journal) :
    ((∃ line, (parse text source t).result = .error (.malformedFunction source line)) ↔
      ∃ l ∈ ls, ∀ s, ¬Line l s) ∧
    (∀ line, (parse text source t).result = .error (.malformedFunction source line) →
      FirstOutside Line ls line ∧ (Fault.malformedFunction source line).diagnostic.place =
        some ⟨source, some line, some 1⟩) ∧
    ∀ said, List.Forall₂ Line ls said →
      ((∃ s ∈ stated said, s.2.isSized = true) → (∃ s ∈ stated said, s.2.isSized = false) →
        (parse text source t).result = .error (.mixedFormats source)) ∧
      ((∀ s ∈ stated said, s.2.isSized = true) → (parse text source t).result =
        checked (.emptyFunction source) (sizedExtents (stated said))) ∧
      ((∀ s ∈ stated said, s.2.isSized = false) → (parse text source t).result =
        checked (.unboundedFunction source) (boundedExtents (stated said))) := by
  have hfirst : ∀ line, (parse text source t).result = .error (.malformedFunction source line) →
      FirstOutside Line ls line := by
    intro line hline
    rcases exists_said_or_outside Line ls with ⟨said, hsaid⟩ | ⟨n, hn⟩
    · exact absurd hline (parse_ne_malformed hcut t hsaid hsizes line)
    · rw [parse_of_firstOutside hcut t hn] at hline
      obtain ⟨-, rfl⟩ := Fault.malformedFunction.inj (Except.error.inj hline)
      exact hn
  refine ⟨⟨?_, ?_⟩, fun line hline => ⟨hfirst line hline, rfl⟩, fun said hsaid => ⟨?_, ?_, ?_⟩⟩
  · rintro ⟨line, hline⟩
    exact exists_firstOutside_iff.1 ⟨line, hfirst line hline⟩
  · intro hout
    obtain ⟨line, hline⟩ := exists_firstOutside_iff.2 hout
    exact ⟨line, parse_of_firstOutside hcut t hline⟩
  · exact parse_of_mixed hcut t hsaid hsizes
  · exact parse_of_sized hcut t hsaid hsizes
  · exact parse_of_start hcut t hsaid hsizes

/-- Two functions, a comment, and a function behind the end tag that would be at fault. -/
def sample : String :=
  "0X10 a 8\r\n# b\n 0x20\tc 12 # d\n0x30 END_TAG 0\n0x40 e 0"

theorem accepts_exactly_up_to_end_tag :
    CutInto sample.toList (lines sample.toList) ∧ Legible (lines sample.toList) ∧
      (parse sample "table" none).result = .ok [⟨16, 8, "a"⟩, ⟨32, 12, "c"⟩] := by
  have hcut := cutInto_lines sample.toList
  have hsizes : Legible (lines sample.toList) := legible_of_length_le (by decide +kernel)
  have hread : readLines Statement.ofLine? 1 (lines sample.toList) =
      .ok [(1, some (.sized 16 ['a'] ['8'])), (2, none), (3, some (.sized 32 ['c'] ['1', '2'])),
        (4, some (.sized 48 endTag ['0'])), (5, some (.sized 64 ['e'] ['0']))] := by
    decide +kernel
  obtain ⟨said, hsaid, hnumbered⟩ := (decides_ofLine? hcut).readLines_eq_ok.1 hread
  have hstated : stated said = [(1, .sized 16 ['a'] ['8']), (3, .sized 32 ['c'] ['1', '2']),
      (4, .sized 48 endTag ['0']), (5, .sized 64 ['e'] ['0'])] := by
    rw [stated, ← hnumbered]
    rfl
  refine ⟨hcut, hsizes, ?_⟩
  have hlisted := (accepts_exactly "table" sample hcut hsizes none).2.2 said hsaid
  rw [hstated] at hlisted
  rw [hlisted.2.1 (by decide)]
  decide +kernel

end Residency.Listing
